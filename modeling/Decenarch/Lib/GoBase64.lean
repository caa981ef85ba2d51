import Mathlib.Data.List.Basic

/-!
# Go's `encoding/base64`: `StdEncoding`

`base64.StdEncoding` is the encoding of RFC 4648, section 4: the alphabet
`A`–`Z`, `a`–`z`, `0`–`9`, `+`, `/`, and the padding `=`.  `EncodeToString`
turns each group of three bytes into four characters, and a last group of
one or two bytes into two or three characters padded with `=` to four.

`DecodeString` reads quantums of four characters with `decodeQuantum`,
passing over `\n` and `\r`; a quantum may end with `==` after two characters
or `=` after three, and then only newlines may follow.  A malformed input is
a `CorruptInputError` that names the offset of the byte where the decoder
stopped.  The fast paths of `Decode` over eight and four characters compute
what `decodeQuantum` computes, so the decoder below reads one character at a
time.  Every character that it passes over is ASCII, one byte of the string.

The round trip: `decodeString` gives back the bytes of every
`encodeToString`.
-/

namespace GoBase64

/-! ## The alphabet -/

/-- The code of `encodeStd[i]`, for `i < 64`. -/
def sextetCode (i : ℕ) : ℕ :=
  if i < 26 then 65 + i else if i < 52 then 71 + i else if i < 62 then i - 4 else if i = 62 then 43 else 47

/-- `encodeStd[i]`. -/
def encodeSextet (i : ℕ) : Char :=
  Char.ofNat (sextetCode i)

/-- `decodeMap[c]`: the index of `c` in the alphabet, and `none` for the
`0xff` of every other byte, the first byte of a multi-byte character
included. -/
def decodeChar (c : Char) : Option ℕ :=
  if 65 ≤ c.toNat ∧ c.toNat ≤ 90 then some (c.toNat - 65)
  else if 97 ≤ c.toNat ∧ c.toNat ≤ 122 then some (c.toNat - 71)
  else if 48 ≤ c.toNat ∧ c.toNat ≤ 57 then some (c.toNat + 4)
  else if c.toNat = 43 then some 62
  else if c.toNat = 47 then some 63
  else none

theorem sextetCode_lt (i : ℕ) : sextetCode i < 128 := by
  unfold sextetCode
  split_ifs <;> omega

theorem toNat_encodeSextet (i : ℕ) : (encodeSextet i).toNat = sextetCode i := by
  have hvalid : (sextetCode i).isValidChar := Or.inl (by have := sextetCode_lt i; omega)
  rw [encodeSextet, Char.ofNat, dif_pos hvalid]
  rfl

/-- Every character of the alphabet decodes to its index. -/
@[simp] theorem decodeChar_encodeSextet {i : ℕ} (h : i < 64) : decodeChar (encodeSextet i) = some i := by
  rw [decodeChar, toNat_encodeSextet]
  unfold sextetCode
  split_ifs <;> first | omega | (congr 1; omega)

/-! ## `EncodeToString` -/

/-- The four characters of the 24-bit group `val`: `encode[val>>18&0x3F]`,
`encode[val>>12&0x3F]`, `encode[val>>6&0x3F]`, `encode[val&0x3F]`, with
each shift `val>>k` written `val / 2^k`. -/
def encodeGroup (val : ℕ) : List Char :=
  [encodeSextet (val / 262144 % 64), encodeSextet (val / 4096 % 64), encodeSextet (val / 64 % 64),
    encodeSextet (val % 64)]

/-- `Encode`: the groups of three bytes, then the last one or two bytes,
whose group keeps two or three characters and is padded with `=`. -/
def encode : List UInt8 → List Char
  | a :: b :: c :: rest => encodeGroup (a.toNat * 65536 + b.toNat * 256 + c.toNat) ++ encode rest
  | [a, b] => (encodeGroup (a.toNat * 65536 + b.toNat * 256)).take 3 ++ ['=']
  | [a] => (encodeGroup (a.toNat * 65536)).take 2 ++ ['=', '=']
  | [] => []

/-- `EncodeToString`. -/
def encodeToString (src : List UInt8) : String :=
  String.ofList (encode src)

/-! ## `DecodeString` -/

/-- The bytes of a quantum of `dlen` sextets, `dlen = sextets.length`:
`val` packs the sextets from the top, with `0` for the missing ones, and
`byte(val>>16)`, `byte(val>>8)`, `byte(val)` are kept up to `dlen - 1`. -/
def quantumBytes (sextets : List ℕ) : List UInt8 :=
  let val := sextets.getD 0 0 * 262144 + sextets.getD 1 0 * 4096 + sextets.getD 2 0 * 64 + sextets.getD 3 0
  ([val / 65536, val / 256, val].map Nat.toUInt8).take (sextets.length - 1)

/-- The loop `for si < len(src) && (src[si] == '\n' || src[si] == '\r')`,
from the byte `si` on. -/
def skipNewlines : List Char → ℕ → List Char × ℕ
  | c :: rest, si => if c = '\n' ∨ c = '\r' then skipNewlines rest (si + 1) else (c :: rest, si)
  | [], si => ([], si)

/-- The end of a padded quantum, with the input `rest` from the byte `si`
on: after newlines nothing may follow (`trailing garbage`). -/
def afterPadding (out : List UInt8) (sextets : List ℕ) (rest : List Char) (si : ℕ) : Except ℕ (List UInt8) :=
  match skipNewlines rest si with
  | ([], _) => .ok (out ++ quantumBytes sextets)
  | (_ :: _, si') => .error si'

/-- A `=` after the sextets of a quantum, the rest of the input starting at
the byte `si` just after it: two sextets need a second `=`, three end the
quantum, and fewer are `incorrect padding`. -/
def padding (out : List UInt8) (sextets : List ℕ) (rest : List Char) (si : ℕ) : Except ℕ (List UInt8) :=
  match sextets with
  | [_, _] =>
    match skipNewlines rest si with
    | ([], si') => .error si'
    -- `CorruptInputError(si - 1)`: the byte before the one that is not `=`
    | (c :: rest', si') => if c = '=' then afterPadding out sextets rest' (si' + 1) else .error (si' - 1)
  | [_, _, _] => afterPadding out sextets rest si
  | _ => .error (si - 1)

/-- `Decode`, one character at a time: `sextets` are those of the current
quantum, fewer than four, `out` the bytes of the quantums before it, and
the input starts at the byte `si`.  An error is the offset that
`CorruptInputError` names. -/
def decodeFrom (sextets : List ℕ) (out : List UInt8) : List Char → ℕ → Except ℕ (List UInt8)
  | [], si => if sextets = [] then .ok out else .error (si - sextets.length)
  | c :: rest, si =>
    match decodeChar c with
    | some v =>
      if sextets.length = 3 then decodeFrom [] (out ++ quantumBytes (sextets ++ [v])) rest (si + 1)
      else decodeFrom (sextets ++ [v]) out rest (si + 1)
    | none =>
      if c = '\n' ∨ c = '\r' then decodeFrom sextets out rest (si + 1)
      else if c = '=' then padding out sextets rest (si + 1)
      else .error si

/-- `CorruptInputError.Error()`. -/
def corruptInputError (offset : ℕ) : String :=
  "illegal base64 data at input byte " ++ toString offset

/-- `DecodeString`, with the message of its error. -/
def decodeString (s : String) : Except String (List UInt8) :=
  match decodeFrom [] [] s.toList 0 with
  | .ok out => .ok out
  | .error offset => .error (corruptInputError offset)

example : encode [77, 97, 110] = ['T', 'W', 'F', 'u'] := by decide

example : decodeString "TW\nE=" = .ok [77, 97] := rfl

example : decodeString "TWE=x" = .error "illegal base64 data at input byte 4" := rfl

/-! ## The round trip -/

/-- The sextets of a group of three bytes give the three bytes back. -/
theorem quantumBytes_group (a b c : UInt8) :
    quantumBytes [(a.toNat * 65536 + b.toNat * 256 + c.toNat) / 262144 % 64,
      (a.toNat * 65536 + b.toNat * 256 + c.toNat) / 4096 % 64,
      (a.toNat * 65536 + b.toNat * 256 + c.toNat) / 64 % 64,
      (a.toNat * 65536 + b.toNat * 256 + c.toNat) % 64] = [a, b, c] := by
  have ha := a.toNat_lt
  have hb := b.toNat_lt
  have hc := c.toNat_lt
  simp only [quantumBytes, List.getD_cons_zero, List.getD_cons_succ, List.length_cons, List.length_nil,
    List.map_cons, List.map_nil, List.take_succ_cons, List.take_zero]
  refine List.cons_eq_cons.mpr ⟨UInt8.toNat_inj.mp ?_, List.cons_eq_cons.mpr ⟨UInt8.toNat_inj.mp ?_,
    List.cons_eq_cons.mpr ⟨UInt8.toNat_inj.mp ?_, rfl⟩⟩⟩ <;>
    simp only [Nat.toUInt8_eq, UInt8.toNat_ofNat'] <;> omega

/-- Two bytes padded to a group keep their three sextets. -/
theorem quantumBytes_pair (a b : UInt8) :
    quantumBytes [(a.toNat * 65536 + b.toNat * 256) / 262144 % 64, (a.toNat * 65536 + b.toNat * 256) / 4096 % 64,
      (a.toNat * 65536 + b.toNat * 256) / 64 % 64] = [a, b] := by
  have ha := a.toNat_lt
  have hb := b.toNat_lt
  simp only [quantumBytes, List.getD_cons_zero, List.getD_cons_succ, List.getD_nil, List.length_cons,
    List.length_nil, List.map_cons, List.map_nil, List.take_succ_cons, List.take_zero]
  refine List.cons_eq_cons.mpr ⟨UInt8.toNat_inj.mp ?_, List.cons_eq_cons.mpr ⟨UInt8.toNat_inj.mp ?_, rfl⟩⟩ <;>
    simp only [Nat.toUInt8_eq, UInt8.toNat_ofNat'] <;> omega

/-- One byte padded to a group keeps its two sextets. -/
theorem quantumBytes_single (a : UInt8) :
    quantumBytes [a.toNat * 65536 / 262144 % 64, a.toNat * 65536 / 4096 % 64] = [a] := by
  have ha := a.toNat_lt
  simp only [quantumBytes, List.getD_cons_zero, List.getD_cons_succ, List.getD_nil, List.length_cons,
    List.length_nil, List.map_cons, List.map_nil, List.take_succ_cons, List.take_zero]
  refine List.cons_eq_cons.mpr ⟨UInt8.toNat_inj.mp ?_, rfl⟩
  simp only [Nat.toUInt8_eq, UInt8.toNat_ofNat']
  omega

theorem decodeChar_pad : decodeChar '=' = none := by
  decide

/-- A character of the alphabet adds its sextet to a quantum of fewer than
three. -/
theorem decodeFrom_sextet {sextets : List ℕ} (h : sextets.length < 3) (out : List UInt8) (n : ℕ)
    (rest : List Char) (si : ℕ) :
    decodeFrom sextets out (encodeSextet (n % 64) :: rest) si = decodeFrom (sextets ++ [n % 64]) out rest (si + 1) := by
  rw [decodeFrom, decodeChar_encodeSextet (Nat.mod_lt n (by decide))]
  dsimp only
  rw [if_neg (by omega)]

/-- The fourth sextet of a quantum ends it. -/
theorem decodeFrom_sextet_fourth {sextets : List ℕ} (h : sextets.length = 3) (out : List UInt8) (n : ℕ)
    (rest : List Char) (si : ℕ) :
    decodeFrom sextets out (encodeSextet (n % 64) :: rest) si =
      decodeFrom [] (out ++ quantumBytes (sextets ++ [n % 64])) rest (si + 1) := by
  rw [decodeFrom, decodeChar_encodeSextet (Nat.mod_lt n (by decide))]
  dsimp only
  rw [if_pos h]

theorem decodeFrom_pad (sextets : List ℕ) (out : List UInt8) (rest : List Char) (si : ℕ) :
    decodeFrom sextets out ('=' :: rest) si = padding out sextets rest (si + 1) := by
  rw [decodeFrom, decodeChar_pad]
  rfl

/-- The four characters of a group decode as one quantum of four sextets. -/
theorem decodeFrom_encodeGroup (a b c : UInt8) (out : List UInt8) (rest : List Char) (si : ℕ) :
    decodeFrom [] out (encodeGroup (a.toNat * 65536 + b.toNat * 256 + c.toNat) ++ rest) si =
      decodeFrom [] (out ++ [a, b, c]) rest (si + 4) := by
  rw [encodeGroup, List.cons_append, List.cons_append, List.cons_append, List.cons_append, List.nil_append,
    decodeFrom_sextet (by simp), decodeFrom_sextet (by simp), decodeFrom_sextet (by simp),
    decodeFrom_sextet_fourth rfl]
  simp only [List.nil_append, List.cons_append, quantumBytes_group]

/-- The encoding of every byte string decodes to it, after any bytes
already decoded. -/
theorem decodeFrom_encode (src out : List UInt8) (si : ℕ) :
    decodeFrom [] out (encode src) si = .ok (out ++ src) := by
  induction src using encode.induct generalizing out si with
  | case1 a b c rest ih =>
    rw [encode, decodeFrom_encodeGroup, ih, List.append_assoc]
    rfl
  | case2 a b =>
    -- three sextets, then the padding `=`
    rw [encode, encodeGroup]
    simp only [List.take_succ_cons, List.take_zero, List.cons_append, List.nil_append]
    rw [decodeFrom_sextet (by simp), decodeFrom_sextet (by simp), decodeFrom_sextet (by simp),
      decodeFrom_pad]
    simp only [List.nil_append, List.cons_append, padding, afterPadding, skipNewlines, quantumBytes_pair]
  | case3 a =>
    -- two sextets, then the padding `==`
    rw [encode, encodeGroup]
    simp only [List.take_succ_cons, List.take_zero, List.cons_append, List.nil_append]
    rw [decodeFrom_sextet (by simp), decodeFrom_sextet (by simp), decodeFrom_pad]
    simp only [List.nil_append, List.cons_append, padding, afterPadding, skipNewlines, quantumBytes_single]
    rfl
  | case4 => simp [encode, decodeFrom]

theorem decodeString_encodeToString (src : List UInt8) : decodeString (encodeToString src) = .ok src := by
  rw [decodeString, encodeToString, String.toList_ofList, decodeFrom_encode, List.nil_append]

/-- Distinct byte strings have distinct encodings. -/
theorem encodeToString_injective : Function.Injective encodeToString := fun a b h => by
  have hab := decodeString_encodeToString a
  rw [h, decodeString_encodeToString] at hab
  exact (Except.ok.inj hab).symm

theorem encodeToString_eq_empty_iff {src : List UInt8} : encodeToString src = "" ↔ src = [] := by
  constructor
  · intro h
    have hsrc := decodeString_encodeToString src
    have hempty : decodeString "" = .ok [] := rfl
    rw [h, hempty] at hsrc
    exact (Except.ok.inj hsrc).symm
  · rintro rfl
    rfl

end GoBase64
