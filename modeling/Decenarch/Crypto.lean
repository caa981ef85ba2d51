import Decenarch.Suite
import Decenarch.Lib.Outcome
import Decenarch.Lib.FixedWidth

/-!
# Ciphertexts (`lib/crypto.go`)

ElGamal ciphertexts of points, their vectors, encryption of integers as
`i • B`, decryption, homomorphic addition and the byte encodings.  The
ephemeral scalar that `encryptPoint` picks at random is an argument here;
`encryptIntVector` takes one scalar per position.

`CipherVector.Add` indexes its receiver and its second operand at every
position of the first one, so it panics when one of them is shorter; the
model returns an `Outcome` for it and for the decoders, whose slicing panics
on short input.  With `PARALLELIZE` set, the vector loops run in chunks of
`VPARALLELIZE` goroutines that write disjoint positions; the functions below
give the vector that results, which is that of the sequential branch.
-/

namespace Decenarch

/-- `MaxHomomorphicInt`: the bound of the discrete-log search. -/
def MaxHomomorphicInt : ℤ := 100000

/-- `PARALLELIZE`. -/
def PARALLELIZE : Bool := true

/-- `VPARALLELIZE`. -/
def VPARALLELIZE : ℕ := 50

/-- `CipherText`: an ElGamal encrypted point. -/
structure CipherText (G : Type*) where
  K : G
  C : G
  deriving DecidableEq

/-- `CipherVector`. -/
abbrev CipherVector (G : Type*) := List (CipherText G)

/-- `CipherTextProof`: the DLEQ proof that a ciphertext encrypts `0` or `1`. -/
structure CipherTextProof (G Proof : Type*) where
  PublicKey : G
  Proof : Proof

/-- `CipherVectorProof`, one proof per entry. -/
abbrev CipherVectorProof (G Proof : Type*) := List (CipherTextProof G Proof)

variable {F G Proof : Type*} [Field F] [AddCommGroup G] [Module F G]

/-- `NewCipherText`: the ciphertext of null points. -/
def newCipherText : CipherText G := ⟨0, 0⟩

/-- `NewCipherVector`. -/
def newCipherVector (length : ℕ) : CipherVector G :=
  List.replicate length newCipherText

/-- `CipherText.Add`: componentwise sum. -/
def CipherText.add (c1 c2 : CipherText G) : CipherText G :=
  ⟨c1.K + c2.K, c1.C + c2.C⟩

/-- `CipherVector.Add(cv1, cv2)` on the receiver `cv`: position `i` of the
receiver becomes `cv1[i] + cv2[i]` for every position of `cv1`; indexing the
receiver or `cv2` past its end panics. -/
def CipherVector.add (cv cv1 cv2 : CipherVector G) : Outcome (CipherVector G) :=
  if cv1.length ≤ cv.length ∧ cv1.length ≤ cv2.length then
    .ok ((List.zipWith CipherText.add cv1 cv2) ++ cv.drop cv1.length)
  else .panic

variable (S : Suite F G Proof)

/-- `IntToPoint`: the integer `i` as the point `i • B`. -/
def intToPoint (integer : ℤ) : G := integer • S.Base

/-- `ZeroToPoint`. -/
def zeroToPoint : G := intToPoint S 0

/-- `OneToPoint`. -/
def oneToPoint : G := intToPoint S 1

/-- `CreateCipherTextProof`: a DLEQ proof for `(B, publicKey)` with the
ephemeral scalar of the ciphertext. -/
def createCipherTextProof (publicKey : G) (blinding : F) : CipherTextProof G Proof :=
  ⟨publicKey, S.NewDLEQProof S.Base publicKey blinding⟩

/-- `encryptPoint`, with the ephemeral scalar `k`. -/
def encryptPoint (pubkey M : G) (k : F) : CipherText G × CipherTextProof G Proof :=
  (⟨k • S.Base, k • pubkey + M⟩, createCipherTextProof S pubkey k)

/-- `EncryptInt`. -/
def encryptInt (pubkey : G) (integer : ℤ) (k : F) : CipherText G × CipherTextProof G Proof :=
  encryptPoint S pubkey (intToPoint S integer) k

/-- `EncryptIntVector`, with the scalar `ks i` for position `i`. -/
def encryptIntVector (pubkey : G) (intArray : List ℤ) (ks : ℕ → F) :
    CipherVector G × CipherVectorProof G Proof :=
  let cells := intArray.zipIdx.map fun (n, i) => encryptInt S pubkey n (ks i)
  (cells.map Prod.fst, cells.map Prod.snd)

/-- `DecryptPoint`. -/
def decryptPoint (prikey : F) (c : CipherText G) : G :=
  c.C - prikey • c.K

/-- `CipherText.ToBytes`: the encodings of `K` and `C`, one after the other. -/
def CipherText.toBytes (c : CipherText G) : Bytes :=
  S.MarshalBinary c.K ++ S.MarshalBinary c.C

/-- `CipherVector.ToBytes`: the concatenated encodings and the length. -/
def CipherVector.toBytes (cv : CipherVector G) : Bytes × ℕ :=
  (cv.flatMap (CipherText.toBytes S), cv.length)

/-- `CipherText.FromBytes`: the first 32 bytes decode `K`, the rest `C`;
decoding errors are ignored. -/
def CipherText.fromBytes (data : Bytes) : CipherText G :=
  ⟨S.UnmarshalBinary (data.take 32), S.UnmarshalBinary (data.drop 32)⟩

/-- `CipherVector.FromBytes(data, length)`: entry `pos` decodes
`data[64 pos : 64 pos + 64]`; the slice panics when `data` is too short. -/
def CipherVector.fromBytes (data : Bytes) (length : ℕ) : Outcome (CipherVector G) :=
  if length * 64 ≤ data.length then
    .ok ((List.range length).map fun pos => CipherText.fromBytes S ((data.drop (64 * pos)).take 64))
  else .panic

/-- `AbstractPointsToBytes`. -/
def abstractPointsToBytes (aps : List G) : Bytes :=
  aps.flatMap S.MarshalBinary

/-- `BytesToAbstractPoints`: decodes 32-byte chunks; a short last chunk
panics and a decoding error stops the program (`log.Fatal`). -/
def bytesToAbstractPoints (target : Bytes) : Outcome (List G) :=
  if target.length % 32 = 0 then
    let chunks := (List.range (target.length / 32)).map fun i => (target.drop (32 * i)).take 32
    if chunks.any S.UnmarshalFails then .panic else .ok (chunks.map S.UnmarshalBinary)
  else .panic

/-! ## Encryption and homomorphic addition -/

/-- The ciphertext `c` encrypts the integer `m` (as the point `m • B`) under
the public key `X`. -/
def CipherText.EncryptsInt (X : G) (c : CipherText G) (m : ℤ) : Prop :=
  ElGamal.Encrypts (F := F) S.Base X c.K c.C (intToPoint S m)

/-- Every entry of `cv` encrypts the integer at its position in `ms`. -/
def CipherVector.EncryptsInts (X : G) (cv : CipherVector G) (ms : List ℤ) : Prop :=
  List.Forall₂ (CipherText.EncryptsInt S X) cv ms

@[simp] theorem length_newCipherVector (length : ℕ) :
    (newCipherVector length : CipherVector G).length = length := by
  simp [newCipherVector]

omit [Field F] [Module F G] in
theorem intToPoint_add (a b : ℤ) : intToPoint S (a + b) = intToPoint S a + intToPoint S b :=
  add_zsmul S.Base a b

theorem encryptInt_encryptsInt (X : G) (m : ℤ) (k : F) :
    (encryptInt S X m k).1.EncryptsInt S X m :=
  ElGamal.encrypts_mul_base k _

/-- The null ciphertext encrypts `0`. -/
theorem newCipherText_encryptsInt (X : G) : (newCipherText : CipherText G).EncryptsInt S X 0 := by
  simpa [CipherText.EncryptsInt, intToPoint, newCipherText] using
    (ElGamal.encrypts_zero (F := F) (B := S.Base) (X := X))

theorem CipherText.EncryptsInt.add {X : G} {c₁ c₂ : CipherText G} {m₁ m₂ : ℤ}
    (h₁ : c₁.EncryptsInt S X m₁) (h₂ : c₂.EncryptsInt S X m₂) :
    (c₁.add c₂).EncryptsInt S X (m₁ + m₂) := by
  rw [CipherText.EncryptsInt, intToPoint_add]
  exact ElGamal.Encrypts.add h₁ h₂

/-- Decrypting an encryption of `m` with the secret of the key gives `m • B`. -/
theorem CipherText.EncryptsInt.decryptPoint_eq {x : F} {c : CipherText G} {m : ℤ}
    (h : c.EncryptsInt S (x • S.Base) m) : decryptPoint x c = intToPoint S m :=
  ElGamal.Encrypts.decrypt_eq rfl h

/-- `EncryptIntVector` encrypts each integer at its position. -/
theorem encryptIntVector_encryptsInts (X : G) (ms : List ℤ) (ks : ℕ → F) :
    CipherVector.EncryptsInts S X (encryptIntVector S X ms ks).1 ms := by
  -- the encryption of position `i` uses the scalar `ks i`, whatever it is
  suffices h : ∀ i, List.Forall₂ (CipherText.EncryptsInt S X)
      ((ms.zipIdx i).map fun (n, j) => (encryptInt S X n (ks j)).1) ms by
    simpa [encryptIntVector, CipherVector.EncryptsInts, List.map_map] using h 0
  induction ms with
  | nil => intro i; simp
  | cons m ms ih =>
      intro i
      exact List.Forall₂.cons (encryptInt_encryptsInt S X m (ks i)) (ih (i + 1))

theorem length_encryptIntVector (X : G) (ms : List ℤ) (ks : ℕ → F) :
    (encryptIntVector S X ms ks).1.length = ms.length :=
  (encryptIntVector_encryptsInts S X ms ks).length_eq

/-- `CipherVector.Add` into its first operand, from a second operand at least
as long, sums position by position. -/
theorem CipherVector.add_self {cv cv2 : CipherVector G} (h : cv.length ≤ cv2.length) :
    CipherVector.add cv cv cv2 = .ok (List.zipWith CipherText.add cv cv2) := by
  simp [CipherVector.add, h]

/-- A shorter second operand makes `CipherVector.Add` index past its end. -/
theorem CipherVector.add_self_of_lt {cv cv2 : CipherVector G} (h : cv2.length < cv.length) :
    CipherVector.add cv cv cv2 = .panic := by
  simp only [CipherVector.add, le_refl, true_and, ite_eq_right_iff, reduceCtorEq, imp_false]
  omega

theorem CipherVector.EncryptsInts.zipWith_add {X : G} {cv₁ cv₂ : CipherVector G} {ms₁ ms₂ : List ℤ}
    (h₁ : CipherVector.EncryptsInts S X cv₁ ms₁) (h₂ : CipherVector.EncryptsInts S X cv₂ ms₂) :
    CipherVector.EncryptsInts S X (List.zipWith CipherText.add cv₁ cv₂)
      (List.zipWith (· + ·) ms₁ ms₂) := by
  induction h₁ generalizing cv₂ ms₂ with
  | nil => exact List.Forall₂.nil
  | cons hc _ ih =>
      cases h₂ with
      | nil => exact List.Forall₂.nil
      | cons hd htl => exact List.Forall₂.cons (hc.add S hd) (ih htl)

/-! ## Byte encodings -/

section Bytes

-- the encodings use only the suite's marshalling, not the group structure
omit [Field F] [AddCommGroup G] [Module F G]

variable {S}

theorem CipherText.length_toBytes (hS : S.MarshalRoundTrip) (c : CipherText G) :
    (c.toBytes S).length = 64 := by
  rw [CipherText.toBytes, List.length_append, (hS c.K).1, (hS c.C).1]

theorem CipherText.fromBytes_toBytes (hS : S.MarshalRoundTrip) (c : CipherText G) :
    CipherText.fromBytes S (c.toBytes S) = c := by
  rw [CipherText.fromBytes, CipherText.toBytes, List.take_left' (hS c.K).1,
    List.drop_left' (hS c.K).1, (hS c.K).2.1, (hS c.C).2.1]

theorem CipherVector.length_toBytes (hS : S.MarshalRoundTrip) (cv : CipherVector G) :
    (cv.toBytes S).1.length = 64 * cv.length :=
  List.length_flatMap_of_width _ 64 (CipherText.length_toBytes hS) cv

/-- The encoding of a vector decodes, at its length, to the vector. -/
theorem CipherVector.fromBytes_toBytes (hS : S.MarshalRoundTrip) (cv : CipherVector G) :
    CipherVector.fromBytes S (cv.toBytes S).1 cv.length = .ok cv := by
  have hlen : cv.length * 64 ≤ (cv.toBytes S).1.length := by
    rw [CipherVector.length_toBytes hS, Nat.mul_comm]
  rw [CipherVector.fromBytes, if_pos hlen]
  exact congrArg Outcome.ok (List.map_range_decode_flatMap _ _ 64
    (CipherText.length_toBytes hS) (CipherText.fromBytes_toBytes hS) cv)

theorem CipherVector.length_of_fromBytes {data : Bytes} {length : ℕ} {cv : CipherVector G}
    (h : CipherVector.fromBytes S data length = .ok cv) : cv.length = length := by
  unfold CipherVector.fromBytes at h
  split_ifs at h
  cases h
  simp

/-- `FromBytes` on enough bytes decodes each slice of 64. -/
theorem CipherVector.fromBytes_of_le {data : Bytes} {length : ℕ} (h : length * 64 ≤ data.length) :
    CipherVector.fromBytes S data length =
      .ok ((List.range length).map fun pos => CipherText.fromBytes S ((data.drop (64 * pos)).take 64)) :=
  if_pos h

/-- `FromBytes` on too few bytes slices past their end. -/
theorem CipherVector.fromBytes_of_lt {data : Bytes} {length : ℕ} (h : data.length < length * 64) :
    CipherVector.fromBytes S data length = .panic :=
  if_neg (Nat.not_le.mpr h)

/-- The encoding of a list of points decodes to the list. -/
theorem bytesToAbstractPoints_abstractPointsToBytes (hS : S.MarshalRoundTrip) (aps : List G) :
    bytesToAbstractPoints S (abstractPointsToBytes S aps) = .ok aps := by
  have hlen : (abstractPointsToBytes S aps).length = 32 * aps.length :=
    List.length_flatMap_of_width _ 32 (fun P => (hS P).1) aps
  have hchunks : (List.range aps.length).map (fun i => ((abstractPointsToBytes S aps).drop (32 * i)).take 32) =
      aps.map S.MarshalBinary := by
    apply List.ext_getElem (by simp)
    intro i hi _
    rw [List.getElem_map, List.getElem_range, List.getElem_map, abstractPointsToBytes,
      List.take_drop_flatMap_of_width _ 32 (fun P => (hS P).1) aps i (by simpa using hi)]
  have hdiv : (abstractPointsToBytes S aps).length / 32 = aps.length := by omega
  simp only [bytesToAbstractPoints, hlen, Nat.mul_mod_right, if_true]
  rw [← hlen, hdiv, hchunks]
  have hfails : (aps.map S.MarshalBinary).any S.UnmarshalFails = false := by
    simp [fun P => (hS P).2.2]
  rw [if_neg (by simp [hfails]), List.map_map]
  exact congrArg Outcome.ok (List.map_congr_left (fun P _ => (hS P).2.1) |>.trans (List.map_id aps))

/-- **The byte encodings round-trip**: the bytes of a vector hold 64 per
entry and decode, at the length `ToBytes` returns, to the vector, entry by
entry; the bytes of a list of points decode to the list. -/
theorem cipherVector_points_bytes_roundTrip (hS : S.MarshalRoundTrip) :
    (∀ cv : CipherVector G, (cv.toBytes S).1.length = 64 * cv.length ∧
      CipherVector.fromBytes S (cv.toBytes S).1 (cv.toBytes S).2 = .ok cv) ∧
    ∀ ps : List G, bytesToAbstractPoints S (abstractPointsToBytes S ps) = .ok ps :=
  ⟨fun cv => ⟨CipherVector.length_toBytes hS cv, CipherVector.fromBytes_toBytes hS cv⟩,
    bytesToAbstractPoints_abstractPointsToBytes hS⟩

/-- The suite on `ZMod 7`, whose points encode in 32 bytes. -/
theorem cipherVector_points_bytes_roundTrip_zmod7 :
    Suite.zmod7.MarshalRoundTrip ∧
    (∀ cv : CipherVector (ZMod 7), (cv.toBytes Suite.zmod7).1.length = 64 * cv.length ∧
      CipherVector.fromBytes Suite.zmod7 (cv.toBytes Suite.zmod7).1 (cv.toBytes Suite.zmod7).2 = .ok cv) ∧
    ∀ ps : List (ZMod 7), bytesToAbstractPoints Suite.zmod7 (abstractPointsToBytes Suite.zmod7 ps) = .ok ps :=
  ⟨Suite.zmod7_marshalRoundTrip, cipherVector_points_bytes_roundTrip Suite.zmod7_marshalRoundTrip⟩

end Bytes

end Decenarch
