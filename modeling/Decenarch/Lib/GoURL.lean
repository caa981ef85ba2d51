import Mathlib.Data.List.TakeWhile

/-!
# Go's `net/url`: parsing, reference resolution and printing

`url.Parse`, `(*URL).ResolveReference` (RFC 3986, section 5.2) and
`(*URL).String` as Go's `net/url` computes them, with a Go `string` as the
list of its characters.  Parsing splits off the fragment, the scheme, the
query and the authority, and percent-decodes the path; resolution merges the
reference's path into the base's directory and removes the dot segments.

Left out, for characters that need percent-encoding only: `RawPath` (a path
is printed in its canonical escaping), the escaping of bytes above `0x7f`
(a character passes through, a decoded byte stands for the character of the
same code), the parsing and escaping of the userinfo, and the checks of
IPv6 literals and ports.
-/

namespace GoURL

/-- The fields of a Go `url.URL` that parsing fills; `User` is the userinfo
before `@`, `none` for a nil pointer. -/
structure URL where
  Scheme : List Char
  Opaque : List Char
  User : Option (List Char)
  Host : List Char
  Path : List Char
  ForceQuery : Bool
  RawQuery : List Char
  Fragment : List Char
  deriving DecidableEq, Repr

/-- The empty URL, `new(URL)`. -/
def URL.empty : URL := ⟨[], [], none, [], [], false, [], []⟩

/-- The encodings of `shouldEscape` that parsing and printing use. -/
inductive Encoding where
  | path
  | host
  | fragment
  deriving DecidableEq, Repr

/-- The sub-delimiters that a host may hold unescaped. -/
def hostSubDelim (c : Char) : Bool :=
  c = '!' || c = '$' || c = '&' || c = Char.ofNat 39 || c = '(' || c = ')' || c = '*' || c = '+' ||
    c = ',' || c = ';' || c = '=' || c = ':' || c = '[' || c = ']' || c = '<' || c = '>' || c = Char.ofNat 34

/-- The reserved characters of RFC 3986, section 2.2, as `shouldEscape`
lists them. -/
def reserved (c : Char) : Bool :=
  c = '$' || c = '&' || c = '+' || c = ',' || c = '/' || c = ':' || c = ';' || c = '=' || c = '?' || c = '@'

/-- `shouldEscape(c, mode)`. -/
def shouldEscape (c : Char) (mode : Encoding) : Bool :=
  if c.isAlphanum then false
  else if mode = .host && hostSubDelim c then false
  else if c = '-' || c = '_' || c = '.' || c = '~' then false
  else if reserved c then
    match mode with
    | .path => c = '?'
    | .fragment => false
    | .host => true
  else true

/-- `unhex`, for a character that `ishex` accepts. -/
def unhex (c : Char) : Option ℕ :=
  if '0' ≤ c ∧ c ≤ '9' then some (c.toNat - '0'.toNat)
  else if 'a' ≤ c ∧ c ≤ 'f' then some (c.toNat - 'a'.toNat + 10)
  else if 'A' ≤ c ∧ c ≤ 'F' then some (c.toNat - 'A'.toNat + 10)
  else none

/-- The upper-case hexadecimal digit of a value below `16`. -/
def hexDigit (n : ℕ) : Char := "0123456789ABCDEF".toList.getD n '0'

/-- `EscapeError(s).Error()`. -/
def escapeError (s : List Char) : String :=
  "invalid URL escape " ++ String.ofList (Char.ofNat 34 :: s ++ [Char.ofNat 34])

/-- `InvalidHostError(s).Error()`. -/
def invalidHostError (s : List Char) : String :=
  "invalid character " ++ String.ofList (Char.ofNat 34 :: s ++ [Char.ofNat 34]) ++ " in host name"

/-- `unescape(s, mode)`: the first malformed escape, or in a host a
character that must be escaped, is an error; every `%XX` is decoded. -/
def unescape (mode : Encoding) : List Char → Except String (List Char)
  | [] => .ok []
  | '%' :: a :: b :: rest =>
      match unhex a, unhex b with
      | some x, some y =>
          -- in a host, only non-ASCII bytes and `%25` may be escaped
          if mode = .host ∧ x < 8 ∧ [a, b] ≠ ['2', '5'] then .error (escapeError ['%', a, b])
          else (unescape mode rest).map (Char.ofNat (16 * x + y) :: ·)
      | _, _ => .error (escapeError ['%', a, b])
  | '%' :: rest => .error (escapeError ('%' :: rest))
  | c :: rest =>
      if mode = .host ∧ c.toNat < 128 ∧ shouldEscape c .host then .error (invalidHostError [c])
      else (unescape mode rest).map (c :: ·)

/-- `escape(s, mode)`, on the characters below `0x80`. -/
def escape (s : List Char) (mode : Encoding) : List Char :=
  s.flatMap fun c =>
    if c.toNat < 128 ∧ shouldEscape c mode then ['%', hexDigit (c.toNat / 16), hexDigit (c.toNat % 16)]
    else [c]

/-- `split(s, c, cutc)`: the text before the first `c`, and the rest, with
or without the `c`. -/
def splitAt (s : List Char) (c : Char) (cutc : Bool) : List Char × List Char :=
  let before := s.takeWhile (· ≠ c)
  match s.drop before.length with
  | [] => (s, [])
  | sep :: after => if cutc then (before, after) else (before, sep :: after)

/-- The loop of `getscheme`, with the scheme read so far. -/
def getschemeLoop (rawurl : List Char) : List Char → List Char → Except String (List Char × List Char)
  | _, [] => .ok ([], rawurl)
  | scheme, c :: rest =>
      if c.isAlpha then getschemeLoop rawurl (scheme ++ [c]) rest
      else if c.isDigit || c = '+' || c = '-' || c = '.' then
        if scheme = [] then .ok ([], rawurl) else getschemeLoop rawurl (scheme ++ [c]) rest
      else if c = ':' then
        if scheme = [] then .error "missing protocol scheme" else .ok (scheme, rest)
      else .ok ([], rawurl)

/-- `getscheme(rawurl)`: a leading `scheme:`, or no scheme. -/
def getscheme (rawurl : List Char) : Except String (List Char × List Char) :=
  getschemeLoop rawurl [] rawurl

/-- `parseAuthority`: the userinfo before the last `@`, and the host,
unescaped as a host. -/
def parseAuthority (authority : List Char) : Except String (Option (List Char) × List Char) :=
  let host := (authority.reverse.takeWhile (· ≠ '@')).reverse
  match authority.reverse.dropWhile (· ≠ '@') with
  | [] => (unescape .host authority).map fun h => (none, h)
  | _ :: userRev => (unescape .host host).map fun h => (some userRev.reverse, h)

/-- The first path segment of a relative reference holds a colon. -/
def colonInFirstSegment (rest : List Char) : Bool :=
  ':' ∈ rest.takeWhile (· ≠ '/')

/-- The query of `parse`: a lone trailing `?` sets `ForceQuery`, otherwise
the query is the text after the first `?`. -/
def splitQuery (rest : List Char) : List Char × Bool × List Char :=
  if rest.getLast? = some '?' ∧ rest.count '?' = 1 then (rest.dropLast, true, [])
  else ((splitAt rest '?' true).1, false, (splitAt rest '?' true).2)

/-- `parse` after the scheme and the query: an opaque URL, the colon check
of a relative reference, the authority, and the path unescaped. -/
def parseRest (url : URL) (rest : List Char) : Except String URL :=
  if rest.head? ≠ some '/' ∧ url.Scheme ≠ [] then
    -- a rootless path after a scheme is opaque
    .ok { url with Opaque := rest }
  else if rest.head? ≠ some '/' ∧ colonInFirstSegment rest then
    .error "first path segment in URL cannot contain colon"
  else if (url.Scheme ≠ [] ∨ ¬ ['/', '/', '/'] <+: rest) ∧ ['/', '/'] <+: rest then
    match parseAuthority (splitAt (rest.drop 2) '/' false).1 with
    | .error e => .error e
    | .ok (user, host) =>
        (unescape .path (splitAt (rest.drop 2) '/' false).2).map fun path =>
          { url with User := user, Host := host, Path := path }
  else (unescape .path rest).map fun path => { url with Path := path }

/-- `parse(rawurl, false)`, on the text before the fragment. -/
def parseNoFrag (rawurl : List Char) : Except String URL :=
  if rawurl = ['*'] then .ok { URL.empty with Path := ['*'] }
  else match getscheme rawurl with
    | .error e => .error e
    | .ok (scheme, rest) =>
        match splitQuery rest with
        | (rest, forceQuery, rawQuery) =>
            let url : URL := { URL.empty with Scheme := scheme.map Char.toLower, ForceQuery := forceQuery }
            parseRest { url with RawQuery := rawQuery } rest

/-- `url.Parse(rawurl)`: the fragment after the first `#`, unescaped, and
the rest parsed; errors carry the text they arose from. -/
def parse (rawurl : List Char) : Except String URL :=
  let (u, frag) := splitAt rawurl '#' true
  match parseNoFrag u with
  | .error e => .error ("parse " ++ String.ofList u ++ ": " ++ e)
  | .ok url =>
      if frag = [] then .ok url
      else match unescape .fragment frag with
        | .error e => .error ("parse " ++ String.ofList rawurl ++ ": " ++ e)
        | .ok f => .ok { url with Fragment := f }

/-- `(*URL).IsAbs`. -/
def URL.IsAbs (u : URL) : Bool := u.Scheme ≠ []

/-- `(*URL).EscapedPath`, in the canonical escaping. -/
def URL.escapedPath (u : URL) : List Char := escape u.Path .path

/-- One element of the loop of `resolvePath` over the segments. -/
def resolveStep (dst : List (List Char)) (elem : List Char) : List (List Char) :=
  if elem = ['.'] then dst
  else if elem = ['.', '.'] then dst.dropLast
  else dst ++ [elem]

/-- `resolvePath(base, ref)`: the reference merged into the base's
directory, its dot segments removed (RFC 3986, sections 5.2.3 and 5.2.4). -/
def resolvePath (base ref : List Char) : List Char :=
  let full :=
    if ref = [] then base
    else if ref.head? ≠ some '/' then (base.reverse.dropWhile (· ≠ '/')).reverse ++ ref
    else ref
  if full = [] then []
  else
    let src := full.splitOn '/'
    let dst := src.foldl resolveStep []
    -- a last `.` or `..` leaves a final slash
    let dst := if src.getLast? = some ['.'] ∨ src.getLast? = some ['.', '.'] then dst ++ [[]] else dst
    let joined := ['/'].intercalate dst
    '/' :: (if joined.head? = some '/' then joined.tail else joined)

/-- `url.setPath(p)`, whose error the caller ignores: the path unchanged. -/
def URL.setPath (url : URL) (p : List Char) : URL :=
  match unescape .path p with
  | .ok path => { url with Path := path }
  | .error _ => url

/-- `(*URL).ResolveReference(ref)` (RFC 3986, section 5.2.2). -/
def URL.resolveReference (u ref : URL) : URL :=
  let url := { ref with Scheme := if ref.Scheme = [] then u.Scheme else ref.Scheme }
  if ref.Scheme ≠ [] ∨ ref.Host ≠ [] ∨ ref.User.isSome then
    -- an absolute URI or a network-path reference
    url.setPath (resolvePath ref.escapedPath [])
  else if ref.Opaque ≠ [] then { url with User := none, Host := [], Path := [] }
  else
    let url :=
      if ref.Path = [] ∧ ¬ ref.ForceQuery ∧ ref.RawQuery = [] then
        { url with RawQuery := u.RawQuery, Fragment := if ref.Fragment = [] then u.Fragment else ref.Fragment }
      else url
    -- an absolute-path or relative-path reference
    { url with Host := u.Host, User := u.User }.setPath (resolvePath u.escapedPath ref.escapedPath)

/-- `(*URL).Parse(ref)`: `ref` parsed and resolved against `u`. -/
def URL.parseRef (u : URL) (ref : List Char) : Except String URL :=
  (parse ref).map u.resolveReference

/-- `(*URL).String`. -/
def URL.toString (u : URL) : List Char :=
  let scheme := if u.Scheme ≠ [] then u.Scheme ++ [':'] else []
  let body :=
    if u.Opaque ≠ [] then u.Opaque
    else
      let authority :=
        if u.Scheme ≠ [] ∨ u.Host ≠ [] ∨ u.User.isSome then
          ['/', '/'] ++ (match u.User with | some ui => ui ++ ['@'] | none => []) ++ escape u.Host .host
        else []
      let path := u.escapedPath
      let slash := if path ≠ [] ∧ path.head? ≠ some '/' ∧ u.Host ≠ [] then ['/'] else []
      -- a first segment with a colon would read as a scheme
      let dotSlash := if scheme ++ authority ++ slash = [] ∧ colonInFirstSegment path then ['.', '/'] else []
      authority ++ slash ++ dotSlash ++ path
  let query := if u.ForceQuery ∨ u.RawQuery ≠ [] then '?' :: u.RawQuery else []
  let fragment := if u.Fragment ≠ [] then '#' :: escape u.Fragment .fragment else []
  scheme ++ body ++ query ++ fragment

/-! ## No slash in a parsed host -/

theorem notMem_splitAt_fst (s : List Char) (c : Char) (cutc : Bool) : c ∉ (splitAt s c cutc).1 := by
  have htake : c ∉ s.takeWhile (· ≠ c) := fun h => by simpa using List.mem_takeWhile_imp h
  -- `s` is the scanned text followed by the rest, from the first `c` on
  have hsplit := List.takeWhile_append_dropWhile (p := fun x => decide (x ≠ c)) (l := s)
  have hdrop : s.drop (s.takeWhile (· ≠ c)).length = s.dropWhile (· ≠ c) := by
    have h : ((s.takeWhile (· ≠ c)) ++ s.dropWhile (· ≠ c)).drop (s.takeWhile (· ≠ c)).length =
        s.dropWhile (· ≠ c) := List.drop_left
    rwa [hsplit] at h
  simp only [splitAt, hdrop]
  cases hd : s.dropWhile (· ≠ c) with
  | nil =>
      -- no `c` at all: the scan took the whole text
      rw [hd, List.append_nil] at hsplit
      dsimp only
      exact hsplit ▸ htake
  | cons sep after => cases cutc <;> exact htake

theorem unhex_lt {c : Char} {x : ℕ} (h : unhex c = some x) : x < 16 := by
  unfold unhex at h
  split_ifs at h with h₁ h₂ h₃ <;> simp only [Option.some.injEq] at h <;> subst h
  · have : c.toNat ≤ '9'.toNat := h₁.2
    simp at this ⊢
    omega
  · have : c.toNat ≤ 'f'.toNat := h₂.2
    have : 'a'.toNat ≤ c.toNat := h₂.1
    simp at *
    omega
  · have : c.toNat ≤ 'F'.toNat := h₃.2
    have : 'A'.toNat ≤ c.toNat := h₃.1
    simp at *
    omega

/-- The only escape that decodes to `/` is `%2F`. -/
theorem eq_of_decode_eq_slash : ∀ x < 16, ∀ y < 16, Char.ofNat (16 * x + y) = '/' → x = 2 ∧ y = 15 := by
  decide

theorem map_eq_ok {ε α β : Type} {f : α → β} {x : Except ε α} {b : β} :
    x.map f = .ok b ↔ ∃ a, x = .ok a ∧ f a = b := by
  cases x <;> simp [Except.map]

/-- Unescaping a host makes no `/`: an escape of a byte below `0x80` other
than `%25` is refused, and the others decode to characters above `0x7f`. -/
theorem slash_notMem_unescape_host {s t : List Char} (h : unescape .host s = .ok t) (hs : '/' ∉ s) :
    '/' ∉ t := by
  fun_induction unescape Encoding.host s generalizing t with
  | case1 =>
      cases h
      exact List.not_mem_nil
  | case2 => cases h
  | case3 a b rest x y hb ha hcond ih =>
      obtain ⟨t', ht', rfl⟩ := map_eq_ok.mp h
      simp only [List.mem_cons, not_or] at hs ⊢
      refine ⟨fun hslash => ?_, ih ht' hs.2.2.2⟩
      -- `%2F` is an escape of a byte below `0x80`, which a host refuses
      obtain ⟨rfl, rfl⟩ := eq_of_decode_eq_slash x (unhex_lt ha) y (unhex_lt hb) hslash.symm
      have hab : [a, b] = ['2', '5'] := by
        by_contra hne
        exact hcond ⟨rfl, by decide, hne⟩
      simp only [List.cons.injEq, and_true] at hab
      rw [hab.2] at hb
      cases hb
  | case4 => cases h
  | case5 => cases h
  | case6 => cases h
  | case7 c rest _ _ _ ih =>
      obtain ⟨t', ht', rfl⟩ := map_eq_ok.mp h
      simp only [List.mem_cons, not_or] at hs ⊢
      exact ⟨hs.1, ih ht' hs.2⟩

theorem slash_notMem_parseAuthority {authority host : List Char} {user : Option (List Char)}
    (h : parseAuthority authority = .ok (user, host)) (ha : '/' ∉ authority) : '/' ∉ host := by
  unfold parseAuthority at h
  split at h
  · obtain ⟨h', hh, heq⟩ := map_eq_ok.mp h
    cases heq
    exact slash_notMem_unescape_host hh ha
  · obtain ⟨h', hh, heq⟩ := map_eq_ok.mp h
    cases heq
    -- the host is read after the last `@`, a part of the authority
    refine slash_notMem_unescape_host hh fun hm => ha ?_
    exact List.mem_reverse.mp ((List.takeWhile_sublist _).subset (List.mem_reverse.mp hm))

theorem slash_notMem_host_parseRest {url u : URL} {rest : List Char} (h : parseRest url rest = .ok u)
    (hurl : '/' ∉ url.Host) : '/' ∉ u.Host := by
  unfold parseRest at h
  -- the colon check only fails, so three branches return
  split_ifs at h
  · cases h
    exact hurl
  · split at h
    · cases h
    · rename_i user host hauth
      obtain ⟨path, -, rfl⟩ := map_eq_ok.mp h
      exact slash_notMem_parseAuthority hauth (notMem_splitAt_fst _ _ _)
  · obtain ⟨path, -, rfl⟩ := map_eq_ok.mp h
    exact hurl

theorem slash_notMem_host_parseNoFrag {s : List Char} {u : URL} (h : parseNoFrag s = .ok u) :
    '/' ∉ u.Host := by
  unfold parseNoFrag at h
  split_ifs at h
  · cases h
    exact List.not_mem_nil
  · split at h
    · cases h
    · split at h
      exact slash_notMem_host_parseRest h List.not_mem_nil

/-- **No slash in a host.**  The host that `Parse` returns holds no `/`:
the authority ends at the first `/`, and unescaping a host cannot make one. -/
theorem slash_notMem_host_parse {s : List Char} {u : URL} (h : parse s = .ok u) : '/' ∉ u.Host := by
  unfold parse at h
  generalize splitAt s '#' true = sp at h
  cases hnf : parseNoFrag sp.1 with
  | error e => simp [hnf] at h
  | ok url =>
      have hurl := slash_notMem_host_parseNoFrag hnf
      simp only [hnf] at h
      -- the fragment changes no host
      split_ifs at h
      · cases h
        exact hurl
      · split at h
        · cases h
        · cases h
          exact hurl

end GoURL
