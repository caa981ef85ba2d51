import Decenarch.Proofs
import Decenarch.Bloom
import Decenarch.Lib.AListFold
import Decenarch.Lib.Transition
import Decenarch.Lib.GoBase64

/-!
# Consensus on unstructured data (`protocol/consensus_unstructured.go`)

For a resource other than the page, the conodes agree on the hash of the
bytes they fetch.  Each conode signs the base64 of its hash; the root
announces its signed hash, every conode adds its own signature and the valid
signatures it receives, and the root selects the hash with the most
signatures (`getMostSignedHashUnstructured`).  In the phase
`RequestMissingData` the root asks for the plaintext of that hash, keeps it
as `MsgToSign`, and announces `End`.  The root sends `true` on `Finished`
at the end of its handler of the `Consensus` replies.

`MasterHash` maps a hash to a `map[kyber.Point][]byte`.  Its keys are
interface values that hold pointers, and Go compares them by address, so a
signature map is keyed here by the address of each point object, and an
entry holds the point and the signature.  onet encodes a point by value and
decodes it into a new object, so decoding allocates a fresh address for
every point, from the conode's `heap` counter.

The handlers call one another synchronously (`HandleReply` of `Consensus`
calls `HandleAnnounce` of `RequestMissingData`, which may call
`HandleReply` of `RequestMissingData`, which calls `HandleAnnounce` of
`End`); each phase has its own function below, and each handler returns the
new state and what it sends.  `Url`, `ContentType` and `Errs` are not
modelled: no decision of the protocol reads them.  The fetched content is a
field of the conode (`none` when the fetch or the read fails), and
`base64.StdEncoding.EncodeToString` is the parameter `b64`.  The order in
which a `range` visits the keys of `MasterHash` is the parameter `order`:
the runtime picks it, and the results hold for every order that lists each
key once (`MapOrder`).
-/

namespace Decenarch

/-- `SavePhase`. -/
inductive SavePhase where
  | NilPhase
  | Consensus
  | RequestMissingData
  | End
  deriving DecidableEq, Repr

/-- A `map[kyber.Point][]byte`, keyed by the address of each point object;
an entry holds the point and the signature. -/
abbrev SigMap (G : Type) := AList fun _ : ℕ => G × Bytes

/-- A `map[string]map[kyber.Point][]byte`, such as `MasterHash`. -/
abbrev HashMap (G : Type) := StrMap (SigMap G)

/-- The encoding of a `HashMap` in a message: the points by value. -/
abbrev WireHashMap (G : Type) := List (String × List (G × Bytes))

/-- `SaveAnnounceUnstructured`, as it is sent. -/
structure SaveAnnounceUnstructured (G : Type) where
  Phase : SavePhase
  MasterHash : WireHashMap G

/-- `SaveReplyUnstructured`, as it is sent. -/
structure SaveReplyUnstructured (G : Type) where
  Phase : SavePhase
  MasterHash : WireHashMap G
  RequestedData : StrMap Bytes

/-- What a handler sends. -/
inductive UnstructuredOutput (G : Type) where
  /-- `SendToChildren(msg)`. -/
  | toChildren (msg : SaveAnnounceUnstructured G)
  /-- `SendToParent(resp)`. -/
  | toParent (resp : SaveReplyUnstructured G)
  /-- `p.Finished <- true`, with the `MsgToSign` that the service then
  reads. -/
  | finished (msgToSign : Bytes)

/-- What a conode is: its key pair, the address of the object of its public
key, its place in the tree, and the bytes it fetches. -/
structure UnstructNode (F G : Type) where
  Public : G
  Private : F
  PublicAddr : ℕ
  IsRoot : Bool
  IsLeaf : Bool
  page : Option Bytes

/-- The fields of `ConsensusUnstructuredState` that the handlers read and
write, and the next free address of the conode's heap. -/
structure ConsensusUnstructuredState (G : Type) where
  Phase : SavePhase
  Threshold : ℕ
  MasterHash : HashMap G
  PlainData : StrMap Bytes
  MsgToSign : Bytes
  heap : ℕ

variable {F G Proof : Type}

/-! ## Messages -/

/-- The encoding of a map: every signature map by its points and
signatures. -/
def encodeHashMap (m : HashMap G) : WireHashMap G :=
  m.entries.map fun e => (e.1, e.2.entries.map Sigma.snd)

/-- Decoding a signature map allocates a fresh point object for every
entry, at `next`, `next + 1`, ...; it returns the map and the next free
address. -/
def decodeSigMap : ℕ → List (G × Bytes) → SigMap G × ℕ
  | next, [] => (∅, next)
  | next, e :: es =>
      let r := decodeSigMap (next + 1) es
      (r.1.insert next e, r.2)

/-- Decoding a `HashMap`, one signature map after the other. -/
def decodeHashMap : ℕ → WireHashMap G → HashMap G × ℕ
  | next, [] => (∅, next)
  | next, (h, sigs) :: rest =>
      let s := decodeSigMap next sigs
      let r := decodeHashMap s.2 rest
      (r.1.insert h s.1, r.2)

/-- Decoding the `MasterHash` of every reply, one after the other. -/
def decodeAll : ℕ → List (WireHashMap G) → List (HashMap G) × ℕ
  | next, [] => ([], next)
  | next, w :: ws =>
      let d := decodeHashMap next w
      let r := decodeAll d.2 ws
      (d.1 :: r.1, r.2)

/-- Decoding a signature map returns the next free address. -/
theorem decodeSigMap_snd : ∀ (next : ℕ) (es : List (G × Bytes)), (decodeSigMap next es).2 = next + es.length
  | _, [] => rfl
  | next, _ :: es => by
      rw [decodeSigMap, decodeSigMap_snd (next + 1) es, List.length_cons]
      omega

/-- Decoding a signature map allocates its key objects from `next` on, and
keeps the entries in their order. -/
theorem decodeSigMap_spec : ∀ (next : ℕ) (es : List (G × Bytes)),
    (∀ a ∈ (decodeSigMap next es).1, next ≤ a) ∧ (decodeSigMap next es).1.entries.map Sigma.snd = es
  | _, [] => ⟨fun _ ha => absurd ha (AList.notMem_empty _), rfl⟩
  | next, e :: es => by
      obtain ⟨hge, hvals⟩ := decodeSigMap_spec (next + 1) es
      have hfresh : next ∉ (decodeSigMap (next + 1) es).1 := fun hmem => by
        have := hge next hmem
        omega
      refine ⟨fun a ha => ?_, ?_⟩
      · rcases (AList.mem_insert _).mp ha with rfl | ha
        · exact le_refl a
        · exact (Nat.le_succ next).trans (hge a ha)
      · simp only [decodeSigMap]
        rw [AList.entries_insert_of_notMem hfresh, List.map_cons, hvals]

/-! ## Maps of signatures -/

/-- `hashmap[img]`: the signature map of `img`, empty (nil) when there is
none. -/
def sigsOf (m : HashMap G) (img : String) : SigMap G :=
  (m.lookup img).getD ∅

/-- `p.MasterHash[img][srv] = sig`, creating the signature map of `img`
when it is missing. -/
def setSig (m : HashMap G) (img : String) (srv : ℕ) (e : G × Bytes) : HashMap G :=
  m.insert img ((sigsOf m img).insert srv e)

/-- `len(hashmap[h])`. -/
def sigCount (m : HashMap G) (h : String) : ℕ :=
  (sigsOf m h).entries.length

/-- One turn of the loop of `getMostSignedHashUnstructured`. -/
def mostSignedStep (T : ℕ) (m : HashMap G) (maxImgH imgH : String) : String :=
  let maxImgH := if maxImgH = "" then imgH else maxImgH
  if T ≤ sigCount m imgH ∧ sigCount m maxImgH ≤ sigCount m imgH then imgH else maxImgH

/-- The loop of `getMostSignedHashUnstructured` over the hashes in the
iteration order `order`. -/
def mostSignedLoop (T : ℕ) (m : HashMap G) (order : List String) : String :=
  order.foldl (mostSignedStep T m) ""

/-- `getMostSignedHashUnstructured`: the map of the hash that the loop
selects, or an error when it has fewer than `T` signatures.  The root's map
is never nil here, so the nil branch is left out. -/
def getMostSignedHash (T : ℕ) (m : HashMap G) (order : List String) : HashMap G × Option String :=
  let maxImgH := mostSignedLoop T m order
  if sigCount m maxImgH < T then (∅, some "No sufficient consensus for data")
  else ((∅ : HashMap G).insert maxImgH (sigsOf m maxImgH), none)

@[simp] theorem sigsOf_empty (img : String) : sigsOf (∅ : HashMap G) img = ∅ := rfl

@[simp] theorem sigsOf_insert_self (m : HashMap G) (img : String) (v : SigMap G) :
    sigsOf (m.insert img v) img = v := by
  simp [sigsOf]

theorem sigsOf_insert_of_ne {img img' : String} (h : img' ≠ img) (m : HashMap G) (v : SigMap G) :
    sigsOf (m.insert img v) img' = sigsOf m img' := by
  simp [sigsOf, AList.lookup_insert_ne h]

@[simp] theorem sigsOf_singleton_self (img : String) (v : SigMap G) :
    sigsOf (AList.singleton img v) img = v := by
  rw [← AList.insert_empty, sigsOf_insert_self]

theorem sigsOf_singleton_of_ne {img img' : String} (h : img' ≠ img) (v : SigMap G) :
    sigsOf (AList.singleton img v) img' = ∅ := by
  rw [← AList.insert_empty, sigsOf_insert_of_ne h, sigsOf_empty]

@[simp] theorem sigsOf_setSig_self (m : HashMap G) (img : String) (srv : ℕ) (e : G × Bytes) :
    sigsOf (setSig m img srv e) img = (sigsOf m img).insert srv e :=
  sigsOf_insert_self _ _ _

theorem sigsOf_setSig_of_ne {img img' : String} (h : img' ≠ img) (m : HashMap G) (srv : ℕ)
    (e : G × Bytes) : sigsOf (setSig m img srv e) img' = sigsOf m img' :=
  sigsOf_insert_of_ne h _ _

theorem sigCount_setSig_le (m : HashMap G) (img img' : String) (srv : ℕ) (e : G × Bytes) :
    sigCount (setSig m img srv e) img' ≤ sigCount m img' + 1 := by
  by_cases h : img' = img
  · subst h
    simpa [sigCount] using AList.length_entries_insert_le _ srv e
  · simp [sigCount, sigsOf_setSig_of_ne h]

/-- Writing a signature under a fresh key object adds one to the count. -/
theorem sigCount_setSig_of_notMem {m : HashMap G} {img : String} {srv : ℕ} (h : srv ∉ sigsOf m img)
    (e : G × Bytes) : sigCount (setSig m img srv e) img = sigCount m img + 1 := by
  rw [sigCount, sigCount, sigsOf_setSig_self, AList.length_entries_insert_of_notMem h]

theorem mem_sigsOf_setSig {m : HashMap G} {img img' : String} {srv a : ℕ} {e : G × Bytes}
    (h : a ∈ sigsOf (setSig m img srv e) img') : a = srv ∨ a ∈ sigsOf m img' := by
  by_cases himg : img' = img
  · subst himg
    simpa [AList.mem_insert] using h
  · exact Or.inr (by rwa [sigsOf_setSig_of_ne himg] at h)

theorem mem_entries_sigsOf_setSig_self {m : HashMap G} {img : String} {srv : ℕ} {e : G × Bytes}
    {x : (_ : ℕ) × (G × Bytes)} (h : x ∈ (sigsOf (setSig m img srv e) img).entries) :
    x = ⟨srv, e⟩ ∨ x ∈ (sigsOf m img).entries := by
  rw [sigsOf_setSig_self, AList.entries_insert, List.mem_cons] at h
  exact h.imp id fun hx => (List.kerase_sublist _ _).subset hx

/-- A turn on the sentinel `maxImgH = ""` selects the hash of the turn. -/
@[simp] theorem mostSignedStep_empty (T : ℕ) (m : HashMap G) (imgH : String) :
    mostSignedStep T m "" imgH = imgH := by
  simp [mostSignedStep]

theorem mostSignedStep_of_ne_empty {T : ℕ} {m : HashMap G} {maxImgH : String} (hne : maxImgH ≠ "")
    (imgH : String) :
    mostSignedStep T m maxImgH imgH =
      if T ≤ sigCount m imgH ∧ sigCount m maxImgH ≤ sigCount m imgH then imgH else maxImgH := by
  simp [mostSignedStep, hne]

/-- A hash with at least `T` signatures and more than any other hash is the
one that the loop selects, in every iteration order that visits it. -/
theorem mostSignedLoop_of_dominant {T : ℕ} {m : HashMap G} {h : String} (hne : h ≠ "")
    (hT : T ≤ sigCount m h) (hdom : ∀ h', h' ≠ h → sigCount m h' < sigCount m h)
    {order : List String} (hmem : h ∈ order) : mostSignedLoop T m order = h := by
  have hstep : ∀ acc o, (o = h ∨ acc = h) → mostSignedStep T m acc o = h := by
    intro acc o hor
    by_cases hacc : acc = ""
    · -- the first turn takes `o`, which is `h` since `h` is not the sentinel
      rw [hacc, mostSignedStep_empty]
      exact hor.resolve_right fun h' => hne (h'.symm.trans hacc)
    rw [mostSignedStep_of_ne_empty hacc]
    by_cases hoh : o = h
    · -- the turn on `h`: no accumulator has more signatures
      subst hoh
      have hle : sigCount m acc ≤ sigCount m o := by
        by_cases heq : acc = o
        · rw [heq]
        · exact (hdom _ heq).le
      rw [if_pos ⟨hT, hle⟩]
    · -- the accumulator holds `h` already, and `o` has fewer signatures
      obtain rfl : acc = h := hor.resolve_left hoh
      have hlt := hdom o hoh
      rw [if_neg (by omega)]
  -- the accumulator is `h` from the turn on `h` on
  have hloop : ∀ (l : List String) acc, (h ∈ l ∨ acc = h) → l.foldl (mostSignedStep T m) acc = h := by
    intro l
    induction l with
    | nil =>
      rintro acc (hl | hacc)
      · exact absurd hl List.not_mem_nil
      · exact hacc
    | cons o l ih =>
      intro acc hacc
      by_cases hl : h ∈ l
      · exact ih _ (Or.inl hl)
      · refine ih _ (Or.inr (hstep acc o ?_))
        rcases hacc with hacc | hacc
        · rcases List.mem_cons.mp hacc with hoh | hmem
          · exact Or.inl hoh.symm
          · exact absurd hmem hl
        · exact Or.inr hacc
  exact hloop order "" (Or.inl hmem)

theorem getMostSignedHash_of_dominant {T : ℕ} {m : HashMap G} {h : String} (hne : h ≠ "")
    (hT : T ≤ sigCount m h) (hdom : ∀ h', h' ≠ h → sigCount m h' < sigCount m h)
    {order : List String} (hmem : h ∈ order) :
    getMostSignedHash T m order = (AList.singleton h (sigsOf m h), none) := by
  simp only [getMostSignedHash, mostSignedLoop_of_dominant hne hT hdom hmem, if_neg (Nat.not_lt.mpr hT),
    AList.insert_empty]

/-- A hash with a signature is a key of the map. -/
theorem mem_keys_of_sigCount_pos {m : HashMap G} {h : String} (hpos : 0 < sigCount m h) : h ∈ m.keys := by
  rw [← AList.mem_keys]
  by_contra hmem
  simp [sigCount, sigsOf, AList.lookup_eq_none.mpr hmem] at hpos

theorem sigCount_of_notMem_keys {m : HashMap G} {h : String} (hm : h ∉ m.keys) : sigCount m h = 0 :=
  Nat.eq_zero_of_not_pos fun hpos => hm (mem_keys_of_sigCount_pos hpos)

/-! ## Every iteration order of `getMostSignedHashUnstructured` -/

/-- The invariant of the loop of `getMostSignedHashUnstructured` after the
hashes `seen`: `maxImgH` is the sentinel `""` before the first turn and one of
`seen` after it, and once a hash of `seen` has `T` signatures, `maxImgH` has
`T` and the most of those hashes. -/
structure MostSignedInv (T : ℕ) (m : HashMap G) (seen : List String) (maxImgH : String) : Prop where
  sentinel : seen = [] → maxImgH = ""
  mem : seen ≠ [] → maxImgH ∈ seen
  max : ∀ x ∈ seen, T ≤ sigCount m x → T ≤ sigCount m maxImgH ∧ sigCount m x ≤ sigCount m maxImgH

theorem MostSignedInv.nil (T : ℕ) (m : HashMap G) : MostSignedInv T m [] "" :=
  ⟨fun _ => rfl, fun h => absurd rfl h, by simp⟩

theorem MostSignedInv.singleton (T : ℕ) (m : HashMap G) (h : String) : MostSignedInv T m [h] h :=
  ⟨fun hnil => absurd hnil (List.cons_ne_nil _ _), fun _ => List.mem_singleton_self h, by simp⟩

/-- One turn of the loop keeps the invariant after hashes other than the
sentinel. -/
theorem MostSignedInv.step {T : ℕ} {m : HashMap G} {seen : List String} {acc : String}
    (hinv : MostSignedInv T m seen acc) (hseen : "" ∉ seen) (o : String) :
    MostSignedInv T m (seen ++ [o]) (mostSignedStep T m acc o) := by
  by_cases hnil : seen = []
  · -- the first turn replaces the sentinel
    subst hnil
    rw [hinv.sentinel rfl, mostSignedStep_empty]
    exact MostSignedInv.singleton T m o
  have hacc : acc ∈ seen := hinv.mem hnil
  have hne : acc ≠ "" := fun h => hseen (h ▸ hacc)
  have happ : seen ++ [o] ≠ [] := by simp
  rw [mostSignedStep_of_ne_empty hne]
  split_ifs with hsel
  · -- `o` passes the threshold and has at least the signatures of `acc`
    refine ⟨fun h => absurd h happ, fun _ => by simp, fun x hx hTx => ?_⟩
    rcases List.mem_append.mp hx with hx | hx
    · have := hinv.max x hx hTx
      omega
    · rw [List.mem_singleton.mp hx] at hTx ⊢
      exact ⟨hTx, le_refl _⟩
  · -- `acc` stays; it has more signatures than `o` if `o` passes the threshold
    refine ⟨fun h => absurd h happ, fun _ => List.mem_append_left _ hacc, fun x hx hTx => ?_⟩
    rcases List.mem_append.mp hx with hx | hx
    · exact hinv.max x hx hTx
    · rw [List.mem_singleton.mp hx] at hTx ⊢
      omega

/-- The loop over hashes other than the sentinel keeps the invariant. -/
theorem MostSignedInv.foldl {T : ℕ} {m : HashMap G} {l : List String} (hl : "" ∉ l) :
    ∀ {seen : List String} {acc : String}, MostSignedInv T m seen acc → "" ∉ seen →
      MostSignedInv T m (seen ++ l) (l.foldl (mostSignedStep T m) acc) := by
  induction l with
  | nil =>
    intro seen acc hinv _
    simpa using hinv
  | cons o l ih =>
    intro seen acc hinv hseen
    have ho : o ≠ "" := fun h => hl (h ▸ List.mem_cons_self)
    have hseen' : "" ∉ seen ++ [o] := by simp [hseen, Ne.symm ho]
    rw [List.foldl_cons, ← List.singleton_append, ← List.append_assoc]
    exact ih (fun h => hl (List.mem_cons_of_mem o h)) (hinv.step hseen o) hseen'

theorem mostSignedLoop_inv {T : ℕ} {m : HashMap G} {order : List String} (h : "" ∉ order) :
    MostSignedInv T m order (mostSignedLoop T m order) := by
  unfold mostSignedLoop
  simpa using MostSignedInv.foldl h (MostSignedInv.nil T m) List.not_mem_nil

theorem getMostSignedHash_of_lt {T : ℕ} {m : HashMap G} {order : List String}
    (h : sigCount m (mostSignedLoop T m order) < T) :
    getMostSignedHash T m order = (∅, some "No sufficient consensus for data") := by
  simp only [getMostSignedHash, if_pos h]

theorem getMostSignedHash_of_le {T : ℕ} {m : HashMap G} {order : List String}
    (h : T ≤ sigCount m (mostSignedLoop T m order)) :
    getMostSignedHash T m order =
      (AList.singleton (mostSignedLoop T m order) (sigsOf m (mostSignedLoop T m order)), none) := by
  simp only [getMostSignedHash, if_neg (Nat.not_lt.mpr h), AList.insert_empty]

/-- **`getMostSignedHashUnstructured` on a map without the key `""`.**  In
every iteration order of the map and for `1 ≤ T`, the call fails exactly when
every hash has fewer than `T` signatures, and otherwise returns the map of a
hash with the most signatures. -/
theorem getMostSignedHash_of_perm_keys {T : ℕ} (hT : 1 ≤ T) {m : HashMap G} (hm : "" ∉ m.keys)
    {order : List String} (horder : order.Perm m.keys) :
    ((getMostSignedHash T m order).2 = some "No sufficient consensus for data" ↔
        ∀ h ∈ m.keys, sigCount m h < T) ∧
      ((∃ h ∈ m.keys, T ≤ sigCount m h) → ∃ h ∈ m.keys,
        getMostSignedHash T m order = (AList.singleton h (sigsOf m h), none) ∧
          ∀ h' ∈ m.keys, sigCount m h' ≤ sigCount m h) := by
  have hinv : MostSignedInv T m order (mostSignedLoop T m order) :=
    mostSignedLoop_inv fun h => hm (horder.subset h)
  -- a hash with `T` signatures makes the selected one pass the threshold
  have hpass : ∀ h ∈ m.keys, T ≤ sigCount m h → T ≤ sigCount m (mostSignedLoop T m order) :=
    fun h hh hTh => (hinv.max h (horder.mem_iff.mpr hh) hTh).1
  -- the selected hash is a key, or the sentinel of the empty map
  have hlow : (∀ h ∈ m.keys, sigCount m h < T) → sigCount m (mostSignedLoop T m order) < T := by
    intro hall
    by_cases hnil : order = []
    · rw [hinv.sentinel hnil, sigCount_of_notMem_keys hm]
      omega
    · exact hall _ (horder.subset (hinv.mem hnil))
  refine ⟨⟨fun herr h hh => ?_, fun hall => by rw [getMostSignedHash_of_lt (hlow hall)]⟩, ?_⟩
  · by_contra hTh
    have hle := hpass h hh (Nat.not_lt.mp hTh)
    rw [getMostSignedHash_of_le hle] at herr
    exact absurd herr (by simp)
  · rintro ⟨h, hh, hTh⟩
    have hsel : mostSignedLoop T m order ∈ m.keys :=
      horder.subset (hinv.mem (List.ne_nil_of_mem (horder.mem_iff.mpr hh)))
    refine ⟨_, hsel, getMostSignedHash_of_le (hpass h hh hTh), fun h' hh' => ?_⟩
    by_cases hTh' : T ≤ sigCount m h'
    · exact (hinv.max h' (horder.mem_iff.mpr hh') hTh').2
    · have := hpass h hh hTh
      omega

/-- The hash `b` signed by the servers `0` and `1`, and the hash `a` by `0`
alone. -/
def sampleHashMap : HashMap ℕ :=
  ((∅ : HashMap ℕ).insert "a" (AList.singleton 0 (1, []) : SigMap ℕ)).insert "b"
    ((AList.singleton 0 (1, []) : SigMap ℕ).insert 1 (2, []))

/-- With the threshold `2`, in the order `a, b`: the call succeeds, with `b`. -/
theorem getMostSignedHash_of_perm_keys_sample :
    "" ∉ sampleHashMap.keys ∧ ["a", "b"].Perm sampleHashMap.keys ∧
      ((getMostSignedHash 2 sampleHashMap ["a", "b"]).2 = some "No sufficient consensus for data" ↔
          ∀ h ∈ sampleHashMap.keys, sigCount sampleHashMap h < 2) ∧
        ((∃ h ∈ sampleHashMap.keys, 2 ≤ sigCount sampleHashMap h) → ∃ h ∈ sampleHashMap.keys,
          getMostSignedHash 2 sampleHashMap ["a", "b"] = (AList.singleton h (sigsOf sampleHashMap h), none) ∧
            ∀ h' ∈ sampleHashMap.keys, sigCount sampleHashMap h' ≤ sigCount sampleHashMap h) :=
  ⟨by decide, by decide, getMostSignedHash_of_perm_keys (by decide) (by decide) (by decide)⟩

/-- The sentinel `""` of `maxImgH` is also a hash: when the iteration visits
the key `""` first, the turn on the next hash replaces it whatever their
counts, and the call selects another hash.  With `""` the most signed hash,
the call fails or returns the map of a hash with fewer signatures. -/
theorem getMostSignedHash_passes_over_empty_hash {T : ℕ} {m : HashMap G} {k : String}
    {rest : List String} (hk : k ≠ "") (hrest : "" ∉ rest)
    (hmax : ∀ h ∈ k :: rest, sigCount m h < sigCount m "") :
    ∃ h ∈ k :: rest, sigCount m h < sigCount m "" ∧
      (getMostSignedHash T m ("" :: k :: rest) = (∅, some "No sufficient consensus for data") ∨
        getMostSignedHash T m ("" :: k :: rest) = (AList.singleton h (sigsOf m h), none)) := by
  -- the turns on `""` and on `k` leave `k`
  have hloop : mostSignedLoop T m ("" :: k :: rest) = rest.foldl (mostSignedStep T m) k := by
    simp only [mostSignedLoop, List.foldl_cons, mostSignedStep_empty]
  have hinv : MostSignedInv T m (k :: rest) (mostSignedLoop T m ("" :: k :: rest)) := by
    rw [hloop]
    exact MostSignedInv.foldl hrest (MostSignedInv.singleton T m k) (by simpa using Ne.symm hk)
  have hmem := hinv.mem (List.cons_ne_nil k rest)
  refine ⟨_, hmem, hmax _ hmem, ?_⟩
  by_cases hlt : sigCount m (mostSignedLoop T m ("" :: k :: rest)) < T
  · exact Or.inl (getMostSignedHash_of_lt hlt)
  · exact Or.inr (getMostSignedHash_of_le (Nat.not_lt.mp hlt))

/-- A map in which the hash `""` has the signatures of the conodes 0 and 1,
and the hash `"a"` that of the conode 2. -/
def hashmapWithEmptyKey : HashMap (ZMod 7) :=
  setSig (setSig (setSig ∅ "" 0 (1, [])) "" 1 (2, [])) "a" 2 (3, [])

theorem getMostSignedHash_passes_over_empty_hash_zmod7 :
    ["", "a"].Perm hashmapWithEmptyKey.keys ∧ 1 ≤ sigCount hashmapWithEmptyKey "" ∧
      ∃ h ∈ ["a"], sigCount hashmapWithEmptyKey h < sigCount hashmapWithEmptyKey "" ∧
        (getMostSignedHash 1 hashmapWithEmptyKey ["", "a"] = (∅, some "No sufficient consensus for data") ∨
          getMostSignedHash 1 hashmapWithEmptyKey ["", "a"] =
            (AList.singleton h (sigsOf hashmapWithEmptyKey h), none)) :=
  ⟨by decide, by decide, getMostSignedHash_passes_over_empty_hash (by decide) List.not_mem_nil (by decide)⟩

variable (S : Suite F G Proof) (b64 : Bytes → String) (order : HashMap G → List String)

/-- `order m` lists the keys of `m` once each, in the order in which a
`range` over `m` visits them.  Go leaves that order to the runtime, so the
handlers take it as a parameter, and the results hold for every such
order. -/
def MapOrder (order : HashMap G → List String) : Prop :=
  ∀ m, (order m).Perm m.keys

/-- A map with one key is visited in one order. -/
theorem MapOrder.singleton {order : HashMap G → List String} (horder : MapOrder order) (h : String)
    (sigs : SigMap G) : order (AList.singleton h sigs) = [h] := by
  have hperm := horder (AList.singleton h sigs)
  rwa [AList.keys_singleton, List.perm_singleton] at hperm

/-! ## The functions of the protocol -/

/-- The key of the bytes `rawData` in `MasterHash` and `PlainData`:
`base64.StdEncoding.EncodeToString(Hash().Sum(rawData))`. -/
def hashKey (rawData : Bytes) : String :=
  b64 (S.HashSum rawData)

/-- `schnorr.Sign(suite, x, []byte(img))`. -/
def signHash (x : F) (img : String) : Bytes :=
  S.SchnorrSign x (stringBytes img)

/-- `GetLocalDataUnstructured`: the fetched bytes' hash, signed under the
conode's key object, and the bytes stored under their hash. -/
def getLocalData (n : UnstructNode F G) (s : ConsensusUnstructuredState G) :
    Option (HashMap G) × ConsensusUnstructuredState G :=
  match n.page with
  | none => (none, s)
  | some rawData =>
    let locHashKey := hashKey S b64 rawData
    let sig := signHash S n.Private locHashKey
    (some ((∅ : HashMap G).insert locHashKey ((∅ : SigMap G).insert n.PublicAddr (n.Public, sig))),
      { s with PlainData := s.PlainData.insert locHashKey rawData })

/-- The loop over one signature map of `img`: every signature that
verifies under its own point is written, under the key object `self` when
it is given and under the entry's own key object otherwise. -/
def addVerified (self : Option (ℕ × G)) (img : String) (sigs : List ((_ : ℕ) × (G × Bytes)))
    (m : HashMap G) : HashMap G :=
  sigs.foldl (fun m s =>
    if (S.SchnorrVerify s.2.1 (stringBytes img) s.2.2).isNone then
      let k := self.getD (s.1, s.2.1)
      setSig m img k.1 (k.2, s.2.2)
    else m) m

/-- The loops over every signature map of `hm`. -/
def addAllVerified (self : Option (ℕ × G)) (hm : HashMap G) (m : HashMap G) : HashMap G :=
  hm.entries.foldl (fun m e => addVerified S self e.1 e.2.entries m) m

/-- `AggregateUnstructDataUnstructured`: the conode's own valid signatures
are written under its own key object `p.Public()`, and the valid signatures
of the replies under the key objects they arrived with. -/
def aggregateUnstructData (n : UnstructNode F G) (locHash : HashMap G) (reply : List (HashMap G))
    (mh : HashMap G) : HashMap G :=
  if mh.entries.isEmpty then mh
  else
    let mh₁ := addAllVerified S (some (n.PublicAddr, n.Public)) locHash mh
    reply.foldl (fun mh r => addAllVerified S none r mh) mh₁

/-- The count `verifiedSig` of `getRequestedMissingHashUnstructured`: it
is incremented for every signature, whether `schnorr.Verify` accepts it or
not. -/
def verifiedSigCount (img : String) (sigs : SigMap G) : ℕ :=
  sigs.entries.foldl (fun verifiedSig s =>
    let _vErr := S.SchnorrVerify s.2.1 (stringBytes img) s.2.2
    verifiedSig + 1) 0

/-- `getRequestedMissingHashUnstructured`, over the hashes in the iteration
order `order`: the first with at least `T` signatures, counted twice. -/
def getRequestedMissingHash (T : ℕ) (m : HashMap G) : List String → String
  | [] => ""
  | dataH :: rest =>
      match m.lookup dataH with
      | some sigs =>
          if T ≤ sigs.entries.length ∧ T ≤ verifiedSigCount S dataH sigs then dataH
          else getRequestedMissingHash T m rest
      | none => getRequestedMissingHash T m rest

/-! ## The handlers, phase by phase -/

/-- `HandleAnnounceUnstructured` of `End`: `SendToChildren(msg)`. -/
def announceEnd (s : ConsensusUnstructuredState G) :
    ConsensusUnstructuredState G × List (UnstructuredOutput G) :=
  ({ s with Phase := .End }, [.toChildren ⟨.End, []⟩])

/-- The loop of `HandleReplyUnstructured` of `RequestMissingData` over the
`RequestedData` of the replies: a plaintext is kept when it hashes to the
requested hash. -/
def keepRequestedData (requestedHash : String) (reply : List (StrMap Bytes)) (pd : StrMap Bytes) :
    StrMap Bytes :=
  reply.foldl (fun pd r =>
    match r.lookup requestedHash with
    | some plain => if b64 (S.HashSum plain) = requestedHash then pd.insert requestedHash plain else pd
    | none => pd) pd

/-- `HandleReplyUnstructured` of `RequestMissingData`, with the
`RequestedData` of the replies: a plaintext is kept when it hashes to the
requested hash; the root then keeps it as `MsgToSign` and announces `End`,
and another conode sends it to its parent. -/
def replyRequestMissingData (n : UnstructNode F G) (s : ConsensusUnstructuredState G)
    (reply : List (StrMap Bytes)) : ConsensusUnstructuredState G × List (UnstructuredOutput G) :=
  let requestedHash :=
    if s.MasterHash.entries.isEmpty then "" else getRequestedMissingHash S s.Threshold s.MasterHash (order s.MasterHash)
  let plainData :=
    if s.MasterHash.entries.isEmpty then s.PlainData else keepRequestedData S b64 requestedHash reply s.PlainData
  let s := { s with PlainData := plainData }
  if n.IsRoot then
    announceEnd { s with MsgToSign := (s.PlainData.lookup requestedHash).getD [] }
  else
    (s, [.toParent ⟨s.Phase, encodeHashMap s.MasterHash,
      (∅ : StrMap Bytes).insert requestedHash ((s.PlainData.lookup requestedHash).getD [])⟩])

/-- `HandleAnnounceUnstructured` of `RequestMissingData`: a conode without
the plaintext of the requested hash asks its children, unless it is a leaf;
otherwise it handles its own reply. -/
def announceRequestMissingData (n : UnstructNode F G) (s : ConsensusUnstructuredState G)
    (msgMasterHash : HashMap G) : ConsensusUnstructuredState G × List (UnstructuredOutput G) :=
  let s := { s with Phase := .RequestMissingData, MasterHash := msgMasterHash }
  let requestedHash := getRequestedMissingHash S s.Threshold s.MasterHash (order s.MasterHash)
  if (s.PlainData.lookup requestedHash).isNone ∧ n.IsLeaf = false then
    (s, [.toChildren ⟨.RequestMissingData, encodeHashMap msgMasterHash⟩])
  else
    replyRequestMissingData S b64 order n s [∅]

/-- `HandleReplyUnstructured` of `Consensus`, with the decoded `MasterHash`
of every reply: the conode adds its signature and the valid ones it
received; the root selects the most signed hash, runs the phase
`RequestMissingData` and then sends `true` on `Finished`, and another
conode sends its map to its parent. -/
def replyConsensus (n : UnstructNode F G) (s : ConsensusUnstructuredState G) (reply : List (HashMap G)) :
    ConsensusUnstructuredState G × List (UnstructuredOutput G) :=
  let loc := getLocalData S b64 n s
  let s := { loc.2 with MasterHash := aggregateUnstructData S n (loc.1.getD ∅) reply loc.2.MasterHash }
  if n.IsRoot then
    let msMap := (getMostSignedHash s.Threshold s.MasterHash (order s.MasterHash)).1
    let r := announceRequestMissingData S b64 order n { s with MasterHash := msMap } msMap
    (r.1, r.2 ++ [.finished r.1.MsgToSign])
  else
    (s, [.toParent ⟨s.Phase, encodeHashMap s.MasterHash, ∅⟩])

/-- `HandleAnnounceUnstructured` of `Consensus`: an inner node forwards the
announcement, and a leaf handles its own reply, whose `MasterHash` is the
announced one. -/
def announceConsensus (n : UnstructNode F G) (s : ConsensusUnstructuredState G)
    (msgMasterHash : HashMap G) : ConsensusUnstructuredState G × List (UnstructuredOutput G) :=
  let s := { s with Phase := .Consensus, MasterHash := msgMasterHash }
  if n.IsLeaf = false then (s, [.toChildren ⟨.Consensus, encodeHashMap msgMasterHash⟩])
  else replyConsensus S b64 order n s [msgMasterHash]

/-- `Start`, at the root: it signs its hash and announces it. -/
def startUnstructured (n : UnstructNode F G) (s : ConsensusUnstructuredState G) :
    ConsensusUnstructuredState G × List (UnstructuredOutput G) :=
  let s := { s with Phase := .Consensus }
  match getLocalData S b64 n s with
  | (none, s) => (s, [])
  | (some hash, s) => announceConsensus S b64 order n { s with MasterHash := hash } hash

/-- `HandleAnnounceUnstructured` of a received announcement, which onet
decodes into fresh point objects. -/
def handleAnnounce (n : UnstructNode F G) (s : ConsensusUnstructuredState G)
    (msg : SaveAnnounceUnstructured G) : ConsensusUnstructuredState G × List (UnstructuredOutput G) :=
  let d := decodeHashMap s.heap msg.MasterHash
  let s := { s with heap := d.2 }
  match msg.Phase with
  | .NilPhase => ({ s with Phase := .NilPhase }, [])
  | .Consensus => announceConsensus S b64 order n s d.1
  | .RequestMissingData => announceRequestMissingData S b64 order n s d.1
  | .End => announceEnd s

/-- `HandleReplyUnstructured` of the replies of the children, which onet
decodes into fresh point objects, in the phase the conode is in. -/
def handleReply (n : UnstructNode F G) (s : ConsensusUnstructuredState G)
    (reply : List (SaveReplyUnstructured G)) : ConsensusUnstructuredState G × List (UnstructuredOutput G) :=
  let d := decodeAll s.heap (reply.map SaveReplyUnstructured.MasterHash)
  let s := { s with heap := d.2 }
  match s.Phase with
  | .NilPhase => (s, [])
  | .Consensus => replyConsensus S b64 order n s d.1
  | .RequestMissingData => replyRequestMissingData S b64 order n s (reply.map SaveReplyUnstructured.RequestedData)
  | .End => (s, if n.IsRoot then [] else [.toParent ⟨.End, [], ∅⟩])

/-! ## What one call computes -/

/-- The map that `GetLocalDataUnstructured` returns for the bytes `D`: the
conode's signature on their hash, under its key object. -/
def ownHash (n : UnstructNode F G) (D : Bytes) : HashMap G :=
  (∅ : HashMap G).insert (hashKey S b64 D)
    ((∅ : SigMap G).insert n.PublicAddr (n.Public, signHash S n.Private (hashKey S b64 D)))

theorem getLocalData_of_page {n : UnstructNode F G} {D : Bytes} (hpage : n.page = some D)
    (s : ConsensusUnstructuredState G) :
    getLocalData S b64 n s =
      (some (ownHash S b64 n D), { s with PlainData := s.PlainData.insert (hashKey S b64 D) D }) := by
  simp [getLocalData, hpage, ownHash]

theorem addVerified_cons (self : Option (ℕ × G)) (img : String) (x : (_ : ℕ) × (G × Bytes))
    (l : List ((_ : ℕ) × (G × Bytes))) (m : HashMap G) :
    addVerified S self img (x :: l) m = addVerified S self img l
      (if (S.SchnorrVerify x.2.1 (stringBytes img) x.2.2).isNone then
        setSig m img (self.getD (x.1, x.2.1)).1 ((self.getD (x.1, x.2.1)).2, x.2.2)
      else m) := rfl

@[simp] theorem addVerified_nil (self : Option (ℕ × G)) (img : String) (m : HashMap G) :
    addVerified S self img [] m = m := rfl

/-- The signatures of one hash leave the maps of the other hashes alone. -/
theorem sigsOf_addVerified_of_ne {img img' : String} (h : img' ≠ img) (self : Option (ℕ × G)) :
    ∀ (l : List ((_ : ℕ) × (G × Bytes))) (m : HashMap G),
      sigsOf (addVerified S self img l m) img' = sigsOf m img'
  | [], _ => rfl
  | x :: l, m => by
      rw [addVerified_cons, sigsOf_addVerified_of_ne h self l]
      split_ifs
      · exact sigsOf_setSig_of_ne h _ _ _
      · rfl

/-- Valid signatures under distinct fresh key objects each add one to the
count of their hash. -/
theorem sigCount_addVerified_of_valid {img : String} :
    ∀ {l : List ((_ : ℕ) × (G × Bytes))},
      (∀ x ∈ l, S.SchnorrVerify x.2.1 (stringBytes img) x.2.2 = none) → (l.map Sigma.fst).Nodup →
      ∀ m : HashMap G, (∀ x ∈ l, x.1 ∉ sigsOf m img) →
        sigCount (addVerified S none img l m) img = sigCount m img + l.length
  | [], _, _, _, _ => rfl
  | x :: l, hv, hnodup, m, hfresh => by
      rw [List.map_cons, List.nodup_cons] at hnodup
      have hvx : (S.SchnorrVerify x.2.1 (stringBytes img) x.2.2).isNone := by
        simp [hv x List.mem_cons_self]
      -- the later key objects are still fresh after the write of `x`
      have hfresh' : ∀ y ∈ l, y.1 ∉ sigsOf (setSig m img x.1 (x.2.1, x.2.2)) img := by
        intro y hy hmem
        rcases mem_sigsOf_setSig hmem with heq | hmem
        · exact hnodup.1 (heq ▸ List.mem_map_of_mem hy)
        · exact hfresh y (List.mem_cons_of_mem _ hy) hmem
      rw [addVerified_cons, if_pos hvx, Option.getD_none,
        sigCount_addVerified_of_valid (fun y hy => hv y (List.mem_cons_of_mem _ hy)) hnodup.2 _ hfresh',
        sigCount_setSig_of_notMem (hfresh x List.mem_cons_self), List.length_cons]
      omega

theorem aggregateUnstructData_of_ne_nil {n : UnstructNode F G} {locHash : HashMap G}
    {reply : List (HashMap G)} {mh : HashMap G} (hmh : mh.entries ≠ []) :
    aggregateUnstructData S n locHash reply mh =
      reply.foldl (fun mh r => addAllVerified S none r mh)
        (addAllVerified S (some (n.PublicAddr, n.Public)) locHash mh) := by
  simp [aggregateUnstructData, hmh]

/-- `verifiedSig` counts every signature. -/
theorem verifiedSigCount_eq_length (img : String) (sigs : SigMap G) :
    verifiedSigCount S img sigs = sigs.entries.length := by
  simp [verifiedSigCount]

/-- The map `{h: sigs}` that the root selected names `h` as the requested
hash as soon as `sigs` has `T` entries, valid or not. -/
theorem getRequestedMissingHash_singleton {T : ℕ} {h : String} {sigs : SigMap G}
    (hT : T ≤ sigs.entries.length) :
    getRequestedMissingHash S T (AList.singleton h sigs) [h] = h := by
  simp only [getRequestedMissingHash, ← AList.insert_empty, AList.lookup_insert, verifiedSigCount_eq_length,
    and_self, if_pos hT]

/-- The one hash of the map that the root selected, in the one order a map
with one key is visited in. -/
theorem MapOrder.getRequestedMissingHash_singleton {order : HashMap G → List String} (horder : MapOrder order)
    {T : ℕ} (h : String) {sigs : SigMap G} (hT : T ≤ sigs.entries.length) :
    getRequestedMissingHash S T (AList.singleton h sigs) (order (AList.singleton h sigs)) = h := by
  rw [horder.singleton]
  exact Decenarch.getRequestedMissingHash_singleton S hT

/-- `HandleAnnounceUnstructured` of `RequestMissingData`, with its
condition on the fields of the state it was called with. -/
theorem announceRequestMissingData_eq (n : UnstructNode F G) (s : ConsensusUnstructuredState G)
    (mh : HashMap G) :
    announceRequestMissingData S b64 order n s mh =
      if (s.PlainData.lookup (getRequestedMissingHash S s.Threshold mh (order mh))).isNone ∧
          n.IsLeaf = false then
        ({ s with Phase := .RequestMissingData, MasterHash := mh },
          [.toChildren ⟨.RequestMissingData, encodeHashMap mh⟩])
      else replyRequestMissingData S b64 order n { s with Phase := .RequestMissingData, MasterHash := mh } [∅] :=
  rfl

/-- The root that holds the plaintext `D'` of the selected hash keeps it as
`MsgToSign` and announces `End`. -/
theorem announceRequestMissingData_of_held (horder : MapOrder order) {n : UnstructNode F G} (hroot : n.IsRoot = true)
    {s : ConsensusUnstructuredState G} {h : String} {sigs : SigMap G} {D' : Bytes}
    (hT : s.Threshold ≤ sigs.entries.length) (hheld : s.PlainData.lookup h = some D') :
    announceRequestMissingData S b64 order n s (AList.singleton h sigs) =
      ({ s with Phase := .End, MasterHash := AList.singleton h sigs, MsgToSign := D' },
        [.toChildren ⟨.End, []⟩]) := by
  have hreq := horder.getRequestedMissingHash_singleton S h hT
  rw [announceRequestMissingData_eq, hreq, if_neg (by simp [hheld])]
  unfold replyRequestMissingData
  rw [hreq]
  simp [keepRequestedData, hheld, hroot, announceEnd]

/-- A conode that is not a leaf and lacks the plaintext of the selected hash
asks its children for it, and returns. -/
theorem announceRequestMissingData_of_missing (horder : MapOrder order) {n : UnstructNode F G} (hleaf : n.IsLeaf = false)
    {s : ConsensusUnstructuredState G} {h : String} {sigs : SigMap G}
    (hT : s.Threshold ≤ sigs.entries.length) (hmiss : s.PlainData.lookup h = none) :
    announceRequestMissingData S b64 order n s (AList.singleton h sigs) =
      ({ s with Phase := .RequestMissingData, MasterHash := AList.singleton h sigs },
        [.toChildren ⟨.RequestMissingData, encodeHashMap (AList.singleton h sigs)⟩]) := by
  have hreq := horder.getRequestedMissingHash_singleton S h hT
  rw [announceRequestMissingData_eq, hreq, if_pos (by simp [hmiss, hleaf])]

/-- `HandleReplyUnstructured` of `Consensus` at the root that fetched `D`. -/
theorem replyConsensus_root {n : UnstructNode F G} (hroot : n.IsRoot = true) {D : Bytes}
    (hpage : n.page = some D) (s : ConsensusUnstructuredState G) (reply : List (HashMap G)) :
    replyConsensus S b64 order n s reply =
      let M := aggregateUnstructData S n (ownHash S b64 n D) reply s.MasterHash
      let msMap := (getMostSignedHash s.Threshold M (order M)).1
      let r := announceRequestMissingData S b64 order n
        { s with PlainData := s.PlainData.insert (hashKey S b64 D) D, MasterHash := msMap } msMap
      (r.1, r.2 ++ [.finished r.1.MsgToSign]) := by
  simp [replyConsensus, getLocalData_of_page S b64 hpage, hroot]

/-- `HandleReplyUnstructured` of `Consensus` at a conode other than the root
that fetched `D`: it sends its parent the map it aggregated. -/
theorem replyConsensus_notRoot {n : UnstructNode F G} (hroot : n.IsRoot = false) {D : Bytes}
    (hpage : n.page = some D) (s : ConsensusUnstructuredState G) (reply : List (HashMap G)) :
    (replyConsensus S b64 order n s reply).2 =
      [.toParent ⟨s.Phase, encodeHashMap (aggregateUnstructData S n (ownHash S b64 n D) reply s.MasterHash), ∅⟩] := by
  simp [replyConsensus, getLocalData_of_page S b64 hpage, hroot]

/-! ## The root's count of its own signature -/

/-- The root's map after its own signature on `h` and `k` echoes of it:
`k + 1` entries under `h`, all for the point `X`; at most `j` under every
other hash; and every key object below the next free address `b`. -/
structure EchoCount (h : String) (X : G) (M : HashMap G) (k j b : ℕ) : Prop where
  count : sigCount M h = k + 1
  points : ∀ x ∈ (sigsOf M h).entries, x.2.1 = X
  others : ∀ img, img ≠ h → sigCount M img ≤ j
  below : ∀ img, ∀ a ∈ sigsOf M img, a < b

section EchoCount

variable {h : String} {X : G} {M : HashMap G} {k j b : ℕ}

theorem EchoCount.mono (hE : EchoCount h X M k j b) {j' b' : ℕ} (hj : j ≤ j') (hb : b ≤ b') :
    EchoCount h X M k j' b' :=
  ⟨hE.count, hE.points, fun img himg => (hE.others img himg).trans hj,
    fun img a ha => (hE.below img a ha).trans_le hb⟩

/-- An echo of `h` arrives under a fresh key object and counts once more. -/
theorem EchoCount.setSig_self (hE : EchoCount h X M k j b) {v : G × Bytes} (hv : v.1 = X) :
    EchoCount h X (setSig M h b v) (k + 1) j (b + 1) where
  count := by
    rw [sigCount_setSig_of_notMem (fun hb => lt_irrefl b (hE.below h b hb)), hE.count]
  points x hx := by
    rcases mem_entries_sigsOf_setSig_self hx with rfl | hx
    · exact hv
    · exact hE.points x hx
  others img himg := by
    rw [sigCount, sigsOf_setSig_of_ne himg]
    exact hE.others img himg
  below img a ha := by
    rcases mem_sigsOf_setSig ha with rfl | ha
    · exact Nat.lt_succ_self a
    · exact (hE.below img a ha).trans (Nat.lt_succ_self b)

/-- A signature on another hash adds at most one to that hash's count. -/
theorem EchoCount.setSig_other (hE : EchoCount h X M k j b) {img : String} (himg : img ≠ h)
    (v : G × Bytes) : EchoCount h X (setSig M img b v) k (j + 1) (b + 1) where
  count := by
    rw [sigCount, sigsOf_setSig_of_ne himg.symm]
    exact hE.count
  points := by
    rw [sigsOf_setSig_of_ne himg.symm]
    exact hE.points
  others img' himg' := by
    have h₁ := sigCount_setSig_le M img img' b v
    have h₂ := hE.others img' himg'
    omega
  below img' a ha := by
    rcases mem_sigsOf_setSig ha with rfl | ha
    · exact Nat.lt_succ_self a
    · exact (hE.below img' a ha).trans (Nat.lt_succ_self b)

end EchoCount

theorem echoCount_ownHash {n : UnstructNode F G} {D : Bytes} {b : ℕ} (hb : n.PublicAddr < b) :
    EchoCount (hashKey S b64 D) n.Public (ownHash S b64 n D) 0 0 b where
  count := by simp [sigCount, ownHash]
  points x hx := by
    simp only [ownHash, AList.insert_empty, sigsOf_singleton_self, AList.singleton_entries,
      List.mem_singleton] at hx
    rw [hx]
  others img himg := by simp [sigCount, ownHash, sigsOf_singleton_of_ne himg]
  below img a ha := by
    by_cases himg : img = hashKey S b64 D
    · subst himg
      simp only [ownHash, AList.insert_empty, sigsOf_singleton_self] at ha
      rw [AList.mem_keys, AList.keys_singleton, List.mem_singleton] at ha
      rw [ha]
      exact hb
    · simp [ownHash, sigsOf_singleton_of_ne himg] at ha

/-- The decoding of an echo `[(h, [vr]), (c.1, [c.2])]` at the address `b`. -/
theorem decodeHashMap_echo (b : ℕ) (h : String) (vr : G × Bytes) (c : String × (G × Bytes)) :
    decodeHashMap b [(h, [vr]), (c.1, [c.2])] =
      (((∅ : HashMap G).insert c.1 ((∅ : SigMap G).insert (b + 1) c.2)).insert h
        ((∅ : SigMap G).insert b vr), b + 2) := rfl

/-- One echo: the root's signature on `h` under a fresh key object, and one
signature, valid or not, on another hash. -/
theorem EchoCount.addAllVerified_echo {h : String} {vr : G × Bytes} {M : HashMap G} {k b : ℕ}
    (hE : EchoCount h vr.1 M k k b) (hvr : S.SchnorrVerify vr.1 (stringBytes h) vr.2 = none)
    {c : String × (G × Bytes)} (hc : c.1 ≠ h) :
    EchoCount h vr.1 (addAllVerified S none (decodeHashMap b [(h, [vr]), (c.1, [c.2])]).1 M)
      (k + 1) (k + 1) (b + 2) := by
  have hentries : (decodeHashMap b [(h, [vr]), (c.1, [c.2])]).1.entries =
      [⟨h, (∅ : SigMap G).insert b vr⟩, ⟨c.1, (∅ : SigMap G).insert (b + 1) c.2⟩] := by
    simp [decodeHashMap_echo, AList.entries_insert, hc.symm]
  have hvr' : (S.SchnorrVerify vr.1 (stringBytes h) vr.2).isNone := by simp [hvr]
  have h₁ := hE.setSig_self (v := vr) rfl
  simp only [addAllVerified, hentries, List.foldl_cons, List.foldl_nil, AList.insert_empty,
    AList.singleton_entries, addVerified_cons, addVerified_nil, if_pos hvr', Option.getD_none]
  split_ifs
  · exact h₁.setSig_other hc c.2
  · exact h₁.mono (Nat.le_succ _) (Nat.le_succ _)

/-- The root's fold over the decoded echoes of the leaves. -/
theorem echoCount_foldl_decodeAll {h : String} {vr : G × Bytes}
    (hvr : S.SchnorrVerify vr.1 (stringBytes h) vr.2 = none) :
    ∀ (cs : List (String × (G × Bytes))) (b : ℕ) (M : HashMap G) (k : ℕ), (∀ c ∈ cs, c.1 ≠ h) →
      EchoCount h vr.1 M k k b →
      (decodeAll b (cs.map fun c => [(h, [vr]), (c.1, [c.2])])).2 = b + 2 * cs.length ∧
      EchoCount h vr.1 ((decodeAll b (cs.map fun c => [(h, [vr]), (c.1, [c.2])])).1.foldl
        (fun M r => addAllVerified S none r M) M) (k + cs.length) (k + cs.length) (b + 2 * cs.length)
  | [], b, M, k, _, hE => ⟨rfl, hE⟩
  | c :: cs, b, M, k, hcs, hE => by
      have h₁ := hE.addAllVerified_echo S hvr (hcs c List.mem_cons_self)
      obtain ⟨hheap, hE'⟩ := echoCount_foldl_decodeAll hvr cs (b + 2) _ (k + 1)
        (fun c' hc' => hcs c' (List.mem_cons_of_mem _ hc')) h₁
      have hlen : 2 * (cs.length + 1) = 2 + 2 * cs.length := by omega
      simp only [List.map_cons, decodeAll, decodeHashMap_echo, List.foldl_cons, List.length_cons]
      rw [hlen, ← Nat.add_assoc, Nat.add_comm cs.length 1, ← Nat.add_assoc]
      exact ⟨hheap, hE'⟩

/-! ## Every stored plaintext hashes to its key -/

/-- What a conode is asked to do: start, or handle an announcement or the
replies of its children. -/
inductive UnstructEvent (G : Type) where
  | start
  | announce (msg : SaveAnnounceUnstructured G)
  | reply (replies : List (SaveReplyUnstructured G))

/-- The handler that onet runs on an event. -/
def unstructHandle (n : UnstructNode F G) (s : ConsensusUnstructuredState G) :
    UnstructEvent G → ConsensusUnstructuredState G × List (UnstructuredOutput G)
  | .start => startUnstructured S b64 order n s
  | .announce msg => handleAnnounce S b64 order n s msg
  | .reply replies => handleReply S b64 order n s replies

/-- A step of the conode `n`, on an event of any content in any order. -/
def UnstructStep (n : UnstructNode F G) (s : ConsensusUnstructuredState G) (ev : UnstructEvent G)
    (s' : ConsensusUnstructuredState G) : Prop :=
  (unstructHandle S b64 order n s ev).1 = s'

/-- `NewConsensusUnstructuredProtocol` creates an empty `PlainData`. -/
def UnstructInit (s : ConsensusUnstructuredState G) : Prop :=
  s.PlainData = ∅

/-- Every plaintext of `pd` is stored under its own hash. -/
def PlainDataHashed (pd : StrMap Bytes) : Prop :=
  ∀ k v, pd.lookup k = some v → hashKey S b64 v = k

section PlainData

variable {S b64 order}

theorem plainDataHashed_empty : PlainDataHashed S b64 ∅ := fun k v h => by
  rw [AList.lookup_empty] at h
  exact absurd h (Option.some_ne_none v).symm

theorem PlainDataHashed.insert {pd : StrMap Bytes} (hpd : PlainDataHashed S b64 pd) {k : String}
    {v : Bytes} (hv : hashKey S b64 v = k) : PlainDataHashed S b64 (pd.insert k v) := by
  intro k' v' h
  by_cases hk : k' = k
  · subst hk
    rw [AList.lookup_insert, Option.some_inj] at h
    rw [← h]
    exact hv
  · rw [AList.lookup_insert_ne hk] at h
    exact hpd k' v' h

variable {n : UnstructNode F G} {s : ConsensusUnstructuredState G}

theorem plainDataHashed_getLocalData (h : PlainDataHashed S b64 s.PlainData) :
    PlainDataHashed S b64 (getLocalData S b64 n s).2.PlainData := by
  cases hpage : n.page with
  | none => simpa [getLocalData, hpage] using h
  | some D => simpa [getLocalData_of_page S b64 hpage] using h.insert rfl

/-- The plaintexts that the replies carry are kept only under their own
hash. -/
theorem plainDataHashed_replyRequestMissingData (reply : List (StrMap Bytes))
    (h : PlainDataHashed S b64 s.PlainData) :
    PlainDataHashed S b64 (replyRequestMissingData S b64 order n s reply).1.PlainData := by
  have hkeep : ∀ rh, PlainDataHashed S b64 (keepRequestedData S b64 rh reply s.PlainData) := by
    intro rh
    refine Transition.foldl_invariant (fun pd r hpd => ?_) reply s.PlainData h
    split
    · split_ifs with hh
      · exact hpd.insert hh
      · exact hpd
    · exact hpd
  simp only [replyRequestMissingData]
  split_ifs <;> simp only [announceEnd] <;> first | exact h | exact hkeep _

theorem plainDataHashed_announceRequestMissingData (mh : HashMap G)
    (h : PlainDataHashed S b64 s.PlainData) :
    PlainDataHashed S b64 (announceRequestMissingData S b64 order n s mh).1.PlainData := by
  rw [announceRequestMissingData_eq]
  split_ifs
  · exact h
  · exact plainDataHashed_replyRequestMissingData (s := { s with Phase := _, MasterHash := _ }) _ h

theorem plainDataHashed_replyConsensus (reply : List (HashMap G))
    (h : PlainDataHashed S b64 s.PlainData) :
    PlainDataHashed S b64 (replyConsensus S b64 order n s reply).1.PlainData := by
  have hloc := plainDataHashed_getLocalData (n := n) h
  simp only [replyConsensus]
  split_ifs
  · exact plainDataHashed_announceRequestMissingData (s := { (getLocalData S b64 n s).2 with
      MasterHash := _ }) _ hloc
  · exact hloc

theorem plainDataHashed_announceConsensus (mh : HashMap G)
    (h : PlainDataHashed S b64 s.PlainData) :
    PlainDataHashed S b64 (announceConsensus S b64 order n s mh).1.PlainData := by
  simp only [announceConsensus]
  split_ifs
  · exact h
  · exact plainDataHashed_replyConsensus (s := { s with Phase := _, MasterHash := _ }) _ h

theorem plainDataHashed_startUnstructured (h : PlainDataHashed S b64 s.PlainData) :
    PlainDataHashed S b64 (startUnstructured S b64 order n s).1.PlainData := by
  cases hpage : n.page with
  | none => simpa [startUnstructured, getLocalData, hpage] using h
  | some D =>
    rw [startUnstructured, getLocalData_of_page S b64 hpage]
    exact plainDataHashed_announceConsensus _ (h.insert rfl)

/-- One step of a conode keeps every plaintext under its own hash. -/
theorem plainDataHashed_step {ev : UnstructEvent G} {s' : ConsensusUnstructuredState G}
    (hst : UnstructStep S b64 order n s ev s') (h : PlainDataHashed S b64 s.PlainData) :
    PlainDataHashed S b64 s'.PlainData := by
  subst hst
  cases ev with
  | start => exact plainDataHashed_startUnstructured h
  | announce msg =>
    simp only [unstructHandle, handleAnnounce]
    split
    · exact h
    · exact plainDataHashed_announceConsensus (s := { s with heap := _ }) _ h
    · exact plainDataHashed_announceRequestMissingData (s := { s with heap := _ }) _ h
    · exact h
  | reply replies =>
    simp only [unstructHandle, handleReply]
    split
    · exact h
    · exact plainDataHashed_replyConsensus (s := { s with heap := _ }) _ h
    · exact plainDataHashed_replyRequestMissingData (s := { s with heap := _ }) _ h
    · exact h

end PlainData

/-- In every reachable state of a conode, whatever it received and in
whatever order, every entry of `PlainData` is stored under the base64 of
its hash. -/
theorem plainData_hashed_of_reachable {n : UnstructNode F G} {s : ConsensusUnstructuredState G}
    (hs : Transition.Reachable UnstructInit (UnstructStep S b64 order n) s) :
    ∀ k v, s.PlainData.lookup k = some v → hashKey S b64 v = k := by
  have hinv : PlainDataHashed S b64 s.PlainData :=
    hs.invariant (fun s' hinit => by rw [UnstructInit] at hinit; rw [hinit]; exact plainDataHashed_empty)
      (fun _ _ _ hI hst => plainDataHashed_step hst hI)
  exact hinv

/-- In the suite on `ZMod 7`, after the root fetched `[1]` and started, its
plaintexts are stored under their hashes. -/
theorem plainData_hashed_after_start_zmod7 :
    PlainDataHashed Suite.zmod7 GoBase64.encodeToString (startUnstructured Suite.zmod7 GoBase64.encodeToString AList.keys
      (⟨1, 1, 0, true, false, some [1]⟩ : UnstructNode (ZMod 7) (ZMod 7))
      (⟨.NilPhase, 2, ∅, ∅, [], 1⟩ : ConsensusUnstructuredState (ZMod 7))).1.PlainData := by
  have h0 : UnstructInit (⟨.NilPhase, 2, ∅, ∅, [], 1⟩ : ConsensusUnstructuredState (ZMod 7)) := rfl
  exact plainData_hashed_of_reachable Suite.zmod7 _ _ (.step (.init h0) (l := UnstructEvent.start) rfl)


/-- An order the runtime may pick for the examples below: the keys from the
last inserted to the first. -/
def keysReversed (m : HashMap G) : List String :=
  m.keys.reverse

theorem mapOrder_keysReversed : MapOrder (G := G) keysReversed :=
  fun m => List.reverse_perm m.keys

variable [Field F] [AddCommGroup G] [Module F G]

theorem signHash_verifies (hS : S.SchnorrComplete) (x : F) (img : String) :
    S.SchnorrVerify (x • S.Base) (stringBytes img) (signHash S x img) = none :=
  hS x _

/-- A conode's own signature, written again under its own key object, leaves
its map as it is. -/
theorem addAllVerified_ownHash (hS : S.SchnorrComplete) {n : UnstructNode F G}
    (hkey : n.Public = n.Private • S.Base) (D : Bytes) :
    addAllVerified S (some (n.PublicAddr, n.Public)) (ownHash S b64 n D) (ownHash S b64 n D) =
      ownHash S b64 n D := by
  have hv := signHash_verifies S hS n.Private (hashKey S b64 D)
  rw [← hkey] at hv
  simp [addAllVerified, ownHash, addVerified_cons, hv, setSig, AList.insert_singleton_eq]

/-! ## A round of the phase `Consensus` -/

/-- The message of a `toParent` output. -/
def UnstructuredOutput.toParent? : UnstructuredOutput G → Option (SaveReplyUnstructured G)
  | .toParent resp => some resp
  | _ => none

/-- The message of a `toChildren` output. -/
def UnstructuredOutput.toChildren? : UnstructuredOutput G → Option (SaveAnnounceUnstructured G)
  | .toChildren msg => some msg
  | _ => none

/-- The replies of the leaves, each on its own state, to the announcement
`msg`. -/
def leafReplies (leaves : List (UnstructNode F G × ConsensusUnstructuredState G))
    (msg : SaveAnnounceUnstructured G) : List (SaveReplyUnstructured G) :=
  leaves.flatMap fun l => (handleAnnounce S b64 order l.1 l.2 msg).2.filterMap UnstructuredOutput.toParent?

/-- The phase `Consensus` on the service's one-level tree: the root starts,
every leaf handles the announcement, and onet hands the root their replies,
in the order in which `leaves` lists them. -/
def consensusRound (r : UnstructNode F G) (rs : ConsensusUnstructuredState G)
    (leaves : List (UnstructNode F G × ConsensusUnstructuredState G)) :
    ConsensusUnstructuredState G × List (UnstructuredOutput G) :=
  let st := startUnstructured S b64 order r rs
  let replies := (st.2.filterMap UnstructuredOutput.toChildren?).flatMap (leafReplies S b64 order leaves)
  let rr := handleReply S b64 order r st.1 replies
  (rr.1, st.2 ++ rr.2)

/-! ## The honest round -/

/-- An honest leaf of the service's one-level tree whose fetched bytes hash
to something other than `h`. -/
structure HonestLeaf (h : String) (c : UnstructNode F G) : Prop where
  isLeaf : c.IsLeaf = true
  notRoot : c.IsRoot = false
  key : c.Public = c.Private • S.Base
  page : ∃ D, c.page = some D ∧ hashKey S b64 D ≠ h

/-- The hash of the bytes that the leaf `c` fetched, with its point and its
signature on that hash. -/
def echoEntry (c : UnstructNode F G) : String × (G × Bytes) :=
  let k := hashKey S b64 (c.page.getD [])
  (k, (c.Public, signHash S c.Private k))

/-- The reply that an honest leaf `c` sends to the announcement of the
root's entry `vr` on `h`: the announced entry, then its own entry. -/
def echoReply (h : String) (vr : G × Bytes) (c : UnstructNode F G) : SaveReplyUnstructured G :=
  ⟨.Consensus, [(h, [vr]), ((echoEntry S b64 c).1, [(echoEntry S b64 c).2])], ∅⟩

theorem handleAnnounce_honestLeaf (hS : S.SchnorrComplete) {h : String} {vr : G × Bytes}
    (hvr : S.SchnorrVerify vr.1 (stringBytes h) vr.2 = none) {c : UnstructNode F G}
    (hc : HonestLeaf S b64 h c) (cs : ConsensusUnstructuredState G) :
    (handleAnnounce S b64 order c cs ⟨.Consensus, [(h, [vr])]⟩).2 = [.toParent (echoReply S b64 h vr c)] := by
  obtain ⟨D, hpage, hne⟩ := hc.page
  have hv := signHash_verifies S hS c.Private (hashKey S b64 D)
  rw [← hc.key] at hv
  -- the announced map, decoded under one fresh key object
  set A : HashMap G := AList.singleton h (AList.singleton cs.heap vr) with hA
  have hdec : decodeHashMap cs.heap [(h, [vr])] = (A, cs.heap + 1) := by
    simp [decodeHashMap, decodeSigMap, hA]
  -- the leaf writes its own signature beside the announced one, then the announced one again
  have hagg : aggregateUnstructData S c (ownHash S b64 c D) [A] A =
      (A.insert (hashKey S b64 D)
        (AList.singleton c.PublicAddr (c.Public, signHash S c.Private (hashKey S b64 D)))).insert h
        (AList.singleton cs.heap vr) := by
    simp [aggregateUnstructData, addAllVerified, ownHash, addVerified_cons, hv, hvr, setSig, hA,
      sigsOf_singleton_of_ne hne, sigsOf_insert_of_ne hne.symm, AList.insert_singleton_eq]
  simp only [handleAnnounce, hdec, announceConsensus, hc.isLeaf, Bool.true_eq_false, ↓reduceIte]
  rw [replyConsensus_notRoot S b64 order hc.notRoot hpage, hagg]
  simp [echoReply, echoEntry, hpage, encodeHashMap, hA, AList.entries_insert, AList.singleton_entries,
    List.kerase_cons_ne, hne, hne.symm]

/-- The honest root of the one-level tree, with the bytes `D` it fetched and
its state before `Start`. -/
structure HonestRoot (r : UnstructNode F G) (D : Bytes) (rs : ConsensusUnstructuredState G) : Prop where
  isRoot : r.IsRoot = true
  notLeaf : r.IsLeaf = false
  page : r.page = some D
  key : r.Public = r.Private • S.Base
  fresh : r.PublicAddr < rs.heap
  hash : hashKey S b64 D ≠ ""

/-- The root's entry in its announcement: its point and its signature. -/
def rootEntry (r : UnstructNode F G) (D : Bytes) : G × Bytes :=
  (r.Public, signHash S r.Private (hashKey S b64 D))

theorem startUnstructured_honestRoot {r : UnstructNode F G} {D : Bytes}
    {rs : ConsensusUnstructuredState G} (hr : HonestRoot S b64 r D rs) :
    startUnstructured S b64 order r rs =
      ({ rs with
          Phase := .Consensus, MasterHash := ownHash S b64 r D,
          PlainData := rs.PlainData.insert (hashKey S b64 D) D },
        [.toChildren ⟨.Consensus, [(hashKey S b64 D, [rootEntry S b64 r D])]⟩]) := by
  simp [startUnstructured, getLocalData_of_page S b64 hr.page, announceConsensus, hr.notLeaf,
    encodeHashMap, ownHash, rootEntry]


/-- Every honest leaf answers the root's announcement with its echo. -/
theorem leafReplies_honest (hS : S.SchnorrComplete) {h : String} {vr : G × Bytes}
    (hvr : S.SchnorrVerify vr.1 (stringBytes h) vr.2 = none) :
    ∀ {leaves : List (UnstructNode F G × ConsensusUnstructuredState G)},
      (∀ l ∈ leaves, HonestLeaf S b64 h l.1) →
      leafReplies S b64 order leaves ⟨.Consensus, [(h, [vr])]⟩ = leaves.map fun l => echoReply S b64 h vr l.1
  | [], _ => rfl
  | l :: leaves, hl => by
      have hrest := leafReplies_honest hS hvr fun l' hl' => hl l' (List.mem_cons_of_mem _ hl')
      simp only [leafReplies, List.flatMap_cons] at hrest ⊢
      rw [handleAnnounce_honestLeaf S b64 order hS hvr (hl l List.mem_cons_self), hrest]
      rfl

/-- The root's `Consensus` handler on the echoes of `cs`, each with the
root's own entry: it selects its own hash, with `cs.length + 1` entries that
all hold the root's point, keeps its own bytes as `MsgToSign`, announces
`End` and sends on `Finished`. -/
theorem handleReply_honestRoot (hS : S.SchnorrComplete) (horder : MapOrder order) {r : UnstructNode F G} {D : Bytes}
    {rs : ConsensusUnstructuredState G} (hr : HonestRoot S b64 r D rs)
    {cs : List (String × (G × Bytes))} (hcs : ∀ c ∈ cs, c.1 ≠ hashKey S b64 D)
    (hT : rs.Threshold ≤ cs.length + 1) :
    ∃ sigs, sigs.entries.length = cs.length + 1 ∧ (∀ x ∈ sigs.entries, x.2.1 = r.Public) ∧
      handleReply S b64 order r (startUnstructured S b64 order r rs).1
          (cs.map fun c => ⟨.Consensus, [(hashKey S b64 D, [rootEntry S b64 r D]), (c.1, [c.2])], ∅⟩) =
        ({ rs with
            Phase := .End, MasterHash := AList.singleton (hashKey S b64 D) sigs,
            PlainData := (rs.PlainData.insert (hashKey S b64 D) D).insert (hashKey S b64 D) D,
            MsgToSign := D, heap := rs.heap + 2 * cs.length },
          [.toChildren ⟨.End, []⟩, .finished D]) := by
  have hv : S.SchnorrVerify (rootEntry S b64 r D).1 (stringBytes (hashKey S b64 D))
      (rootEntry S b64 r D).2 = none := by
    rw [rootEntry, hr.key]
    exact signHash_verifies S hS r.Private _
  obtain ⟨hheap, hE⟩ := echoCount_foldl_decodeAll S hv cs rs.heap (ownHash S b64 r D) 0 hcs
    (echoCount_ownHash S b64 hr.fresh)
  rw [Nat.zero_add] at hE
  set M := (decodeAll rs.heap (cs.map fun c => [(hashKey S b64 D, [rootEntry S b64 r D]), (c.1, [c.2])])).1.foldl
    (fun M r => addAllVerified S none r M) (ownHash S b64 r D) with hM
  -- the root's own hash has one entry more than any other
  have hsel : getMostSignedHash rs.Threshold M (order M) =
      (AList.singleton (hashKey S b64 D) (sigsOf M (hashKey S b64 D)), none) := by
    refine getMostSignedHash_of_dominant hr.hash (by rw [hE.count]; exact hT) (fun h' hne => ?_)
      ((horder M).mem_iff.mpr (mem_keys_of_sigCount_pos (by rw [hE.count]; omega)))
    have := hE.others h' hne
    rw [hE.count]
    omega
  have hagg : aggregateUnstructData S r (ownHash S b64 r D)
      (decodeAll rs.heap (cs.map fun c => [(hashKey S b64 D, [rootEntry S b64 r D]), (c.1, [c.2])])).1
      (ownHash S b64 r D) = M := by
    rw [aggregateUnstructData_of_ne_nil S (by simp [ownHash]), addAllVerified_ownHash S b64 hS hr.key]
  refine ⟨sigsOf M (hashKey S b64 D), hE.count, hE.points, ?_⟩
  rw [startUnstructured_honestRoot S b64 order hr]
  simp only [handleReply, List.map_map, Function.comp_def, hheap]
  rw [replyConsensus_root S b64 order hr.isRoot hr.page]
  dsimp only
  rw [hagg, hsel, announceRequestMissingData_of_held S b64 order horder hr.isRoot ?_ ?_]
  · rfl
  · have hc := hE.count
    rw [sigCount] at hc
    dsimp only
    omega
  · simp

/-- The phase `Consensus` on the one-level tree of an honest root and honest
leaves whose bytes all hash to something other than the root's: the root
selects its own hash, with one entry per conode, all holding the root's
point; it keeps its own bytes as `MsgToSign`, announces `End` and sends on
`Finished`. -/
theorem consensusRound_honest (hS : S.SchnorrComplete) (horder : MapOrder order) {r : UnstructNode F G} {D : Bytes}
    {rs : ConsensusUnstructuredState G} (hr : HonestRoot S b64 r D rs)
    {leaves : List (UnstructNode F G × ConsensusUnstructuredState G)}
    (hleaves : ∀ l ∈ leaves, HonestLeaf S b64 (hashKey S b64 D) l.1)
    (hT : rs.Threshold ≤ leaves.length + 1) :
    ∃ sigs, sigs.entries.length = leaves.length + 1 ∧ (∀ x ∈ sigs.entries, x.2.1 = r.Public) ∧
      consensusRound S b64 order r rs leaves =
        ({ rs with
            Phase := .End, MasterHash := AList.singleton (hashKey S b64 D) sigs,
            PlainData := (rs.PlainData.insert (hashKey S b64 D) D).insert (hashKey S b64 D) D,
            MsgToSign := D, heap := rs.heap + 2 * leaves.length },
          [.toChildren ⟨.Consensus, [(hashKey S b64 D, [rootEntry S b64 r D])]⟩,
            .toChildren ⟨.End, []⟩, .finished D]) := by
  have hv : S.SchnorrVerify (rootEntry S b64 r D).1 (stringBytes (hashKey S b64 D))
      (rootEntry S b64 r D).2 = none := by
    rw [rootEntry, hr.key]
    exact signHash_verifies S hS r.Private _
  -- the entries of the leaves, none on the root's hash
  have hcs : ∀ c ∈ leaves.map (fun l => echoEntry S b64 l.1), c.1 ≠ hashKey S b64 D := by
    intro c hc
    obtain ⟨l, hl, rfl⟩ := List.mem_map.mp hc
    obtain ⟨D', hpage, hne⟩ := (hleaves l hl).page
    simpa [echoEntry, hpage] using hne
  have hstart := startUnstructured_honestRoot S b64 order hr
  have hreplies : ((startUnstructured S b64 order r rs).2.filterMap UnstructuredOutput.toChildren?).flatMap
      (leafReplies S b64 order leaves) = (leaves.map fun l => echoEntry S b64 l.1).map fun c =>
        ⟨.Consensus, [(hashKey S b64 D, [rootEntry S b64 r D]), (c.1, [c.2])], ∅⟩ := by
    rw [hstart]
    simp only [List.filterMap_cons, UnstructuredOutput.toChildren?, List.filterMap_nil,
      List.flatMap_cons, List.flatMap_nil, List.append_nil, leafReplies_honest S b64 order hS hv hleaves,
      List.map_map]
    rfl
  obtain ⟨sigs, hlen, hpts, hrun⟩ := handleReply_honestRoot S b64 order hS horder hr hcs (by simpa using hT)
  rw [List.length_map] at hlen hrun
  refine ⟨sigs, hlen, hpts, ?_⟩
  simp only [consensusRound]
  rw [hreplies, hrun, hstart]
  rfl

/-- An honest round in which no leaf fetched the root's bytes ends with the
root's hash selected under `n` entries for `n` conodes, although the root
alone signed it: every entry holds the root's point.  Each leaf echoes the
root's announced signature, and each echo is decoded into a fresh point
object, a new key of `MasterHash[h]`. -/
theorem consensusRound_selects_hash_signed_by_root_alone (hS : S.SchnorrComplete) (horder : MapOrder order)
    {r : UnstructNode F G} {D : Bytes} {rs : ConsensusUnstructuredState G} (hr : HonestRoot S b64 r D rs)
    {leaves : List (UnstructNode F G × ConsensusUnstructuredState G)}
    (hleaves : ∀ l ∈ leaves, HonestLeaf S b64 (hashKey S b64 D) l.1)
    (hT : rs.Threshold ≤ leaves.length + 1) :
    ∃ sigs, (consensusRound S b64 order r rs leaves).1.MasterHash = AList.singleton (hashKey S b64 D) sigs ∧
      sigs.entries.length = leaves.length + 1 ∧ ∀ x ∈ sigs.entries, x.2.1 = r.Public := by
  obtain ⟨sigs, hlen, hpts, hround⟩ := consensusRound_honest S b64 order hS horder hr hleaves hT
  exact ⟨sigs, by rw [hround], hlen, hpts⟩

theorem consensusRound_root_alone_zmod7 :
    MapOrder (G := ZMod 7) keysReversed ∧
    HonestRoot Suite.zmod7 GoBase64.encodeToString ⟨1, 1, 0, true, false, some [1]⟩ [1] ⟨.NilPhase, 2, ∅, ∅, [], 1⟩ ∧
    (∀ l ∈ [((⟨2, 2, 0, false, true, some [2]⟩ : UnstructNode (ZMod 7) (ZMod 7)),
        (⟨.NilPhase, 0, ∅, ∅, [], 0⟩ : ConsensusUnstructuredState (ZMod 7)))],
      HonestLeaf Suite.zmod7 GoBase64.encodeToString (hashKey Suite.zmod7 GoBase64.encodeToString [1]) l.1) ∧
    2 ≤ 1 + 1 ∧
    ∃ sigs, (consensusRound Suite.zmod7 GoBase64.encodeToString keysReversed ⟨1, 1, 0, true, false, some [1]⟩
        ⟨.NilPhase, 2, ∅, ∅, [], 1⟩
        [(⟨2, 2, 0, false, true, some [2]⟩, ⟨.NilPhase, 0, ∅, ∅, [], 0⟩)]).1.MasterHash =
          AList.singleton (hashKey Suite.zmod7 GoBase64.encodeToString [1]) sigs ∧
      sigs.entries.length = 1 + 1 ∧ ∀ x ∈ sigs.entries, x.2.1 = 1 := by
  have hr : HonestRoot Suite.zmod7 GoBase64.encodeToString ⟨1, 1, 0, true, false, some [1]⟩ [1] ⟨.NilPhase, 2, ∅, ∅, [], 1⟩ :=
    ⟨rfl, rfl, rfl, by decide, by decide, fun h => absurd (GoBase64.encodeToString_eq_empty_iff.mp h) (by decide)⟩
  have hl : ∀ l ∈ [((⟨2, 2, 0, false, true, some [2]⟩ : UnstructNode (ZMod 7) (ZMod 7)),
      (⟨.NilPhase, 0, ∅, ∅, [], 0⟩ : ConsensusUnstructuredState (ZMod 7)))],
      HonestLeaf Suite.zmod7 GoBase64.encodeToString (hashKey Suite.zmod7 GoBase64.encodeToString [1]) l.1 := by
    intro l hl
    rw [List.mem_singleton] at hl
    subst hl
    exact ⟨rfl, rfl, by decide, [2], rfl, fun h => absurd (GoBase64.encodeToString_injective h) (by decide)⟩
  exact ⟨mapOrder_keysReversed, hr, hl, le_refl _,
    consensusRound_selects_hash_signed_by_root_alone Suite.zmod7 GoBase64.encodeToString keysReversed Suite.zmod7_schnorrComplete
      mapOrder_keysReversed hr hl (le_refl _)⟩

/-! ## A child that repeats its signature -/

/-- A child that sends its valid signature on the hash `hc` of its bytes
`k ≥ 2` times makes the root select `hc`, whose plaintext the root does not
hold.  The root then asks its children for it and, in the same handler,
sends on `Finished` with `MsgToSign` as it was before the round. -/
theorem handleReply_finishes_without_selected_data (hS : S.SchnorrComplete) (horder : MapOrder order) {r : UnstructNode F G}
    {D : Bytes} {rs : ConsensusUnstructuredState G} (hr : HonestRoot S b64 r D rs) (xc : F) (Dc : Bytes)
    (hne : hashKey S b64 Dc ≠ hashKey S b64 D) (hcne : hashKey S b64 Dc ≠ "")
    (hmiss : rs.PlainData.lookup (hashKey S b64 Dc) = none) {k : ℕ} (hk : 2 ≤ k) (hT : rs.Threshold ≤ k) :
    ∃ s' w, handleReply S b64 order r (startUnstructured S b64 order r rs).1
        [⟨.Consensus, [(hashKey S b64 Dc,
          List.replicate k (xc • S.Base, signHash S xc (hashKey S b64 Dc)))], ∅⟩] =
        (s', [.toChildren ⟨.RequestMissingData, w⟩, .finished rs.MsgToSign]) ∧
      s'.MasterHash.keys = [hashKey S b64 Dc] ∧ s'.PlainData.lookup (hashKey S b64 Dc) = none := by
  set hc := hashKey S b64 Dc with hhc
  set es := List.replicate k (xc • S.Base, signHash S xc hc) with hes
  -- the child's signatures, decoded under `k` fresh key objects
  set SM := (decodeSigMap rs.heap es).1 with hSM
  obtain ⟨-, hvals⟩ := decodeSigMap_spec rs.heap es
  have hlenSM : SM.entries.length = k := by
    rw [← List.length_map (f := Sigma.snd), hvals, hes, List.length_replicate]
  have hvalid : ∀ x ∈ SM.entries, S.SchnorrVerify x.2.1 (stringBytes hc) x.2.2 = none := by
    intro x hx
    have hmem : x.2 ∈ es := hvals ▸ List.mem_map_of_mem hx
    rw [hes] at hmem
    rw [List.eq_of_mem_replicate hmem]
    exact signHash_verifies S hS xc hc
  have hown := echoCount_ownHash S b64 (D := D) hr.fresh
  have hemptyc : sigsOf (ownHash S b64 r D) hc = ∅ := by
    rw [ownHash, AList.insert_empty, sigsOf_singleton_of_ne hne]
  -- the root's map: its own entry, and the child's `k` entries
  set M := addVerified S none hc SM.entries (ownHash S b64 r D) with hM
  have hcount : sigCount M hc = k := by
    rw [hM, sigCount_addVerified_of_valid S hvalid (AList.keys_nodup SM) _
      (fun x _ => by rw [hemptyc]; exact AList.notMem_empty _), sigCount, hemptyc, hlenSM,
      AList.empty_entries, List.length_nil, Nat.zero_add]
  have hdom : ∀ h', h' ≠ hc → sigCount M h' < sigCount M hc := by
    intro h' hh'
    have hsame : sigCount M h' = sigCount (ownHash S b64 r D) h' := by
      rw [sigCount, sigCount, hM, sigsOf_addVerified_of_ne S hh']
    rw [hsame, hcount]
    by_cases hroot : h' = hashKey S b64 D
    · rw [hroot, hown.count]
      omega
    · have := hown.others h' hroot
      omega
  have hsel : getMostSignedHash rs.Threshold M (order M) = (AList.singleton hc (sigsOf M hc), none) :=
    getMostSignedHash_of_dominant hcne (by rw [hcount]; exact hT) hdom
      ((horder M).mem_iff.mpr (mem_keys_of_sigCount_pos (by omega)))
  have hagg : aggregateUnstructData S r (ownHash S b64 r D) (decodeAll rs.heap [[(hc, es)]]).1
      (ownHash S b64 r D) = M := by
    rw [aggregateUnstructData_of_ne_nil S (by simp [ownHash]), addAllVerified_ownHash S b64 hS hr.key]
    simp [decodeAll, decodeHashMap, addAllVerified, hM, hSM]
  refine ⟨{ rs with
      Phase := .RequestMissingData, MasterHash := AList.singleton hc (sigsOf M hc),
      PlainData := (rs.PlainData.insert (hashKey S b64 D) D).insert (hashKey S b64 D) D,
      heap := (decodeAll rs.heap [[(hc, es)]]).2 },
    encodeHashMap (AList.singleton hc (sigsOf M hc)), ?_, AList.keys_singleton _ _, ?_⟩
  · rw [startUnstructured_honestRoot S b64 order hr]
    simp only [handleReply, List.map_cons, List.map_nil]
    rw [replyConsensus_root S b64 order hr.isRoot hr.page]
    dsimp only
    rw [hagg, hsel, announceRequestMissingData_of_missing S b64 order horder hr.notLeaf ?_ ?_]
    · rfl
    · have hc' := hcount
      rw [sigCount] at hc'
      dsimp only
      omega
    · simp [AList.lookup_insert_ne hne, hmiss]
  · simp [AList.lookup_insert_ne hne, hmiss]

theorem handleReply_finishes_without_selected_data_zmod7 :
    MapOrder (G := ZMod 7) keysReversed ∧
    HonestRoot Suite.zmod7 GoBase64.encodeToString ⟨1, 1, 0, true, false, some [1]⟩ [1] ⟨.NilPhase, 2, ∅, ∅, [], 1⟩ ∧
    hashKey Suite.zmod7 GoBase64.encodeToString [2] ≠ hashKey Suite.zmod7 GoBase64.encodeToString [1] ∧ hashKey Suite.zmod7 GoBase64.encodeToString [2] ≠ "" ∧
    (∅ : StrMap Bytes).lookup (hashKey Suite.zmod7 GoBase64.encodeToString [2]) = none ∧ 2 ≤ 2 ∧ 2 ≤ 2 ∧
    ∃ s' w, handleReply Suite.zmod7 GoBase64.encodeToString keysReversed ⟨1, 1, 0, true, false, some [1]⟩
        (startUnstructured Suite.zmod7 GoBase64.encodeToString keysReversed ⟨1, 1, 0, true, false, some [1]⟩
          ⟨.NilPhase, 2, ∅, ∅, [], 1⟩).1
        [⟨.Consensus, [(hashKey Suite.zmod7 GoBase64.encodeToString [2],
          List.replicate 2 (3 • Suite.zmod7.Base, signHash Suite.zmod7 3 (hashKey Suite.zmod7 GoBase64.encodeToString [2])))], ∅⟩] =
        (s', [.toChildren ⟨.RequestMissingData, w⟩, .finished []]) ∧
      s'.MasterHash.keys = [hashKey Suite.zmod7 GoBase64.encodeToString [2]] ∧
      s'.PlainData.lookup (hashKey Suite.zmod7 GoBase64.encodeToString [2]) = none := by
  have hr : HonestRoot Suite.zmod7 GoBase64.encodeToString ⟨1, 1, 0, true, false, some [1]⟩ [1] ⟨.NilPhase, 2, ∅, ∅, [], 1⟩ :=
    ⟨rfl, rfl, rfl, by decide, by decide, fun h => absurd (GoBase64.encodeToString_eq_empty_iff.mp h) (by decide)⟩
  have hne : hashKey Suite.zmod7 GoBase64.encodeToString [2] ≠ hashKey Suite.zmod7 GoBase64.encodeToString [1] :=
    fun h => absurd (GoBase64.encodeToString_injective h) (by decide)
  have hcne : hashKey Suite.zmod7 GoBase64.encodeToString [2] ≠ "" :=
    fun h => absurd (GoBase64.encodeToString_eq_empty_iff.mp h) (by decide)
  exact ⟨mapOrder_keysReversed, hr, hne, hcne, rfl, le_refl _, le_refl _,
    handleReply_finishes_without_selected_data Suite.zmod7 GoBase64.encodeToString keysReversed Suite.zmod7_schnorrComplete
      mapOrder_keysReversed hr 3 [2] hne hcne rfl (le_refl _) (le_refl _)⟩

end Decenarch
