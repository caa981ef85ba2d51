import Decenarch.Crypto
import Mathlib.Data.List.AList

/-!
# Proofs of correct aggregation (`lib/proofs.go`)

`VerifyCipherVectorProof` starts one goroutine per proof; each sends its
outcome on a channel of capacity `len(p)` and then calls `wg.Done()`, and the
caller reads the channel only after `wg.Wait()`.  A proof whose two DLEQ
checks both fail makes its goroutine send `false` and then `true`, so the
sends exceed the capacity and the last sender, and with it `wg.Wait()`, waits
forever: the call returns (with `true`) exactly when every proof passes.
Evaluating `(*cv)[i]` for a proof beyond the ciphertexts panics.

`VerifyCompleteProofs` checks each entry of a map of untrusted proofs in map
order.  The onet tree that `TreeMarshal.MakeTree(Roster)` rebuilds is given
by what it returns; `Search` finds a node by its ID.  Go maps are `AList`s
with string keys; a loop over a map takes its iteration order as a list of
the entries.
-/

namespace Decenarch

/-- A Go `map[string]V`. -/
abbrev StrMap (V : Type*) := AList (fun _ : String => V)

/-- The values of a map, in the order of its entries. -/
def StrMap.values {V : Type*} (m : StrMap V) : List V := m.entries.map Sigma.snd

/-- A node of an onet tree, as far as the code reads it. -/
structure TreeNode (G : Type*) where
  /-- `ServerIdentity.Public`. -/
  Public : G
  /-- `len(Children)`. -/
  ChildCount : ℕ

/-- An onet tree: its root and `Tree.Search` by tree-node ID. -/
structure Tree (G : Type*) where
  Root : TreeNode G
  Search : ℕ → Option (TreeNode G)

/-- `AggregationProof`. -/
structure AggregationProof where
  Contributions : StrMap Bytes
  Aggregation : Bytes
  Length : ℕ

/-- `CompleteProof`.  `MadeTree` is what `TreeMarshal.MakeTree(Roster)`
returns (`none` for an error); nil pointers are `none`. -/
structure CompleteProof (G Proof : Type*) where
  MadeTree : Option (Tree G)
  PublicKey : G
  AggregationProof : Option AggregationProof
  CipherVectorProof : Option (CipherVectorProof G Proof)
  EncryptedCBFSetSignature : Bytes
  TreeNodeID : ℕ
  EncryptedBloomFilter : Bytes

/-- `CompleteProofs`, keyed by the string of each conode's public key. -/
abbrev CompleteProofs (G Proof : Type*) := StrMap (CompleteProof G Proof)

-- points and booleans meet in one bind, so they share `Type`
variable {F : Type*} {G Proof : Type} [AddCommGroup G]
variable (S : Suite F G Proof)

/-- `CreateAggregationiProof`. -/
def createAggregationiProof (c : StrMap Bytes) (a : Bytes) (length : ℕ) : AggregationProof :=
  ⟨c, a, length⟩

/-- The values that `CipherTextProof.verify` sends on the channel: `false`
then `true` when neither DLEQ statement verifies, else `true`. -/
def CipherTextProof.verify (p : CipherTextProof G Proof) (c : CipherText G)
    (zeroPoint onePoint base : G) : List Bool :=
  let zeroProof := S.DLEQVerify p.Proof base p.PublicKey c.K (c.C - zeroPoint)
  let oneProof := S.DLEQVerify p.Proof base p.PublicKey c.K (c.C - onePoint)
  (if zeroProof.isSome && oneProof.isSome then [false] else []) ++ [true]

/-- `CipherVectorProof.VerifyCipherVectorProof`. -/
def verifyCipherVectorProof (p : CipherVectorProof G Proof) (cv : CipherVector G) : Outcome Bool :=
  if cv.length < p.length then .panic
  else
    let sends := (p.zip cv).flatMap fun pc =>
      pc.1.verify S pc.2 (zeroToPoint S) (oneToPoint S) S.Base
    -- every send must fit in the channel before `wg.Wait()` returns
    if p.length < sends.length then .block else .ok (sends.all id)

/-- The summing loop of `VerifyAggregationProofWithAggregation`, over the
contributions in map order. -/
def sumContributions (length : ℕ) : List Bytes → CipherVector G → Outcome (CipherVector G)
  | [], tmp => .ok tmp
  | c :: cs, tmp =>
      CipherVector.fromBytes S c length >>= fun cipher =>
        CipherVector.add tmp tmp cipher >>= sumContributions length cs

section Compare

variable [DecidableEq G]

/-- The comparison loop `for j, w := range *a`: `C` then `K` against
`(*tmp)[j]`. -/
def sumMatches : CipherVector G → CipherVector G → Outcome Bool
  | [], _ => .ok true
  | _ :: _, [] => .panic
  | w :: a, t :: tmp =>
      if w.C ≠ t.C then .ok false else if w.K ≠ t.K then .ok false else sumMatches a tmp

/-- `AggregationProof.VerifyAggregationProofWithAggregation`, with the
iteration order `order` of the contributions. -/
def AggregationProof.verifyWithAggregation (p : AggregationProof) (order : List Bytes)
    (a : CipherVector G) : Outcome Bool :=
  sumContributions S p.Length order (newCipherVector a.length) >>= sumMatches a

/-- `AggregationProof.VerifyAggregationProof`. -/
def AggregationProof.verify (p : AggregationProof) (order : List Bytes) : Outcome Bool :=
  CipherVector.fromBytes S p.Aggregation p.Length >>= p.verifyWithAggregation S order

/-- The body of the loop of `VerifyCompleteProofs` for the entry `v`; `order`
is the iteration order of `v`'s contributions. -/
def verifyCompleteProof (p : CompleteProofs G Proof) (order : List Bytes)
    (v : CompleteProof G Proof) : Outcome Bool :=
  match v.AggregationProof with
  | none => .panic
  | some ap =>
    if (S.SchnorrVerify v.PublicKey (S.HashSum ap.Aggregation) v.EncryptedCBFSetSignature).isSome
    then .ok false
    else match v.MadeTree with
    | none => .ok false
    | some tree =>
      match tree.Search v.TreeNodeID with
      | none => .panic
      | some treeNode =>
        if treeNode.Public ≠ v.PublicKey then .ok false
        else match p.lookup (S.PointString tree.Root.Public) with
        | none => .panic
        | some rootEntry =>
          match rootEntry.AggregationProof with
          | none => .panic
          | some rootAggregationproof =>
            if (rootAggregationproof.Contributions.lookup (S.PointString v.PublicKey)).getD [] ≠
                v.EncryptedBloomFilter then .ok false
            else
              CipherVector.fromBytes S v.EncryptedBloomFilter ap.Length >>= fun filter =>
              -- the leaf check, then `!VerifyAggregationProof() && VerifyCipherVectorProof(...)`
              let contentProof : Outcome Bool := match v.CipherVectorProof with
                | none => .panic
                | some cvp => verifyCipherVectorProof S cvp filter
              (if treeNode.ChildCount = 0 then contentProof else .ok true) >>= fun leafOk =>
              if !leafOk then .ok false
              else ap.verify S order >>= fun aggOk =>
                if aggOk = true then .ok true
                else contentProof >>= fun cvpOk => .ok (!cvpOk)

/-- `CompleteProofs.VerifyCompleteProofs`, visiting the entries as `visits`
lists them, each with the iteration order of its own contributions. -/
def verifyCompleteProofsIn (p : CompleteProofs G Proof) :
    List (CompleteProof G Proof × List Bytes) → Outcome Bool
  | [] => .ok true
  | (v, order) :: vs => verifyCompleteProof S p order v >>= fun ok =>
      if ok then verifyCompleteProofsIn p vs else .ok false

end Compare

/-- `visits` is one run of the loops over the maps: every entry of `p` once,
each with its contributions in some order. -/
def Visits (p : CompleteProofs G Proof) (visits : List (CompleteProof G Proof × List Bytes)) :
    Prop :=
  (visits.map Prod.fst).Perm p.values ∧
    ∀ vo ∈ visits, ∀ ap, vo.1.AggregationProof = some ap → vo.2.Perm ap.Contributions.values

/-- The contributions of an entry in the order of their map's entries. -/
def CompleteProof.contributionsInOrder (v : CompleteProof G Proof) : List Bytes :=
  match v.AggregationProof with
  | some ap => ap.Contributions.values
  | none => []

/-- The run of the loops in the order of the maps' entries. -/
def CompleteProofs.inOrder (p : CompleteProofs G Proof) : List (CompleteProof G Proof × List Bytes) :=
  p.values.map fun v => (v, v.contributionsInOrder)

omit [AddCommGroup G] in
theorem visits_inOrder (p : CompleteProofs G Proof) : Visits p p.inOrder := by
  have hfst : p.inOrder.map Prod.fst = p.values := by
    simp [CompleteProofs.inOrder, Function.comp_def]
  refine ⟨hfst ▸ List.Perm.refl _, ?_⟩
  intro vo hvo ap hap
  obtain ⟨v, -, rfl⟩ := List.mem_map.mp hvo
  simp only at hap ⊢
  simp [CompleteProof.contributionsInOrder, hap]

omit [AddCommGroup G] in
/-- A run over a map with one entry visits that entry, with its
contributions in some order. -/
theorem Visits.eq_singleton {p : CompleteProofs G Proof} {v : CompleteProof G Proof}
    (hp : p.values = [v]) {visits : List (CompleteProof G Proof × List Bytes)}
    (h : Visits p visits) :
    ∃ order, visits = [(v, order)] ∧
      ∀ ap, v.AggregationProof = some ap → order.Perm ap.Contributions.values := by
  have hfst : visits.map Prod.fst = [v] := List.perm_singleton.mp (hp ▸ h.1)
  obtain ⟨vo, rfl⟩ : ∃ vo, visits = [vo] := List.length_eq_one_iff.mp (by simpa using congrArg List.length hfst)
  have hv : vo.1 = v := by simpa using hfst
  exact ⟨vo.2, by rw [← hv], fun ap hap => h.2 vo (by simp) ap (hv ▸ hap)⟩

/-! ## The content proof -/

/-- One of the two DLEQ statements of a ciphertext proof verifies: `c`
encrypts `0` or `1` under the proof's key. -/
def CipherTextProof.Passes (p : CipherTextProof G Proof) (c : CipherText G) : Prop :=
  S.DLEQVerify p.Proof S.Base p.PublicKey c.K (c.C - zeroToPoint S) = none ∨
    S.DLEQVerify p.Proof S.Base p.PublicKey c.K (c.C - oneToPoint S) = none

instance (p : CipherTextProof G Proof) (c : CipherText G) : Decidable (p.Passes S c) := by
  unfold CipherTextProof.Passes
  infer_instance

theorem CipherTextProof.verify_eq (p : CipherTextProof G Proof) (c : CipherText G) :
    p.verify S c (zeroToPoint S) (oneToPoint S) S.Base =
      if p.Passes S c then [true] else [false, true] := by
  dsimp only [CipherTextProof.verify, CipherTextProof.Passes]
  by_cases h0 : S.DLEQVerify p.Proof S.Base p.PublicKey c.K (c.C - zeroToPoint S) = none <;>
    by_cases h1 : S.DLEQVerify p.Proof S.Base p.PublicKey c.K (c.C - oneToPoint S) = none <;>
    simp [h0, h1, Option.isSome_iff_ne_none]

/-- The values sent for a list of proof/ciphertext pairs. -/
theorem length_flatMap_verify (l : List (CipherTextProof G Proof × CipherText G)) :
    (l.flatMap fun pc => pc.1.verify S pc.2 (zeroToPoint S) (oneToPoint S) S.Base).length =
      l.length + l.countP fun pc => !decide (pc.1.Passes S pc.2) := by
  induction l with
  | nil => rfl
  | cons pc l ih =>
      rw [List.flatMap_cons, List.length_append, ih, CipherTextProof.verify_eq, List.countP_cons]
      by_cases h : pc.1.Passes S pc.2 <;> simp [h] <;> omega

theorem all_flatMap_verify_of_passes (l : List (CipherTextProof G Proof × CipherText G))
    (h : ∀ pc ∈ l, pc.1.Passes S pc.2) :
    (l.flatMap fun pc => pc.1.verify S pc.2 (zeroToPoint S) (oneToPoint S) S.Base).all id := by
  simp only [List.all_flatMap, List.all_eq_true]
  intro pc hpc
  simp [CipherTextProof.verify_eq, h pc hpc]

/-- `VerifyCipherVectorProof` panics on a vector shorter than the proof,
returns `true` when every proof passes on its entry, and otherwise never
returns: the failing goroutines fill the channel before anyone reads it. -/
theorem verifyCipherVectorProof_eq (p : CipherVectorProof G Proof) (cv : CipherVector G) :
    verifyCipherVectorProof S p cv =
      if cv.length < p.length then .panic
      else if ∀ pc ∈ p.zip cv, pc.1.Passes S pc.2 then .ok true else .block := by
  unfold verifyCipherVectorProof
  by_cases hlt : cv.length < p.length
  · simp [hlt]
  · have hzip : (p.zip cv).length = p.length := by simp; omega
    simp only [hlt, if_false, length_flatMap_verify, hzip]
    by_cases hall : ∀ pc ∈ p.zip cv, pc.1.Passes S pc.2
    · have h0 : ((p.zip cv).countP fun pc => !decide (pc.1.Passes S pc.2)) = 0 :=
        List.countP_eq_zero.mpr fun pc hpc => by simp [hall pc hpc]
      rw [h0, if_pos hall, all_flatMap_verify_of_passes S _ hall]
      simp
    · have hfails := hall
      push Not at hfails
      obtain ⟨pc, hpc, hfail⟩ := hfails
      have hpos : 0 < ((p.zip cv).countP fun pc => !decide (pc.1.Passes S pc.2)) :=
        List.countP_pos_iff.mpr ⟨pc, hpc, by simp [hfail]⟩
      rw [if_neg hall, if_pos (by omega)]

section Encryption

variable [Field F] [Module F G]

/-- A proof made by `EncryptInt` for a plaintext `0` or `1` passes. -/
theorem passes_encryptInt (hD : S.DLEQComplete) (X : G) {m : ℤ} (hm : m = 0 ∨ m = 1) (k : F) :
    (encryptInt S X m k).2.Passes S (encryptInt S X m k).1 := by
  have hsub : (encryptInt S X m k).1.C - intToPoint S m = k • X := add_sub_cancel_right _ _
  have hok : S.DLEQVerify (S.NewDLEQProof S.Base X k) S.Base X (k • S.Base) (k • X) = none :=
    hD S.Base X k
  rcases hm with rfl | rfl
  · exact Or.inl (by rw [zeroToPoint, hsub]; exact hok)
  · exact Or.inr (by rw [oneToPoint, hsub]; exact hok)

/-- The proofs of `EncryptIntVector` on a vector of zeros and ones verify. -/
theorem verifyCipherVectorProof_encryptIntVector (hD : S.DLEQComplete) (X : G) {ms : List ℤ}
    (hms : ∀ m ∈ ms, m = 0 ∨ m = 1) (ks : ℕ → F) :
    verifyCipherVectorProof S (encryptIntVector S X ms ks).2 (encryptIntVector S X ms ks).1 =
      .ok true := by
  rw [verifyCipherVectorProof_eq]
  have hlen : (encryptIntVector S X ms ks).2.length = (encryptIntVector S X ms ks).1.length := by
    simp [encryptIntVector]
  rw [if_neg (by omega), if_pos]
  -- the pairs are the proof and the ciphertext of one `EncryptInt` call
  intro pc hpc
  simp only [encryptIntVector, List.zip_map'] at hpc
  obtain ⟨cell, hcell, rfl⟩ := List.mem_map.mp hpc
  obtain ⟨⟨m, i⟩, hmi, rfl⟩ := List.mem_map.mp hcell
  obtain ⟨-, -, hm⟩ := List.mem_zipIdx hmi
  exact passes_encryptInt S hD X (hms m (hm ▸ List.getElem_mem _)) (ks i)

end Encryption

/-! ## Sums of contributions -/

theorem CipherText.add_right_comm (a b c : CipherText G) :
    (a.add b).add c = (a.add c).add b := by
  simp only [CipherText.add, CipherText.mk.injEq]
  exact ⟨by abel, by abel⟩

theorem zipWith_add_right_comm (a b c : CipherVector G) :
    List.zipWith CipherText.add (List.zipWith CipherText.add a b) c =
      List.zipWith CipherText.add (List.zipWith CipherText.add a c) b := by
  induction a generalizing b c with
  | nil => rfl
  | cons x a ih =>
      cases b with
      | nil => cases c <;> rfl
      | cons y b =>
          cases c with
          | nil => rfl
          | cons z c => simp [CipherText.add_right_comm, ih]

/-- Adding into the null vector of the same length gives the added vector. -/
theorem zipWith_add_newCipherVector {cv : CipherVector G} {n : ℕ} (h : cv.length = n) :
    List.zipWith CipherText.add (newCipherVector n) cv = cv := by
  subst h
  induction cv with
  | nil => rfl
  | cons c cv ih =>
      simp only [List.length_cons, newCipherVector, List.replicate_succ, List.zipWith_cons_cons]
      rw [← newCipherVector, ih]
      simp [CipherText.add, newCipherText]

/-- The summing loop over contributions that decode, at the proof's length,
to `dec c` adds the decoded vectors in the order of the loop. -/
theorem sumContributions_eq {n : ℕ} {dec : Bytes → CipherVector G} :
    ∀ (cs : List Bytes) (tmp : CipherVector G), tmp.length ≤ n →
      (∀ c ∈ cs, CipherVector.fromBytes S c n = .ok (dec c)) →
      sumContributions S n cs tmp =
        .ok (cs.foldl (fun t c => List.zipWith CipherText.add t (dec c)) tmp)
  | [], _, _, _ => rfl
  | c :: cs, tmp, htmp, hdec => by
      have hc := hdec c (by simp)
      have hlen : (dec c).length = n := CipherVector.length_of_fromBytes hc
      have hsum : (List.zipWith CipherText.add tmp (dec c)).length ≤ n := by simp; omega
      simp only [sumContributions, hc, Outcome.ok_bind, CipherVector.add_self (by omega : tmp.length ≤ (dec c).length)]
      exact sumContributions_eq cs _ hsum fun c' hc' => hdec c' (by simp [hc'])

/-- The summing loop panics when a contribution is too short to decode at
the proof's length, or when there is a contribution and the running sum is
longer than the proof's length: `Add` then indexes past the decoded vector. -/
theorem sumContributions_eq_panic {n : ℕ} :
    ∀ {cs : List Bytes} {tmp : CipherVector G},
      (∃ c ∈ cs, c.length < n * 64) ∨ (cs ≠ [] ∧ n < tmp.length) → sumContributions S n cs tmp = .panic
  | [], _, h => by simp at h
  | c :: cs, tmp, h => by
      by_cases hc : c.length < n * 64
      · simp [sumContributions, CipherVector.fromBytes_of_lt hc]
      rw [sumContributions, CipherVector.fromBytes_of_le (by omega), Outcome.ok_bind]
      by_cases htmp : n < tmp.length
      · rw [CipherVector.add_self_of_lt (by simpa using htmp), Outcome.panic_bind]
      -- the sum fits, so the panic comes from a later contribution
      have hshort : ∃ c' ∈ cs, c'.length < n * 64 := by
        rcases h with ⟨c', hc', hlt⟩ | ⟨-, hlt⟩
        · rcases List.mem_cons.mp hc' with rfl | hc'
          · exact absurd hlt hc
          · exact ⟨c', hc', hlt⟩
        · exact absurd hlt htmp
      rw [CipherVector.add_self (by simp; omega), Outcome.ok_bind]
      exact sumContributions_eq_panic (.inl hshort)

/-- **The summing loop does not depend on the iteration order.**  Any
permutation of the contributions gives the same sum, or the same panic. -/
theorem sumContributions_perm {n : ℕ} {cs cs' : List Bytes} (hperm : cs.Perm cs') (tmp : CipherVector G) :
    sumContributions S n cs tmp = sumContributions S n cs' tmp := by
  by_cases hpanic : (∃ c ∈ cs, c.length < n * 64) ∨ (cs ≠ [] ∧ n < tmp.length)
  · -- a short contribution, or a long sum, panics in every order
    have hpanic' : (∃ c ∈ cs', c.length < n * 64) ∨ (cs' ≠ [] ∧ n < tmp.length) := by
      rcases hpanic with ⟨c, hc, hlt⟩ | ⟨hne, hlt⟩
      · exact .inl ⟨c, hperm.mem_iff.mp hc, hlt⟩
      · exact .inr ⟨fun h => hne (by subst h; exact hperm.eq_nil), hlt⟩
    rw [sumContributions_eq_panic S hpanic, sumContributions_eq_panic S hpanic']
  push Not at hpanic
  obtain ⟨hlong, hfit⟩ := hpanic
  by_cases hnil : cs = []
  · subst hnil
    rw [List.nil_perm.mp hperm]
  -- every contribution decodes and the sum fits: the sums are one fold, in two orders
  have hdec : ∀ c ∈ cs, CipherVector.fromBytes S c n =
      .ok ((List.range n).map fun pos => CipherText.fromBytes S ((c.drop (64 * pos)).take 64)) :=
    fun c hc => CipherVector.fromBytes_of_le (hlong c hc)
  rw [sumContributions_eq S cs tmp (hfit hnil) hdec,
    sumContributions_eq S cs' tmp (hfit hnil) fun c hc => hdec c (hperm.mem_iff.mpr hc)]
  exact congrArg Outcome.ok (hperm.foldl_eq' (fun _ _ _ _ t => zipWith_add_right_comm _ _ _) tmp)

/-- In the suite on `ZMod 7`, with a vector of one ciphertext: two
contributions sum to the same vector in either order, and an empty
contribution panics in either order. -/
theorem sumContributions_perm_zmod7 :
    [(CipherVector.toBytes Suite.zmod7 [⟨1, 2⟩]).1, (CipherVector.toBytes Suite.zmod7 [⟨3, 4⟩]).1].Perm
        [(CipherVector.toBytes Suite.zmod7 [⟨3, 4⟩]).1, (CipherVector.toBytes Suite.zmod7 [⟨1, 2⟩]).1] ∧
      sumContributions Suite.zmod7 1 [(CipherVector.toBytes Suite.zmod7 [⟨1, 2⟩]).1,
          (CipherVector.toBytes Suite.zmod7 [⟨3, 4⟩]).1] (newCipherVector 1) =
        sumContributions Suite.zmod7 1 [(CipherVector.toBytes Suite.zmod7 [⟨3, 4⟩]).1,
          (CipherVector.toBytes Suite.zmod7 [⟨1, 2⟩]).1] (newCipherVector 1) ∧
      [[], (CipherVector.toBytes Suite.zmod7 [⟨1, 2⟩]).1].Perm [(CipherVector.toBytes Suite.zmod7 [⟨1, 2⟩]).1, []] ∧
      sumContributions Suite.zmod7 1 [[], (CipherVector.toBytes Suite.zmod7 [⟨1, 2⟩]).1] (newCipherVector 1) = .panic ∧
      sumContributions Suite.zmod7 1 [[], (CipherVector.toBytes Suite.zmod7 [⟨1, 2⟩]).1] (newCipherVector 1) =
        sumContributions Suite.zmod7 1 [(CipherVector.toBytes Suite.zmod7 [⟨1, 2⟩]).1, []] (newCipherVector 1) :=
  ⟨.swap _ _ _, sumContributions_perm Suite.zmod7 (.swap _ _ _) _, .swap _ _ _, rfl,
    sumContributions_perm Suite.zmod7 (.swap _ _ _) _⟩

section Compare

variable [DecidableEq G]

omit [AddCommGroup G] in
theorem sumMatches_self : ∀ a : CipherVector G, sumMatches a a = .ok true
  | [] => rfl
  | w :: a => by simp [sumMatches, sumMatches_self a]

/-- `VerifyAggregationProofWithAggregation` accepts the sum, in any order, of
contributions that decode at the proof's length. -/
theorem verifyWithAggregation_of_sum (p : AggregationProof) (order : List Bytes)
    {dec : Bytes → CipherVector G} (hdec : ∀ c ∈ order, CipherVector.fromBytes S c p.Length = .ok (dec c))
    {a : CipherVector G} (hlen : a.length ≤ p.Length)
    (ha : a = order.foldl (fun t c => List.zipWith CipherText.add t (dec c)) (newCipherVector a.length)) :
    p.verifyWithAggregation S order a = .ok true := by
  rw [AggregationProof.verifyWithAggregation,
    sumContributions_eq S order _ (by simpa using hlen) hdec, ← ha, Outcome.ok_bind, sumMatches_self]


omit [DecidableEq G] in
/-- Adding vectors of length `n` into one of length `n` keeps the length. -/
theorem length_foldl_zipWith_add {n : ℕ} :
    ∀ (vs : List (CipherVector G)) (t : CipherVector G), t.length = n → (∀ v ∈ vs, v.length = n) →
      (vs.foldl (List.zipWith CipherText.add) t).length = n
  | [], _, ht, _ => ht
  | v :: vs, t, ht, hvs => by
      rw [List.foldl_cons]
      refine length_foldl_zipWith_add vs _ ?_ fun w hw => hvs w (by simp [hw])
      rw [List.length_zipWith, ht, hvs v (by simp), Nat.min_self]

/-- `VerifyAggregationProofWithAggregation` accepts the sum of vectors of the
proof's length whose encodings are the contributions, in any order. -/
theorem verifyWithAggregation_of_perm (hM : S.MarshalRoundTrip) {p : AggregationProof}
    {order : List Bytes} {vs : List (CipherVector G)}
    (hperm : order.Perm (vs.map fun v => (v.toBytes S).1)) (hvs : ∀ v ∈ vs, v.length = p.Length) :
    p.verifyWithAggregation S order
      (vs.foldl (List.zipWith CipherText.add) (newCipherVector p.Length)) = .ok true := by
  -- decoding at the proof's length inverts the encoding of every vector of `vs`
  set dec : Bytes → CipherVector G := fun c => (CipherVector.fromBytes S c p.Length).getD []
  have hround : ∀ v ∈ vs, CipherVector.fromBytes S (v.toBytes S).1 p.Length = .ok v := fun v hv =>
    hvs v hv ▸ CipherVector.fromBytes_toBytes hM v
  have hdecv : ∀ v ∈ vs, dec (v.toBytes S).1 = v := fun v hv => by simp [dec, hround v hv]
  have hdec : ∀ c ∈ order, CipherVector.fromBytes S c p.Length = .ok (dec c) := by
    intro c hc
    obtain ⟨v, hv, rfl⟩ := List.mem_map.mp (hperm.mem_iff.mp hc)
    rw [hdecv v hv, hround v hv]
  have hlen := length_foldl_zipWith_add vs _ (length_newCipherVector p.Length) hvs
  refine verifyWithAggregation_of_sum S p order hdec hlen.le ?_
  rw [hlen, hperm.foldl_eq' (fun _ _ _ _ t => zipWith_add_right_comm _ _ _), List.foldl_map]
  have hmap : vs.map (fun v => dec (v.toBytes S).1) = vs :=
    (List.map_congr_left hdecv).trans (by simp)
  conv_lhs => rw [← hmap, List.foldl_map]

/-- `VerifyCompleteProofs` returns `true` exactly when the body accepts every
entry of the run. -/
theorem verifyCompleteProofsIn_eq_true_iff (p : CompleteProofs G Proof) :
    ∀ visits : List (CompleteProof G Proof × List Bytes),
      verifyCompleteProofsIn S p visits = .ok true ↔
        ∀ vo ∈ visits, verifyCompleteProof S p vo.2 vo.1 = .ok true
  | [] => by simp [verifyCompleteProofsIn]
  | (v, order) :: vs => by
      rw [verifyCompleteProofsIn, Outcome.bind_eq_ok, List.forall_mem_cons,
        ← verifyCompleteProofsIn_eq_true_iff p vs]
      constructor
      · rintro ⟨ok, hv, hrest⟩
        cases ok with
        | false => simp at hrest
        | true => exact ⟨hv, hrest⟩
      · rintro ⟨hv, hrest⟩
        exact ⟨true, hv, hrest⟩

/-- The checks of the body of `VerifyCompleteProofs` that an entry must pass:
its signature on its aggregation, its place in the tree, its vector in the
root's contributions, the content proof if it is a leaf, and its
aggregation proof. -/
theorem verifyCompleteProof_of_checks {p : CompleteProofs G Proof} {order : List Bytes}
    {v : CompleteProof G Proof} {ap : AggregationProof} {tree : Tree G} {node : TreeNode G}
    {root : CompleteProof G Proof} {rap : AggregationProof} {filter : CipherVector G}
    (hap : v.AggregationProof = some ap)
    (hsig : S.SchnorrVerify v.PublicKey (S.HashSum ap.Aggregation) v.EncryptedCBFSetSignature = none)
    (htree : v.MadeTree = some tree) (hnode : tree.Search v.TreeNodeID = some node)
    (hpub : node.Public = v.PublicKey)
    (hroot : p.lookup (S.PointString tree.Root.Public) = some root)
    (hrap : root.AggregationProof = some rap)
    (hcontrib : rap.Contributions.lookup (S.PointString v.PublicKey) = some v.EncryptedBloomFilter)
    (hfilter : CipherVector.fromBytes S v.EncryptedBloomFilter ap.Length = .ok filter)
    (hleaf : node.ChildCount = 0 →
      ∃ cvp, v.CipherVectorProof = some cvp ∧ verifyCipherVectorProof S cvp filter = .ok true)
    (hagg : ap.verify S order = .ok true) :
    verifyCompleteProof S p order v = .ok true := by
  unfold verifyCompleteProof
  simp only [hap, hsig, Option.isSome_none, Bool.false_eq_true, if_false, htree, hnode, hpub,
    ne_eq, not_true_eq_false, hroot, hrap, hcontrib, Option.getD_some, hfilter, Outcome.ok_bind]
  by_cases hleafNode : node.ChildCount = 0
  · obtain ⟨cvp, hcvp, hver⟩ := hleaf hleafNode
    simp [hleafNode, hcvp, hver, hagg]
  · simp [hleafNode, hagg]

section Ghost

variable [Field F] [Module F G]

/-- An entry passes the checks of `VerifyCompleteProofs` when it signs the sum
of the vectors `vs` that its contributions encode, sits at its node of the
tree, finds its own vector `own` in the root's contributions and, at a leaf,
proves the content of `own`. -/
theorem verifyCompleteProof_of_signed_sum (hM : S.MarshalRoundTrip)
    (hS : S.SchnorrComplete) {p : CompleteProofs G Proof} {order : List Bytes}
    {v : CompleteProof G Proof} {ap : AggregationProof} {x : F} {vs : List (CipherVector G)}
    {tree : Tree G} {node : TreeNode G} {root : CompleteProof G Proof} {rap : AggregationProof}
    {own : CipherVector G}
    (hap : v.AggregationProof = some ap) (hvs : ∀ w ∈ vs, w.length = ap.Length)
    (horder : order.Perm (vs.map fun w => (w.toBytes S).1))
    (hagg : ap.Aggregation = (CipherVector.toBytes S
      (vs.foldl (List.zipWith CipherText.add) (newCipherVector ap.Length))).1)
    (hpub : v.PublicKey = x • S.Base)
    (hsig : v.EncryptedCBFSetSignature = S.SchnorrSign x (S.HashSum ap.Aggregation))
    (htree : v.MadeTree = some tree) (hnode : tree.Search v.TreeNodeID = some node)
    (hnodePub : node.Public = x • S.Base)
    (hroot : p.lookup (S.PointString tree.Root.Public) = some root)
    (hrap : root.AggregationProof = some rap)
    (hcontrib : rap.Contributions.lookup (S.PointString (x • S.Base)) = some v.EncryptedBloomFilter)
    (hebf : v.EncryptedBloomFilter = (own.toBytes S).1) (hown : own.length = ap.Length)
    (hleaf : node.ChildCount = 0 →
      ∃ cvp, v.CipherVectorProof = some cvp ∧ verifyCipherVectorProof S cvp own = .ok true) :
    verifyCompleteProof S p order v = .ok true := by
  have hsum := length_foldl_zipWith_add vs _ (length_newCipherVector ap.Length) hvs
  have hverify : ap.verify S order = .ok true := by
    have hdecode := CipherVector.fromBytes_toBytes hM
      (vs.foldl (List.zipWith CipherText.add) (newCipherVector ap.Length))
    rw [hsum] at hdecode
    rw [AggregationProof.verify, hagg, hdecode, Outcome.ok_bind]
    exact verifyWithAggregation_of_perm S hM horder hvs
  have hfilter : CipherVector.fromBytes S v.EncryptedBloomFilter ap.Length = .ok own := by
    rw [hebf, ← hown]
    exact CipherVector.fromBytes_toBytes hM own
  refine verifyCompleteProof_of_checks S hap ?_ htree hnode (hnodePub.trans hpub.symm) hroot hrap
    (hpub ▸ hcontrib) hfilter hleaf hverify
  rw [hsig, hpub]
  exact hS x _

/-! ## A contribution under a key that no entry has

The root alone can send a map in which its aggregation proof lists, next to
its own vector, any vector under any key that no entry of the map has, and
sign the sum.  As a non-leaf node it is not asked for a content proof. -/

/-- The aggregation proof of the root `X`: its own vector under its key and
`extra` under `ghost`, with their sum as the aggregation. -/
def ghostAggregationProof (X : G) (own extra : CipherVector G) (ghost : String) :
    AggregationProof :=
  let sum : CipherVector G := List.zipWith CipherText.add own extra
  createAggregationiProof
    (((∅ : StrMap Bytes).insert (S.PointString X) (own.toBytes S).1).insert ghost (extra.toBytes S).1)
    (sum.toBytes S).1 (sum.toBytes S).2

/-- The root's entry, for the key `x • B` at tree node `0`, signed with `x`
and without a content proof. -/
def ghostRootEntry (x : F) (tree : Tree G) (own extra : CipherVector G) (ghost : String) :
    CompleteProof G Proof :=
  let ap := ghostAggregationProof S (x • S.Base) own extra ghost
  { MadeTree := some tree
    PublicKey := x • S.Base
    AggregationProof := some ap
    CipherVectorProof := none
    EncryptedCBFSetSignature := S.SchnorrSign x (S.HashSum ap.Aggregation)
    TreeNodeID := 0
    EncryptedBloomFilter := (own.toBytes S).1 }

/-- The map holding the root's entry alone. -/
def ghostContributionProofs (x : F) (tree : Tree G) (own extra : CipherVector G) (ghost : String) :
    CompleteProofs G Proof :=
  (∅ : CompleteProofs G Proof).insert (S.PointString (x • S.Base)) (ghostRootEntry S x tree own extra ghost)

variable {S}

omit [Field F] [Module F G] [DecidableEq G] in
theorem ghostAggregationProof_values {X : G} {own extra : CipherVector G} {ghost : String}
    (hghost : ghost ≠ S.PointString X) :
    (ghostAggregationProof S X own extra ghost).Contributions.values =
      [(extra.toBytes S).1, (own.toBytes S).1] := by
  have hk : List.kerase ghost
      [(⟨S.PointString X, (own.toBytes S).1⟩ : (_ : String) × Bytes)] =
      [⟨S.PointString X, (own.toBytes S).1⟩] := by
    rw [List.kerase_cons_ne hghost, List.kerase_nil]
  simp [ghostAggregationProof, createAggregationiProof, StrMap.values, AList.entries_insert, hk]

omit [Field F] [Module F G] in
/-- The root's aggregation proof verifies, whatever the order of its two
contributions. -/
theorem ghostAggregationProof_verify (hM : S.MarshalRoundTrip) {X : G} {own extra : CipherVector G}
    (hlen : extra.length = own.length) {ghost : String} (hghost : ghost ≠ S.PointString X)
    {order : List Bytes}
    (horder : order.Perm (ghostAggregationProof S X own extra ghost).Contributions.values) :
    (ghostAggregationProof S X own extra ghost).verify S order = .ok true := by
  set sum : CipherVector G := List.zipWith CipherText.add own extra
  have hsumLen : sum.length = own.length := by simp [sum, hlen]
  -- the two contributions decode to `own` and `extra`, also when their bytes agree
  set dec : Bytes → CipherVector G := fun c => if c = (own.toBytes S).1 then own else extra
  have hdecO : dec (own.toBytes S).1 = own := if_pos rfl
  have hdecE : dec (extra.toBytes S).1 = extra := by
    by_cases h : (extra.toBytes S).1 = (own.toBytes S).1
    · have hown := CipherVector.fromBytes_toBytes hM own
      have hextra := CipherVector.fromBytes_toBytes hM extra
      rw [h, hlen, hown] at hextra
      rw [h, hdecO]
      exact Outcome.ok.inj hextra
    · exact if_neg h
  have hdec : ∀ c ∈ order, CipherVector.fromBytes S c sum.length = .ok (dec c) := by
    intro c hc
    rw [horder.mem_iff, ghostAggregationProof_values hghost] at hc
    rcases List.mem_pair.mp hc with rfl | rfl
    · rw [hdecE, hsumLen, ← hlen]
      exact CipherVector.fromBytes_toBytes hM extra
    · rw [hdecO, hsumLen]
      exact CipherVector.fromBytes_toBytes hM own
  have hfold : order.foldl (fun t c => List.zipWith CipherText.add t (dec c))
      (newCipherVector sum.length) = sum := by
    rw [horder.foldl_eq' (fun _ _ _ _ t => zipWith_add_right_comm _ _ _),
      ghostAggregationProof_values hghost, List.foldl_cons, List.foldl_cons, List.foldl_nil, hdecE,
      hdecO, zipWith_add_right_comm, hsumLen, zipWith_add_newCipherVector rfl]
  unfold AggregationProof.verify
  rw [show (ghostAggregationProof S X own extra ghost).Aggregation = (sum.toBytes S).1 from rfl,
    show (ghostAggregationProof S X own extra ghost).Length = sum.length from rfl,
    CipherVector.fromBytes_toBytes hM sum, Outcome.ok_bind]
  exact verifyWithAggregation_of_sum S (ghostAggregationProof S X own extra ghost) order hdec le_rfl
    hfold.symm

/-- `VerifyCompleteProofs` accepts the root's map with a contribution under a
key that no entry has, in every iteration order. -/
theorem verifyCompleteProofs_accepts_ghost_contribution (hM : S.MarshalRoundTrip)
    (hS : S.SchnorrComplete) (x : F) (tree : Tree G) (hroot : tree.Root.Public = x • S.Base)
    (hsearch : tree.Search 0 = some tree.Root) (hinner : tree.Root.ChildCount ≠ 0)
    (own extra : CipherVector G) (hlen : extra.length = own.length)
    (ghost : String) (hghost : ghost ≠ S.PointString (x • S.Base))
    (visits : List (CompleteProof G Proof × List Bytes))
    (hvisits : Visits (ghostContributionProofs S x tree own extra ghost) visits) :
    verifyCompleteProofsIn S (ghostContributionProofs S x tree own extra ghost) visits = .ok true := by
  obtain ⟨order, rfl, horder⟩ := hvisits.eq_singleton (v := ghostRootEntry S x tree own extra ghost)
    (by simp [ghostContributionProofs, StrMap.values])
  rw [verifyCompleteProofsIn_eq_true_iff, List.forall_mem_singleton]
  have hLen : (ghostAggregationProof S (x • S.Base) own extra ghost).Length = own.length := by
    simp [ghostAggregationProof, createAggregationiProof, CipherVector.toBytes, hlen]
  have hfilter : CipherVector.fromBytes S (own.toBytes S).1
      (ghostAggregationProof S (x • S.Base) own extra ghost).Length = .ok own := by
    rw [hLen]
    exact CipherVector.fromBytes_toBytes hM own
  have hlookup : (ghostContributionProofs S x tree own extra ghost).lookup
      (S.PointString tree.Root.Public) = some (ghostRootEntry S x tree own extra ghost) := by
    rw [hroot]
    exact AList.lookup_insert _
  have hcontrib : (ghostAggregationProof S (x • S.Base) own extra ghost).Contributions.lookup
      (S.PointString (x • S.Base)) = some (own.toBytes S).1 := by
    show AList.lookup (S.PointString (x • S.Base)) (((∅ : StrMap Bytes).insert
      (S.PointString (x • S.Base)) (own.toBytes S).1).insert ghost (extra.toBytes S).1) = _
    rw [AList.lookup_insert_ne hghost.symm, AList.lookup_insert]
  exact verifyCompleteProof_of_checks S rfl (hS x _) rfl hsearch hroot hlookup rfl hcontrib hfilter
    (fun h => absurd h hinner) (ghostAggregationProof_verify hM hlen hghost (horder _ rfl))

/-- In the suite on `ZMod 7`: the root `3`, with one child, sends its own
vector `[(1, 1)]` and, under the key `"ghost"`, the encryption `(0, 5)` of `5`. -/
theorem verifyCompleteProofs_ghost_zmod7 :
    verifyCompleteProofsIn Suite.zmod7
      (ghostContributionProofs Suite.zmod7 3 ⟨⟨3, 1⟩, fun n => if n = 0 then some ⟨3, 1⟩ else none⟩
        [⟨1, 1⟩] [⟨0, 5⟩] "ghost")
      (ghostContributionProofs Suite.zmod7 3 ⟨⟨3, 1⟩, fun n => if n = 0 then some ⟨3, 1⟩ else none⟩
        [⟨1, 1⟩] [⟨0, 5⟩] "ghost").inOrder = .ok true := by
  refine verifyCompleteProofs_accepts_ghost_contribution Suite.zmod7_marshalRoundTrip
    Suite.zmod7_schnorrComplete 3 ⟨⟨3, 1⟩, fun n => if n = 0 then some ⟨3, 1⟩ else none⟩
    ?_ ?_ ?_ _ _ ?_ "ghost" ?_ _ (visits_inOrder _)
  · decide
  · rfl
  · decide
  · rfl
  · decide

end Ghost

end Compare

end Decenarch
