import Decenarch.ConsensusStructured

/-!
# An honest run of the structured consensus

The service runs `ConsensusStructured` on the tree `GenerateNaryTree(n)` of
its roster: the root and, below it, every other conode as a leaf.  When every
conode follows the protocol, every leaf's reply passes the root's checks,
the root adds every vector into its own, and the map of proofs the root
broadcasts passes `VerifyCompleteProofs` at every conode, in every order in
which the root takes the replies and every conode iterates over the maps.
The root's aggregation proof also accepts the vector that the root sends in
`PromptDecrypt`.

The run is followed in three steps: what an honest leaf returns, what the
root's loop makes of honest replies, and what the checks make of the root's
map.
-/

namespace Decenarch

variable {F G Proof : Type} [Field F] [AddCommGroup G] [Module F G]
variable (S : Suite F G Proof) (hashes : Bytes → ℕ × ℕ)

/-! ## Honest leaves

An honest leaf sends its encrypted filter and a map with its entry alone:
its aggregation proof lists its own vector, which it signs, and its content
proof covers every entry of the vector. -/

/-- What an honest leaf's reply is made of: its secret key, its tree node,
its encrypted vector and the proofs of its entries. -/
structure LeafData (F G Proof : Type) where
  secret : F
  node : ℕ
  ev : CipherVector G
  cvp : CipherVectorProof G Proof

/-- The entry of an honest leaf in its map. -/
def leafEntry (tree : Tree G) (d : LeafData F G Proof) : CompleteProof G Proof :=
  let bytes := d.ev.toBytes S
  { MadeTree := some tree
    PublicKey := d.secret • S.Base
    AggregationProof := some (createAggregationiProof
      ((∅ : StrMap Bytes).insert (S.PointString (d.secret • S.Base)) bytes.1) bytes.1 bytes.2)
    CipherVectorProof := some d.cvp
    EncryptedCBFSetSignature := S.SchnorrSign d.secret (S.HashSum bytes.1)
    TreeNodeID := d.node
    EncryptedBloomFilter := bytes.1 }

/-- The reply of an honest leaf, as its parent receives it. -/
def leafReply (tree : Tree G) (d : LeafData F G Proof) : StructSaveReplyStructured G Proof :=
  ⟨d.secret • S.Base, some d.ev,
    (∅ : CompleteProofs G Proof).insert (S.PointString (d.secret • S.Base)) (leafEntry S tree d)⟩

/-- A reply of an honest leaf of `tree` whose vector has `n` entries. -/
def HonestLeafReply (tree : Tree G) (n : ℕ) (r : StructSaveReplyStructured G Proof) : Prop :=
  ∃ d : LeafData F G Proof, r = leafReply S tree d ∧ d.ev.length = n ∧
    verifyCipherVectorProof S d.cvp d.ev = .ok true ∧ tree.Search d.node = some ⟨d.secret • S.Base, 0⟩

/-- An honest leaf with secret `p.Private` returns the reply of its filter's
encryption, whatever replies it is handed. -/
theorem aggregateCBF_leaf (hD : S.DLEQComplete) {p : ConsensusStructuredState F G Proof}
    (hpub : p.Public = p.Private • S.Base) (hleaf : p.IsLeaf = true) (hM : 0 < p.ParametersCBF.1)
    (hsearch : p.Tree.Search p.TreeNodeID = some ⟨p.Public, 0⟩) (locTree : Node) (ks : ℕ → F)
    (reply : List (StructSaveReplyStructured G Proof)) :
    ∃ p', aggregateCBF S hashes p locTree ks reply = .ok p' ∧ p'.Public = p.Public ∧
      HonestLeafReply S p.Tree p.ParametersCBF.1 (replyToParent p') := by
  obtain ⟨set, hfill, hloc⟩ := localContribution_spec S hashes hM locTree ks
  have hmine : (localAggregation S p set ks).CompleteProofs.lookup (S.PointString p.Public) =
      some _ := AList.lookup_insert _
  simp only [aggregateCBF, hloc, hleaf, hmine, Outcome.ok_bind, if_true]
  refine ⟨_, rfl, rfl, ⟨p.Private, p.TreeNodeID, (encryptIntVector S p.SharedKey set ks).1,
      (encryptIntVector S p.SharedKey set ks).2⟩, ?_, ?_, ?_, ?_⟩
  · simp only [replyToParent, leafReply, localAggregation, localEntry, AList.insert_insert, hpub]
    rfl
  · rw [length_encryptIntVector, hfill.length_eq]
  · exact verifyCipherVectorProof_encryptIntVector S hD _ hfill.zero_one ks
  · rw [← hpub]
    exact hsearch

/-! ## The parent's loop over honest leaves -/

/-- What accepting the reply of the honest leaf `d` does to the loop's
state. -/
def acceptLeaf (tree : Tree G) (acc : Aggregation G Proof) (d : LeafData F G Proof) :
    Aggregation G Proof :=
  ⟨acc.CompleteProofs.insert (S.PointString (d.secret • S.Base)) (leafEntry S tree d),
    acc.childrenContributions.insert (S.PointString (d.secret • S.Base)) (d.ev.toBytes S).1,
    List.zipWith CipherText.add acc.EncryptedCBFSet d.ev⟩

theorem aggregateReply_leafReply (hS : S.SchnorrComplete) (tree : Tree G) {acc : Aggregation G Proof}
    {d : LeafData F G Proof} (hlen : acc.EncryptedCBFSet.length ≤ d.ev.length)
    (hcvp : verifyCipherVectorProof S d.cvp d.ev = .ok true) :
    aggregateReply S acc (leafReply S tree d) = .ok (acceptLeaf S tree acc d) := by
  have hvalid : childValid S
      (acc.CompleteProofs.insert (S.PointString (d.secret • S.Base)) (leafEntry S tree d))
      (leafReply S tree d) d.ev (d.ev.toBytes S).1 = verifyCipherVectorProof S d.cvp d.ev :=
    childValid_of_signed S (AList.lookup_insert _) (hS _ _) (AList.lookup_insert _) rfl
  rw [hcvp, ← storeChildProofs_singleton] at hvalid
  rw [aggregateReply_of_valid S rfl hvalid, if_pos hlen]
  rfl

/-- The loop over replies of honest leaves with vectors of `n` entries
accepts every one of them. -/
theorem aggregateReplies_honest (hS : S.SchnorrComplete) (tree : Tree G) {n : ℕ} :
    ∀ (rs : List (StructSaveReplyStructured G Proof)) (acc : Aggregation G Proof),
      acc.EncryptedCBFSet.length = n → (∀ r ∈ rs, HonestLeafReply S tree n r) →
      ∃ ds : List (LeafData F G Proof), rs = ds.map (leafReply S tree) ∧
        (∀ d ∈ ds, d.ev.length = n ∧ tree.Search d.node = some ⟨d.secret • S.Base, 0⟩ ∧
          verifyCipherVectorProof S d.cvp d.ev = .ok true) ∧
        aggregateReplies S acc rs = .ok (ds.foldl (acceptLeaf S tree) acc)
  | [], acc, _, _ => ⟨[], rfl, by simp, rfl⟩
  | r :: rs, acc, hacc, hrs => by
      obtain ⟨d, rfl, hlen, hcvp, hsearch⟩ := hrs r (by simp)
      have hacc' : (acceptLeaf S tree acc d).EncryptedCBFSet.length = n := by
        simp [acceptLeaf, hacc, hlen]
      obtain ⟨ds, rfl, hds, hrun⟩ :=
        aggregateReplies_honest hS tree rs _ hacc' fun r' hr' => hrs r' (by simp [hr'])
      refine ⟨d :: ds, rfl, ?_, ?_⟩
      · intro d' hd'
        rcases List.mem_cons.mp hd' with rfl | hd'
        · exact ⟨hlen, hsearch, hcvp⟩
        · exact hds d' hd'
      · rw [aggregateReplies, aggregateReply_leafReply S hS tree (by omega) hcvp, Outcome.ok_bind,
          hrun, List.foldl_cons]

/-- The loop's state after accepting the leaves `ds`: each map has the leaves'
writes, and the sum has their vectors. -/
theorem foldl_acceptLeaf (tree : Tree G) :
    ∀ (ds : List (LeafData F G Proof)) (acc : Aggregation G Proof),
      ds.foldl (acceptLeaf S tree) acc =
        ⟨AList.insertList (fun d => S.PointString (d.secret • S.Base)) (leafEntry S tree) ds
            acc.CompleteProofs,
          AList.insertList (fun d => S.PointString (d.secret • S.Base)) (fun d => (d.ev.toBytes S).1)
            ds acc.childrenContributions,
          (ds.map LeafData.ev).foldl (List.zipWith CipherText.add) acc.EncryptedCBFSet⟩
  | [], _ => rfl
  | d :: ds, acc => foldl_acceptLeaf tree ds (acceptLeaf S tree acc d)

/-! ## The parent's result -/

/-- The entry of a parent that accepted the honest leaves `ds`, after its own
counter vector `set`: its aggregation proof lists every accepted vector. -/
def parentEntry (p : ConsensusStructuredState F G Proof) (set : List ℤ) (ks : ℕ → F)
    (ds : List (LeafData F G Proof)) : CompleteProof G Proof :=
  let acc := ds.foldl (acceptLeaf S p.Tree) (localAggregation S p set ks)
  let bytesEncrypted := acc.EncryptedCBFSet.toBytes S
  { localEntry S p set ks with
    AggregationProof := some (createAggregationiProof acc.childrenContributions
      bytesEncrypted.1 bytesEncrypted.2)
    EncryptedCBFSetSignature := S.SchnorrSign p.Private (S.HashSum bytesEncrypted.1) }

/-- The state of a parent that accepted the honest leaves `ds`. -/
def parentResult (p : ConsensusStructuredState F G Proof) (set : List ℤ) (ks : ℕ → F)
    (ds : List (LeafData F G Proof)) : ConsensusStructuredState F G Proof :=
  let acc := ds.foldl (acceptLeaf S p.Tree) (localAggregation S p set ks)
  { p with
    EncryptedCBFSet := some acc.EncryptedCBFSet
    CompleteProofs := acc.CompleteProofs.insert (S.PointString p.Public) (parentEntry S p set ks ds) }

/-- A parent whose children are honest leaves, none with the parent's key,
accepts all of them. -/
theorem aggregateCBF_parent (hS : S.SchnorrComplete) {p : ConsensusStructuredState F G Proof}
    (hinner : p.IsLeaf = false) (hM : 0 < p.ParametersCBF.1) (locTree : Node) (ks : ℕ → F)
    {rs : List (StructSaveReplyStructured G Proof)}
    (hrs : ∀ r ∈ rs, HonestLeafReply S p.Tree p.ParametersCBF.1 r)
    (hfresh : ∀ r ∈ rs, S.PointString r.Public ≠ S.PointString p.Public) :
    ∃ set ds, FilledFrom hashes p.ParametersCBF.1 p.ParametersCBF.2 locTree set ∧
      rs = ds.map (leafReply S p.Tree) ∧
      (∀ d ∈ ds, d.ev.length = p.ParametersCBF.1 ∧
        p.Tree.Search d.node = some ⟨d.secret • S.Base, 0⟩ ∧
        verifyCipherVectorProof S d.cvp d.ev = .ok true) ∧
      aggregateCBF S hashes p locTree ks rs = .ok (parentResult S p set ks ds) := by
  obtain ⟨set, hfill, hloc⟩ := localContribution_spec S hashes hM locTree ks
  have hlen : (localAggregation S p set ks).EncryptedCBFSet.length = p.ParametersCBF.1 := by
    simp [localAggregation, length_encryptIntVector, hfill.length_eq]
  obtain ⟨ds, rfl, hds, hrun⟩ := aggregateReplies_honest S hS p.Tree rs _ hlen hrs
  -- no child overwrites the parent's own entry
  have hmine : (ds.foldl (acceptLeaf S p.Tree) (localAggregation S p set ks)).CompleteProofs.lookup
      (S.PointString p.Public) = some (localEntry S p set ks) := by
    rw [foldl_acceptLeaf]
    dsimp only
    rw [AList.lookup_insertList_of_forall_ne (fun d => S.PointString (d.secret • S.Base))
      (leafEntry S p.Tree) _ fun d hd => hfresh (leafReply S p.Tree d) (List.mem_map_of_mem hd)]
    exact AList.lookup_insert _
  refine ⟨set, ds, hfill, rfl, hds, ?_⟩
  simp only [aggregateCBF, hloc, hinner, Outcome.ok_bind, Bool.false_eq_true, if_false, hrun, hmine]
  -- the record keeps `p.IsLeaf`, which the simp set rewrote to `false`
  simp only [parentResult, parentEntry, hinner]

/-- The parent's sum after accepting leaves with vectors of its length: its
own vector followed by the leaves', added into the null vector. -/
theorem sum_foldl_acceptLeaf (tree : Tree G) (acc : Aggregation G Proof) {n : ℕ}
    (hacc : acc.EncryptedCBFSet.length = n) {ds : List (LeafData F G Proof)}
    (hds : ∀ d ∈ ds, d.ev.length = n) :
    (ds.foldl (acceptLeaf S tree) acc).EncryptedCBFSet =
        (acc.EncryptedCBFSet :: ds.map LeafData.ev).foldl (List.zipWith CipherText.add)
          (newCipherVector n) ∧
      (ds.foldl (acceptLeaf S tree) acc).EncryptedCBFSet.length = n := by
  have hsum : (ds.foldl (acceptLeaf S tree) acc).EncryptedCBFSet =
      (acc.EncryptedCBFSet :: ds.map LeafData.ev).foldl (List.zipWith CipherText.add)
        (newCipherVector n) := by
    rw [List.foldl_cons, zipWith_add_newCipherVector hacc, foldl_acceptLeaf]
  refine ⟨hsum, ?_⟩
  rw [hsum]
  refine length_foldl_zipWith_add _ _ (length_newCipherVector n) fun w hw => ?_
  rcases List.mem_cons.mp hw with rfl | hw
  · exact hacc
  · obtain ⟨d, hd, rfl⟩ := List.mem_map.mp hw
    exact hds d hd

/-- The parent's contributions after accepting fresh leaves with distinct
keys: its own vector `own` at its key, each leaf's vector at the leaf's key,
and nothing else, in some order. -/
theorem contributions_foldl_acceptLeaf (tree : Tree G) (acc : Aggregation G Proof) {k₀ : String}
    {b₀ : Bytes} {ds : List (LeafData F G Proof)}
    (hacc : acc.childrenContributions = (∅ : StrMap Bytes).insert k₀ b₀)
    (hnodup : (ds.map fun d => S.PointString (d.secret • S.Base)).Nodup)
    (hfresh : ∀ d ∈ ds, S.PointString (d.secret • S.Base) ≠ k₀) :
    let c := (ds.foldl (acceptLeaf S tree) acc).childrenContributions
    c.lookup k₀ = some b₀ ∧
      (∀ d ∈ ds, c.lookup (S.PointString (d.secret • S.Base)) = some (d.ev.toBytes S).1) ∧
      c.values.Perm (b₀ :: ds.map fun d => (d.ev.toBytes S).1) := by
  rw [foldl_acceptLeaf, hacc]
  refine ⟨?_, fun d hd => AList.lookup_insertList_of_mem _ _ _ hnodup hd, ?_⟩
  · rw [AList.lookup_insertList_of_forall_ne _ _ _ hfresh]
    exact AList.lookup_insert _
  · have hfresh' : ∀ d ∈ ds, S.PointString (d.secret • S.Base) ∉ (∅ : StrMap Bytes).insert k₀ b₀ := by
      intro d hd hmem
      rcases (AList.mem_insert _).mp hmem with h | h
      · exact hfresh d hd h
      · exact absurd h (AList.notMem_empty _)
    exact AList.values_insertList_perm _ _ _ hnodup hfresh'

/-! ## The checks of the root's map -/

section Verify

variable [DecidableEq G]

/-- The entry of an honest leaf passes, in a map whose root lists the leaf's
vector under its key. -/
theorem verifyCompleteProof_leafEntry (hM : S.MarshalRoundTrip) (hS : S.SchnorrComplete)
    {P : CompleteProofs G Proof} {order : List Bytes} {tree : Tree G} {d : LeafData F G Proof}
    {root : CompleteProof G Proof} {rap : AggregationProof}
    (hnode : tree.Search d.node = some ⟨d.secret • S.Base, 0⟩)
    (hcvp : verifyCipherVectorProof S d.cvp d.ev = .ok true)
    (hroot : P.lookup (S.PointString tree.Root.Public) = some root)
    (hrap : root.AggregationProof = some rap)
    (hcontrib : rap.Contributions.lookup (S.PointString (d.secret • S.Base)) = some (d.ev.toBytes S).1)
    (horder : order.Perm [(d.ev.toBytes S).1]) :
    verifyCompleteProof S P order (leafEntry S tree d) = .ok true := by
  have hlen : (d.ev.toBytes S).2 = d.ev.length := rfl
  have hvs : ∀ w ∈ [d.ev], w.length = (d.ev.toBytes S).2 := by simp [hlen]
  have hsum : [d.ev].foldl (List.zipWith CipherText.add) (newCipherVector (d.ev.toBytes S).2) = d.ev := by
    rw [List.foldl_cons, List.foldl_nil, zipWith_add_newCipherVector hlen.symm]
  exact verifyCompleteProof_of_signed_sum S (v := leafEntry S tree d) (x := d.secret) hM hS rfl hvs
    (by simpa using horder) (by
      show (d.ev.toBytes S).1 = (CipherVector.toBytes S ([d.ev].foldl (List.zipWith CipherText.add)
        (newCipherVector (d.ev.toBytes S).2))).1
      rw [hsum]) rfl rfl rfl hnode rfl hroot hrap hcontrib rfl hlen.symm
    fun _ => ⟨d.cvp, rfl, hcvp⟩

/-- After an honest run, the root's map passes `VerifyCompleteProofs` in every
iteration order: every entry is the root's own or an accepted leaf's. -/
theorem verifyCompleteProofs_parentResult (hM : S.MarshalRoundTrip) (hS : S.SchnorrComplete)
    {p : ConsensusStructuredState F G Proof} (hpub : p.Public = p.Private • S.Base)
    (hsearch : p.Tree.Search p.TreeNodeID = some p.Tree.Root) (hroot : p.Tree.Root.Public = p.Public)
    (hinner : p.Tree.Root.ChildCount ≠ 0) {n : ℕ} {set : List ℤ} (hset : set.length = n)
    (ks : ℕ → F) {ds : List (LeafData F G Proof)}
    (hds : ∀ d ∈ ds, d.ev.length = n ∧ p.Tree.Search d.node = some ⟨d.secret • S.Base, 0⟩ ∧
      verifyCipherVectorProof S d.cvp d.ev = .ok true)
    (hnodup : (ds.map fun d => S.PointString (d.secret • S.Base)).Nodup)
    (hfresh : ∀ d ∈ ds, S.PointString (d.secret • S.Base) ≠ S.PointString p.Public)
    (visits : List (CompleteProof G Proof × List Bytes))
    (hvisits : Visits (parentResult S p set ks ds).CompleteProofs visits) :
    verifyCompleteProofsIn S (parentResult S p set ks ds).CompleteProofs visits = .ok true := by
  set own := (encryptIntVector S p.SharedKey set ks).1
  set acc := ds.foldl (acceptLeaf S p.Tree) (localAggregation S p set ks) with hacc
  have hown : own.length = n := by rw [length_encryptIntVector, hset]
  obtain ⟨hcontribOwn, hcontribLeaf, hvalues⟩ :=
    contributions_foldl_acceptLeaf S p.Tree (localAggregation S p set ks) rfl hnodup hfresh
  obtain ⟨hsum, hlen⟩ := sum_foldl_acceptLeaf S p.Tree (localAggregation S p set ks) hown
    fun d hd => (hds d hd).1
  have hrootEntry : (parentResult S p set ks ds).CompleteProofs.lookup
      (S.PointString p.Tree.Root.Public) = some (parentEntry S p set ks ds) := by
    rw [hroot]
    exact AList.lookup_insert _
  rw [verifyCompleteProofsIn_eq_true_iff]
  intro vo hvo
  obtain ⟨k, hk⟩ := AList.exists_lookup_of_mem_values (hvisits.1.subset (List.mem_map_of_mem hvo))
  have horder := hvisits.2 vo hvo
  by_cases hk0 : k = S.PointString p.Public
  · -- the root's own entry
    subst hk0
    rw [parentResult, AList.lookup_insert, Option.some_inj] at hk
    rw [← hk]
    rw [← hk] at horder
    have hvs : ∀ w ∈ own :: ds.map LeafData.ev, w.length = (acc.EncryptedCBFSet.toBytes S).2 := by
      intro w hw
      rcases List.mem_cons.mp hw with rfl | hw
      · exact hown.trans hlen.symm
      · obtain ⟨d, hd, rfl⟩ := List.mem_map.mp hw
        exact (hds d hd).1.trans hlen.symm
    refine verifyCompleteProof_of_signed_sum S (x := p.Private) hM hS rfl hvs
      ((horder _ rfl).trans (by rw [List.map_cons, List.map_map]; exact hvalues)) ?_ hpub rfl rfl
      hsearch (hroot.trans hpub)
      hrootEntry rfl (by rw [← hpub]; exact hcontribOwn) rfl (hown.trans hlen.symm)
      fun h => absurd h hinner
    show (acc.EncryptedCBFSet.toBytes S).1 = (CipherVector.toBytes S
      ((own :: ds.map LeafData.ev).foldl (List.zipWith CipherText.add)
        (newCipherVector (acc.EncryptedCBFSet.toBytes S).2))).1
    rw [show (acc.EncryptedCBFSet.toBytes S).2 = n from hlen]
    exact congrArg (fun v => (CipherVector.toBytes S v).1) hsum
  · -- an accepted leaf's entry
    rw [parentResult, AList.lookup_insert_ne hk0, foldl_acceptLeaf] at hk
    rcases AList.lookup_insertList_eq_some _ _ hk with ⟨d, hd, rfl, hval⟩ | hk
    · obtain ⟨-, hnode, hcvp⟩ := hds d hd
      rw [← hval]
      rw [← hval] at horder
      exact verifyCompleteProof_leafEntry S hM hS hnode hcvp hrootEntry rfl (hcontribLeaf d hd)
        (horder _ rfl)
    · rw [localAggregation, AList.lookup_insert_ne hk0, AList.lookup_empty] at hk
      exact absurd hk (by simp)

/-- The root's aggregation proof accepts the vector that the root sends in
`PromptDecrypt`, in every iteration order of its contributions. -/
theorem verifyWithAggregation_parentResult (hM : S.MarshalRoundTrip)
    {p : ConsensusStructuredState F G Proof} {n : ℕ} {set : List ℤ} (hset : set.length = n)
    (ks : ℕ → F) {ds : List (LeafData F G Proof)} (hds : ∀ d ∈ ds, d.ev.length = n)
    (hnodup : (ds.map fun d => S.PointString (d.secret • S.Base)).Nodup)
    (hfresh : ∀ d ∈ ds, S.PointString (d.secret • S.Base) ≠ S.PointString p.Public) :
    ∃ ap v, (parentEntry S p set ks ds).AggregationProof = some ap ∧
      (parentResult S p set ks ds).EncryptedCBFSet = some v ∧
      ∀ order : List Bytes, order.Perm ap.Contributions.values →
        ap.verifyWithAggregation S order v = .ok true := by
  set own := (encryptIntVector S p.SharedKey set ks).1
  set acc := ds.foldl (acceptLeaf S p.Tree) (localAggregation S p set ks)
  have hown : own.length = n := by rw [length_encryptIntVector, hset]
  obtain ⟨-, -, hvalues⟩ :=
    contributions_foldl_acceptLeaf S p.Tree (localAggregation S p set ks) rfl hnodup hfresh
  obtain ⟨hsum, hlen⟩ := sum_foldl_acceptLeaf S p.Tree (localAggregation S p set ks) hown hds
  refine ⟨_, _, rfl, rfl, fun order horder => ?_⟩
  -- the proof's length is the sum's, which every added vector has
  have hvs : ∀ w ∈ own :: ds.map LeafData.ev, w.length = (acc.EncryptedCBFSet.toBytes S).2 := by
    intro w hw
    rcases List.mem_cons.mp hw with rfl | hw
    · exact hown.trans hlen.symm
    · obtain ⟨d, hd, rfl⟩ := List.mem_map.mp hw
      exact (hds d hd).trans hlen.symm
  have hsum' : acc.EncryptedCBFSet = (own :: ds.map LeafData.ev).foldl (List.zipWith CipherText.add)
      (newCipherVector (acc.EncryptedCBFSet.toBytes S).2) := by
    rw [show (acc.EncryptedCBFSet.toBytes S).2 = n from hlen]
    exact hsum
  refine (congrArg (AggregationProof.verifyWithAggregation S _ order) hsum').trans ?_
  exact verifyWithAggregation_of_perm S hM
    (horder.trans (by rw [List.map_cons, List.map_map]; exact hvalues)) hvs

end Verify

/-! ## A run on the service's tree -/

/-- `GenerateNaryTree(n)` on a roster of `n` conodes headed by the root with
key `root`: the other conodes, with keys `children`, are the root's leaves.
The root has tree-node ID `0` and the `i`-th child ID `i`. -/
def oneLevelTree (root : G) (children : List G) : Tree G where
  Root := ⟨root, children.length⟩
  Search i := if i = 0 then some ⟨root, children.length⟩ else children[i - 1]?.map fun X => ⟨X, 0⟩

omit [AddCommGroup G] in
theorem oneLevelTree_search_zero (root : G) (children : List G) :
    (oneLevelTree root children).Search 0 = some (oneLevelTree root children).Root := rfl

omit [AddCommGroup G] in
theorem oneLevelTree_search_child {root X : G} {children : List G} {i : ℕ} (hi : 1 ≤ i)
    (hX : children[i - 1]? = some X) : (oneLevelTree root children).Search i = some ⟨X, 0⟩ := by
  simp [oneLevelTree, show i ≠ 0 by omega, hX]

/-- What an honest conode brings to a run: its secret key, the page it
fetches and the random scalars of its encryption. -/
structure Conode (F : Type) where
  secret : F
  page : Node
  ks : ℕ → F

/-- The service's tree for the root `root` and the other conodes
`children`, in roster order. -/
def serviceTree (root : Conode F) (children : List (Conode F)) : Tree G :=
  oneLevelTree (root.secret • S.Base) (children.map fun c => c.secret • S.Base)

/-- The state in which `HandleReply` finds the honest conode `c` at tree node
`i` of `tree`, once the announcement has set the filter parameters `param`;
`X` is the shared key. -/
def honestState (tree : Tree G) (X : G) (param : ℕ × ℕ) (c : Conode F) (i : ℕ) (isLeaf : Bool) :
    ConsensusStructuredState F G Proof :=
  ⟨c.secret • S.Base, c.secret, i, isLeaf, tree, X, param, none, ∅⟩

/-- The reply that a leaf's `HandleAnnounce` hands to its own `HandleReply`:
its tree node with an empty `SaveReplyStructured`. -/
def announceReply (p : ConsensusStructuredState F G Proof) : StructSaveReplyStructured G Proof :=
  ⟨p.Public, none, ∅⟩

/-- Every child, at its tree node, handles the announcement. -/
def leafStates (tree : Tree G) (X : G) (param : ℕ × ℕ) (children : List (Conode F)) :
    Outcome (List (ConsensusStructuredState F G Proof)) :=
  Outcome.traverseList (fun ci : Conode F × ℕ =>
    let p := honestState S tree X param ci.1 ci.2 true
    aggregateCBF S hashes p ci.1.page ci.1.ks [announceReply p]) (children.zipIdx 1)

/-- The root handles its children's replies, which onet hands over in the
order `order` of their arrival. -/
def rootState (tree : Tree G) (X : G) (param : ℕ × ℕ) (root : Conode F)
    (order : List (ConsensusStructuredState F G Proof)) :
    Outcome (ConsensusStructuredState F G Proof) :=
  aggregateCBF S hashes (honestState S tree X param root 0 false) root.page root.ks
    (order.map replyToParent)

/-- Every child of the service's tree returns an honest leaf's reply, under
its own key. -/
theorem leafStates_honest (hD : S.DLEQComplete) (X : G) {param : ℕ × ℕ} (hparam : 0 < param.1)
    (root : Conode F) (children : List (Conode F)) :
    ∃ leaves, leafStates S hashes (serviceTree S root children) X param children = .ok leaves ∧
      List.Forall₂ (fun ci st => st.Public = ci.1.secret • S.Base ∧
          HonestLeafReply S (serviceTree S root children) param.1 (replyToParent st))
        (children.zipIdx 1) leaves := by
  refine Outcome.traverseList_of_forall_exists _ _ fun ⟨c, i⟩ hci => ?_
  obtain ⟨hi, hc⟩ := List.mk_mem_zipIdx_iff_le_and_getElem?_sub.mp hci
  -- the `i`-th child sits at tree node `i`, as a leaf
  have hsearch : (serviceTree S root children).Search i = some ⟨c.secret • S.Base, 0⟩ :=
    oneLevelTree_search_child hi (by rw [List.getElem?_map, hc]; rfl)
  obtain ⟨p', hp', hpub, hhonest⟩ := aggregateCBF_leaf S hashes hD
    (p := honestState S (serviceTree S root children) X param c i true) rfl rfl hparam hsearch
    c.page c.ks [announceReply _]
  exact ⟨p', hp', hpub, hhonest⟩

/-- The root accepts the replies of honest leaves with distinct keys, none
the root's, in every order of their arrival. -/
theorem rootState_honest (hS : S.SchnorrComplete) (X : G) {param : ℕ × ℕ} (hparam : 0 < param.1)
    (root : Conode F) (children : List (Conode F))
    (hkeys : ((root :: children).map fun c => S.PointString (c.secret • S.Base)).Nodup)
    {leaves : List (ConsensusStructuredState F G Proof)}
    (hleaves : List.Forall₂ (fun ci st => st.Public = ci.1.secret • S.Base ∧
          HonestLeafReply S (serviceTree S root children) param.1 (replyToParent st))
        (children.zipIdx 1) leaves)
    {order : List (ConsensusStructuredState F G Proof)} (horder : order.Perm leaves) :
    let p := honestState S (serviceTree S root children) X param root 0 false
    ∃ set ds, FilledFrom hashes param.1 param.2 root.page set ∧
      (∀ d ∈ ds, d.ev.length = param.1 ∧ p.Tree.Search d.node = some ⟨d.secret • S.Base, 0⟩ ∧
        verifyCipherVectorProof S d.cvp d.ev = .ok true) ∧
      (ds.map fun d => S.PointString (d.secret • S.Base)).Nodup ∧
      (∀ d ∈ ds, S.PointString (d.secret • S.Base) ≠ S.PointString p.Public) ∧
      rootState S hashes (serviceTree S root children) X param root order =
        .ok (parentResult S p set root.ks ds) := by
  intro p
  rw [List.map_cons, List.nodup_cons] at hkeys
  obtain ⟨hrootFresh, hnodupChildren⟩ := hkeys
  -- the keys of the replies, in their order of arrival, are the children's
  have hkeysOrder : (order.map fun st => S.PointString st.Public).Perm
      (children.map fun c => S.PointString (c.secret • S.Base)) := by
    have hleafKeys : ((children.zipIdx 1).map fun ci => S.PointString (ci.1.secret • S.Base)) =
        leaves.map fun st => S.PointString st.Public :=
      hleaves.map_eq_map fun ci st h => by rw [h.1]
    have hchildKeys : ((children.zipIdx 1).map fun ci => S.PointString (ci.1.secret • S.Base)) =
        children.map fun c => S.PointString (c.secret • S.Base) := by
      rw [← List.zipIdx_map_fst 1 children, List.map_map, List.zipIdx_map_fst]
      rfl
    exact (horder.map _).trans (by rw [← hleafKeys, hchildKeys])
  have hreplies : ∀ r ∈ order.map replyToParent, HonestLeafReply S p.Tree p.ParametersCBF.1 r := by
    intro r hr
    obtain ⟨st, hst, rfl⟩ := List.mem_map.mp hr
    obtain ⟨ci, -, -, hhonest⟩ := hleaves.exists_of_mem_right (horder.subset hst)
    exact hhonest
  have hfresh : ∀ r ∈ order.map replyToParent, S.PointString r.Public ≠ S.PointString p.Public := by
    intro r hr heq
    obtain ⟨st, hst, rfl⟩ := List.mem_map.mp hr
    have hmem := hkeysOrder.subset (List.mem_map_of_mem (f := fun st => S.PointString st.Public) hst)
    have heq' : S.PointString st.Public = S.PointString p.Public := heq
    rw [heq'] at hmem
    exact hrootFresh hmem
  obtain ⟨set, ds, hfill, hrs, hds, hrun⟩ :=
    aggregateCBF_parent S hashes hS (p := p) rfl hparam root.page root.ks hreplies hfresh
  -- the accepted leaves carry the replies' keys
  have hdsKeys : (ds.map fun d => S.PointString (d.secret • S.Base)) =
      order.map fun st => S.PointString st.Public := by
    have h := congrArg (List.map fun r : StructSaveReplyStructured G Proof => S.PointString r.Public) hrs
    rw [List.map_map, List.map_map] at h
    exact h.symm
  have hnodup : (ds.map fun d => S.PointString (d.secret • S.Base)).Nodup := by
    rw [hdsKeys]
    exact hkeysOrder.nodup_iff.mpr hnodupChildren
  have hfreshDs : ∀ d ∈ ds, S.PointString (d.secret • S.Base) ≠ S.PointString p.Public := by
    intro d hd heq
    have hmem := List.mem_map_of_mem (f := fun d : LeafData F G Proof => S.PointString (d.secret • S.Base)) hd
    rw [hdsKeys] at hmem
    have hchild := hkeysOrder.subset hmem
    rw [heq] at hchild
    exact hrootFresh hchild
  exact ⟨set, ds, hfill, hds, hnodup, hfreshDs, hrun⟩

section Run

variable [DecidableEq G]

/-- An honest run on the service's tree: the leaves return, the root returns
whatever the order of the replies, its broadcast map passes
`VerifyCompleteProofs` in every iteration order, and its aggregation proof
accepts the vector it sends in `PromptDecrypt`. -/
theorem consensusStructured_honest_run_verifies (hM : S.MarshalRoundTrip)
    (hS : S.SchnorrComplete) (hD : S.DLEQComplete) (X : G) (param : ℕ × ℕ) (hparam : 0 < param.1)
    (root : Conode F) (children : List (Conode F)) (hchildren : children ≠ [])
    (hkeys : ((root :: children).map fun c => S.PointString (c.secret • S.Base)).Nodup) :
    ∃ leaves, leafStates S hashes (serviceTree S root children) X param children = .ok leaves ∧
      ∀ order, order.Perm leaves →
        ∃ p', rootState S hashes (serviceTree S root children) X param root order = .ok p' ∧
          (∀ visits, Visits p'.CompleteProofs visits →
            verifyCompleteProofsIn S p'.CompleteProofs visits = .ok true) ∧
          ∃ e ap v, p'.CompleteProofs.lookup (S.PointString p'.Public) = some e ∧
            e.AggregationProof = some ap ∧ p'.EncryptedCBFSet = some v ∧
            ∀ o : List Bytes, o.Perm ap.Contributions.values →
              ap.verifyWithAggregation S o v = .ok true := by
  obtain ⟨leaves, hleaves, hrel⟩ := leafStates_honest S hashes hD X hparam root children
  refine ⟨leaves, hleaves, fun order horder => ?_⟩
  obtain ⟨set, ds, hfill, hds, hnodup, hfresh, hrun⟩ :=
    rootState_honest S hashes hS X hparam root children hkeys hrel horder
  have hinner : (serviceTree S root children).Root.ChildCount ≠ 0 := by
    simp [serviceTree, oneLevelTree, hchildren]
  obtain ⟨ap, v, hap, hv, hagg⟩ := verifyWithAggregation_parentResult S hM hfill.length_eq root.ks
    (fun d hd => (hds d hd).1) hnodup hfresh
  refine ⟨_, hrun, fun visits hvisits => ?_, _, ap, v, AList.lookup_insert _, hap, hv, hagg⟩
  exact verifyCompleteProofs_parentResult S hM hS rfl (oneLevelTree_search_zero _ _) rfl hinner
    hfill.length_eq root.ks hds hnodup hfresh visits hvisits

/-- In the suite on `ZMod 7`, with one-bucket filters: the root `1` and its
child `2`, under the shared key `4`. -/
theorem consensusStructured_honest_run_zmod7 :
    0 < (1, 1).1 ∧ [(⟨2, Node.mk "a" [], fun _ => 1⟩ : Conode (ZMod 7))] ≠ [] ∧
    (((⟨1, Node.mk "a" [], fun _ => 1⟩ : Conode (ZMod 7)) :: [(⟨2, Node.mk "a" [], fun _ => 1⟩ : Conode (ZMod 7))]).map fun c => Suite.zmod7.PointString (c.secret • Suite.zmod7.Base)).Nodup ∧
    ∃ leaves, leafStates Suite.zmod7 (fun _ => (0, 0)) (serviceTree Suite.zmod7 (⟨1, Node.mk "a" [], fun _ => 1⟩ : Conode (ZMod 7)) [(⟨2, Node.mk "a" [], fun _ => 1⟩ : Conode (ZMod 7))]) 4 (1, 1) [(⟨2, Node.mk "a" [], fun _ => 1⟩ : Conode (ZMod 7))] = .ok leaves ∧
      ∀ order, order.Perm leaves →
        ∃ p', rootState Suite.zmod7 (fun _ => (0, 0)) (serviceTree Suite.zmod7 (⟨1, Node.mk "a" [], fun _ => 1⟩ : Conode (ZMod 7)) [(⟨2, Node.mk "a" [], fun _ => 1⟩ : Conode (ZMod 7))]) 4 (1, 1) (⟨1, Node.mk "a" [], fun _ => 1⟩ : Conode (ZMod 7)) order = .ok p' ∧
          (∀ visits, Visits p'.CompleteProofs visits →
            verifyCompleteProofsIn Suite.zmod7 p'.CompleteProofs visits = .ok true) ∧
          ∃ e ap v, p'.CompleteProofs.lookup (Suite.zmod7.PointString p'.Public) = some e ∧
            e.AggregationProof = some ap ∧ p'.EncryptedCBFSet = some v ∧
            ∀ o : List Bytes, o.Perm ap.Contributions.values →
              ap.verifyWithAggregation Suite.zmod7 o v = .ok true := by
  refine ⟨by decide, List.cons_ne_nil _ _, ?_, consensusStructured_honest_run_verifies Suite.zmod7
    (fun _ => (0, 0)) Suite.zmod7_marshalRoundTrip Suite.zmod7_schnorrComplete
    Suite.zmod7_dleqComplete 4 (1, 1) (by decide) _ _ (List.cons_ne_nil _ _) ?_⟩
  · decide
  · decide

end Run

end Decenarch
