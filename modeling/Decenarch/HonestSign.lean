import Decenarch.HonestSave
import Decenarch.SignVerify

/-!
# The cosigning of an honest structured save (`service/service.go`, `protocol/sign.go`)

Once `reconstruct` has built the consensus page, `SaveWebpage` sends every
conode the reconstructed filter, its parameters and the partial decryptions
(`ConsensusPropagation`, lines 229-252), and collects their signatures on
the page (`Service.sign`).  A conode other than the root checks the page with
`verificationFunctionStructured`, against the data it assembles in
`NewProtocol` (lines 626-649): its own leaves, the map of proofs the root
broadcast, the vector of the `Decrypt` prompt, and the propagated filter and
partials.

In an honest run every check after the first passes: the root's map
verifies, the root's aggregation proof accepts the decrypted vector, and the
propagated partials decode and reconstruct to the propagated filter.  A
conode's decision is therefore the leaf test alone: it cosigns a page exactly
when every leaf of the page, other than `noscript` and `script`, is one of
its own.

`ReconstructVectorFromPartials` reads the partials only through their
lookups, so the conode, which decodes them from a map of bytes, reconstructs
what the root did.
-/

namespace Decenarch

variable {F G Proof : Type}

/-! ## The data of the cosigning -/

/-- `ConsensusPropagation`, what the root sends every conode before the
signing. -/
structure ConsensusPropagation where
  RootKey : String
  PartialsBytes : AList fun _ : ℕ => Bytes
  ConsensusSet : List ℤ
  ConsensusParameters : List ℕ

variable [Field F] [AddCommGroup G] [Module F G]
variable {recoverCommit : ℕ → ℕ → (ℕ → Option G) → Except String G} (S : Suite F G Proof)
  (hashes : Bytes → ℕ × ℕ)

/-- The loop `partialsBytes[k] = lib.AbstractPointsToBytes(p)` of
`SaveWebpage` over the partials, in the order of their entries. -/
def encodePartials (partials : AList fun _ : ℕ => List G) : AList fun _ : ℕ => Bytes :=
  AList.insertList Sigma.fst (fun e => abstractPointsToBytes S e.2) partials.entries ∅

/-- `childrenData` of `SaveWebpage`: the root's key, the reconstructed
filter, its parameters and the encoded partials. -/
def consensusPropagation (rootKey : String) (consensusCBF : List ℤ) (partials : AList fun _ : ℕ => List G)
    (paramCBF : ℕ × ℕ) : ConsensusPropagation :=
  ⟨rootKey, encodePartials S partials, consensusCBF, [paramCBF.1, paramCBF.2]⟩

/-- The `VerificationData` that a conode builds in `NewProtocol` for
`NameSubSignStructured`, from its stored threshold, the propagation, its key,
the vector of the `Decrypt` prompt, its leaves and the map the root
broadcast. -/
def subSignData (threshold : ℕ) (prop : ConsensusPropagation) (conodeKey : String)
    (encryptedCBFSet : Option (CipherVector G)) (leaves : List String) (completeProofs : CompleteProofs G Proof) :
    VerificationData G Proof :=
  { RootKey := prop.RootKey, Threshold := threshold, ConodeKey := conodeKey, Partials := prop.PartialsBytes,
    EncryptedCBFSet := encryptedCBFSet, Leaves := leaves, CompleteProofs := completeProofs,
    ConsensusSet := prop.ConsensusSet, ConsensusParameters := prop.ConsensusParameters }

/-- `order` lists the contributions of the aggregation proof at `key` in an
iteration order of their map. -/
def ContributionsOrder (cp : CompleteProofs G Proof) (key : String) (order : List Bytes) : Prop :=
  ∀ e ap, cp.lookup key = some e → e.AggregationProof = some ap → order.Perm ap.Contributions.values

/-! ## The partials, encoded and decoded -/

omit [Field F] [AddCommGroup G] [Module F G] in
/-- The encoded partials hold at each key the bytes of the partials there. -/
theorem lookup_encodePartials (partials : AList fun _ : ℕ => List G) (k : ℕ) :
    (encodePartials S partials).lookup k = (partials.lookup k).map (abstractPointsToBytes S) := by
  by_cases hk : k ∈ partials
  · obtain ⟨ps, hps⟩ := Option.isSome_iff_exists.mp (AList.lookup_isSome.mpr hk)
    rw [hps, Option.map_some]
    have hmem : (⟨k, ps⟩ : (_ : ℕ) × List G) ∈ partials.entries := AList.mem_lookup_iff.mp hps
    exact AList.lookup_insertList_of_mem Sigma.fst _ ∅ partials.nodupKeys hmem
  · have hne : ∀ e ∈ partials.entries, e.1 ≠ k := fun e he hek =>
      hk (hek ▸ AList.mem_keys.mp (List.mem_keys_of_mem he))
    rw [AList.lookup_eq_none.mpr hk, Option.map_none, encodePartials,
      AList.lookup_insertList_of_forall_ne _ _ _ hne, AList.lookup_empty]

omit [Field F] [AddCommGroup G] [Module F G] in
/-- The loop of `decodePartials` over entries that all decode. -/
theorem foldlM_decode {dec : (_ : ℕ) × Bytes → List G} :
    ∀ (es : List ((_ : ℕ) × Bytes)) (acc : AList fun _ : ℕ => List G),
      (∀ e ∈ es, bytesToAbstractPoints S e.2 = .ok (dec e)) →
      es.foldlM (fun acc e => (bytesToAbstractPoints S e.2).map fun ps => acc.insert e.1 ps) acc =
        .ok (AList.insertList Sigma.fst dec es acc)
  | [], _, _ => rfl
  | e :: es, acc, h => by
      rw [List.foldlM_cons, h e List.mem_cons_self, Outcome.map_ok, Outcome.ok_bind,
        foldlM_decode es _ fun e' he' => h e' (List.mem_cons_of_mem _ he'), AList.insertList_cons]

omit [Field F] [AddCommGroup G] [Module F G] in
/-- Decoding the encoded partials gives back, key by key, the partials. -/
theorem decodePartials_encodePartials (hM : S.MarshalRoundTrip) (partials : AList fun _ : ℕ => List G) :
    ∃ decoded, decodePartials S (encodePartials S partials) = .ok decoded ∧
      ∀ k, decoded.lookup k = partials.lookup k := by
  -- each entry of the encoding decodes to the partials at its key
  have hdec : ∀ e ∈ (encodePartials S partials).entries,
      bytesToAbstractPoints S e.2 = .ok ((partials.lookup e.1).getD []) := by
    intro e he
    have h := AList.mem_lookup_iff.mpr he
    rw [lookup_encodePartials] at h
    obtain ⟨ps, hps, hbytes⟩ := Option.map_eq_some_iff.mp h
    rw [← hbytes, hps, Option.getD_some]
    exact bytesToAbstractPoints_abstractPointsToBytes hM ps
  refine ⟨_, foldlM_decode S _ ∅ hdec, fun k => ?_⟩
  by_cases hk : k ∈ encodePartials S partials
  · obtain ⟨b, hb⟩ := Option.isSome_iff_exists.mp (AList.lookup_isSome.mpr hk)
    have hmem : (⟨k, b⟩ : (_ : ℕ) × Bytes) ∈ (encodePartials S partials).entries := AList.mem_lookup_iff.mp hb
    rw [AList.lookup_insertList_of_mem Sigma.fst _ ∅ (encodePartials S partials).nodupKeys hmem]
    rw [lookup_encodePartials] at hb
    obtain ⟨ps, hps, -⟩ := Option.map_eq_some_iff.mp hb
    rw [hps, Option.getD_some]
  · have hnone := AList.lookup_eq_none.mpr hk
    rw [lookup_encodePartials, Option.map_eq_none_iff] at hnone
    have hne : ∀ e ∈ (encodePartials S partials).entries, e.1 ≠ k := fun e he hek =>
      hk (hek ▸ AList.mem_keys.mp (List.mem_keys_of_mem he))
    rw [hnone, AList.lookup_insertList_of_forall_ne _ _ _ hne, AList.lookup_empty]

/-! ## The reconstruction reads the partials' lookups -/

section Congr

variable (recoverCommit) [DecidableEq G]

omit [AddCommGroup G] [DecidableEq G] in
/-- With every key among the `n` slots and every stored vector at least `m`
long, the loop over the entries below `m` depends only on the lookups of the
partials. -/
theorem recoverPoints_congr {n t m : ℕ} {P P' : AList fun _ : ℕ => List G}
    (hwf : ∀ j l, P.lookup j = some l → j < n ∧ m ≤ l.length) (hlook : ∀ k, P'.lookup k = P.lookup k) :
    ∀ is : List ℕ, (∀ i ∈ is, i < m) → recoverPoints recoverCommit n t P' is = recoverPoints recoverCommit n t P is
  | [], _ => rfl
  | i :: is, his => by
      have hi := his i List.mem_cons_self
      have hP : sharesAt n P i = .ok fun j => (P.lookup j).bind (·[i]?) :=
        sharesAt_eq fun j l hl => ⟨(hwf j l hl).1, hi.trans_le (hwf j l hl).2⟩
      have hP' : sharesAt n P' i = .ok fun j => (P'.lookup j).bind (·[i]?) :=
        sharesAt_eq fun j l hl => by
          rw [hlook] at hl
          exact ⟨(hwf j l hl).1, hi.trans_le (hwf j l hl).2⟩
      have hrest : recoverPoints recoverCommit n t P' is = recoverPoints recoverCommit n t P is :=
        recoverPoints_congr hwf hlook is fun i' hi' => his i' (List.mem_cons_of_mem _ hi')
      simp only [recoverPoints, hP, hP', hlook, Outcome.ok_bind, hrest]

/-- `ReconstructVectorFromPartials` on partials with the same lookups as
partials whose keys are slots and whose vectors are as long as the root's. -/
theorem reconstructVectorFromPartials_congr {n t : ℕ} {P P' : AList fun _ : ℕ => List G}
    (hwf : ∀ j l, P.lookup j = some l → j < n ∧ ((P.lookup 0).getD []).length ≤ l.length)
    (hlook : ∀ k, P'.lookup k = P.lookup k) (B : G) (s : DlogTable G) :
    reconstructVectorFromPartials recoverCommit B n t P' s = reconstructVectorFromPartials recoverCommit B n t P s := by
  rw [reconstructVectorFromPartials, reconstructVectorFromPartials, hlook 0,
    recoverPoints_congr recoverCommit hwf hlook _ fun i hi => List.mem_range.mp hi]

end Congr

/-! ## The checks of a conode -/

/-- With every own leaf counted at least once, the loop over the leaves of a
page accepts it exactly when each of its leaves, other than `noscript` and
`script`, is among the conode's leaves. -/
theorem leavesAccepted_eq_decide {own : List String} {cbf : CBF}
    (hcount : ∀ l ∈ own, ∃ k, cbf.count hashes (stringBytes l) = .ok k ∧ k ≠ 0) :
    ∀ ls : List String, leavesAccepted hashes own cbf ls =
      .ok (decide (∀ l ∈ ls, l ≠ "noscript" → l ≠ "script" → l ∈ own))
  | [] => by simp [leavesAccepted]
  | l :: ls => by
      rw [leavesAccepted]
      split_ifs with hskip hnot
      · -- `noscript` and `script` are skipped
        rw [leavesAccepted_eq_decide hcount ls]
        rcases hskip with rfl | rfl <;> simp
      · obtain ⟨k, hk, hk0⟩ := hcount l hnot
        rw [hk, Outcome.ok_bind, if_neg hk0, leavesAccepted_eq_decide hcount ls]
        simp [hnot]
      · -- a leaf the conode lacks
        simp [hnot, not_or.mp hskip]

/-- A leaf of one of the trees is counted at least once in the sum of the
filters filled from them. -/
theorem count_sumSets_ne_zero {M K : ℕ} (hM : 0 < M) {trees : List Node} {sets : List (List ℤ)}
    (hall : List.Forall₂ (FilledFrom hashes M K) trees sets) {T : Node} (hT : T ∈ trees) {l : String}
    (hl : l ∈ listUniqueDataLeaves T) :
    ∃ k, (bloomFilterFromSet (sumSets M sets) (M, K)).count hashes (stringBytes l) = .ok k ∧ k ≠ 0 := by
  obtain ⟨k, hk, hge⟩ := count_sumSets_of_filled hashes hM hall l
  have hpos : 0 < trees.countP fun T => decide (l ∈ listUniqueDataLeaves T) :=
    List.countP_pos_iff.mpr ⟨T, hT, decide_eq_true hl⟩
  have hone : (1 : ℤ) ≤ min 255 (trees.countP fun T => decide (l ∈ listUniqueDataLeaves T) : ℤ) :=
    le_min (by norm_num) (by exact_mod_cast hpos)
  exact ⟨k, hk, by omega⟩

/-- The root's map after accepting the leaves `ds` with fresh distinct keys
holds one entry for the root and one for each leaf. -/
theorem length_entries_parentResult {p : ConsensusStructuredState F G Proof} {set : List ℤ} (ks : ℕ → F)
    {ds : List (LeafData F G Proof)} (hnodup : (ds.map fun d => S.PointString (d.secret • S.Base)).Nodup)
    (hfresh : ∀ d ∈ ds, S.PointString (d.secret • S.Base) ≠ S.PointString p.Public) :
    (parentResult S p set ks ds).CompleteProofs.entries.length = ds.length + 1 := by
  have hfresh' : ∀ d ∈ ds,
      S.PointString (d.secret • S.Base) ∉ (localAggregation S p set ks).CompleteProofs := by
    intro d hd hmem
    rcases (AList.mem_insert _).mp hmem with h | h
    · exact hfresh d hd h
    · exact absurd h (AList.notMem_empty _)
  -- the root's own key is already in the map, so its final entry adds none
  have hmine : S.PointString p.Public ∈
      (ds.foldl (acceptLeaf S p.Tree) (localAggregation S p set ks)).CompleteProofs := by
    rw [foldl_acceptLeaf]
    exact AList.lookup_isSome.mp (by
      rw [AList.lookup_insertList_of_forall_ne _ _ _ hfresh]
      exact Option.isSome_iff_exists.mpr ⟨_, AList.lookup_insert _⟩)
  rw [parentResult, AList.length_entries_insert_of_mem hmine, foldl_acceptLeaf,
    AList.length_entries_insertList _ _ _ hnodup hfresh']
  simp [localAggregation, Nat.add_comm]

variable {S} in
/-- The children that the root accepted carry distinct keys, none of them
the root's, one for each conode of the roster but the root. -/
theorem HonestRoster.keys_accepted {α : Type*} [DecidableEq α] {newRosterWithRoot : List α → α → List α}
    (hnew : NewRosterWithRootSpec newRosterWithRoot) {conode : α → Conode F} {roster order : List α}
    {B : α} {f : Polynomial F} {share : α → F} (H : HonestRoster S newRosterWithRoot conode roster order B f share)
    {ds : List (LeafData F G Proof)}
    (hkeys : (ds.map fun d => S.PointString (d.secret • S.Base)).Perm
      ((treeChildren newRosterWithRoot conode roster B).map fun c => S.PointString (c.secret • S.Base))) :
    (ds.map fun d => S.PointString (d.secret • S.Base)).Nodup ∧
      (∀ d ∈ ds, S.PointString (d.secret • S.Base) ≠ S.PointString ((conode B).secret • S.Base)) ∧
      ds.length + 1 = roster.length := by
  have hkeysAll := H.keys_root_treeChildren hnew
  rw [List.map_cons, List.nodup_cons] at hkeysAll
  obtain ⟨hroot, hchildren⟩ := hkeysAll
  refine ⟨hkeys.nodup_iff.mpr hchildren, fun d hd heq => hroot (heq ▸ hkeys.subset (List.mem_map_of_mem hd)), ?_⟩
  have hlen := hkeys.length_eq
  rw [List.length_map, List.length_map] at hlen
  rw [hlen]
  exact (H.length_treeChildren hnew).1

variable [DecidableEq G]

/-- The root's aggregation proof, which the map the root broadcast holds at
the root's key, accepts the vector of the `Decrypt` prompt in every
iteration order of its contributions. -/
theorem checkRootAggregation_parentResult (hM : S.MarshalRoundTrip) {p : ConsensusStructuredState F G Proof}
    {n : ℕ} {set : List ℤ} (hset : set.length = n) (ks : ℕ → F) {ds : List (LeafData F G Proof)}
    (hds : ∀ d ∈ ds, d.ev.length = n) (hnodup : (ds.map fun d => S.PointString (d.secret • S.Base)).Nodup)
    (hfresh : ∀ d ∈ ds, S.PointString (d.secret • S.Base) ≠ S.PointString p.Public)
    {vd : VerificationData G Proof} (hproofs : vd.CompleteProofs = (parentResult S p set ks ds).CompleteProofs)
    (hroot : vd.RootKey = S.PointString p.Public)
    (hvec : vd.EncryptedCBFSet = (parentResult S p set ks ds).EncryptedCBFSet) {order : List Bytes}
    (horder : ContributionsOrder vd.CompleteProofs vd.RootKey order) :
    checkRootAggregation S order vd = .ok true := by
  obtain ⟨ap, v, hap, hv, hagg⟩ := verifyWithAggregation_parentResult S hM hset ks hds hnodup hfresh
  have hentry : vd.CompleteProofs.lookup vd.RootKey = some (parentEntry S p set ks ds) := by
    rw [hproofs, hroot]
    exact AList.lookup_insert _
  rw [checkRootAggregation, hentry]
  simp only [hap, hvec, hv]
  exact hagg order (horder _ ap hentry hap)

variable (recoverCommit)

omit [Field F] [Module F G] in
/-- The second check of the audit passes once the propagated partials are
the encoding of partials that reconstruct, in the map's number of slots, to
the propagated filter. -/
theorem checkReconstruction_of_encoded (hM : S.MarshalRoundTrip) {vd : VerificationData G Proof}
    {P : AList fun _ : ℕ => List G} (hpartials : vd.Partials = encodePartials S P)
    (hwf : ∀ j l, P.lookup j = some l → j < vd.CompleteProofs.entries.length ∧
      ((P.lookup 0).getD []).length ≤ l.length)
    {s s' : DlogTable G}
    (hrec : reconstructVectorFromPartials recoverCommit S.Base vd.CompleteProofs.entries.length vd.Threshold P s =
      .ok (.ok vd.ConsensusSet, s')) :
    checkReconstruction recoverCommit S vd s = .ok (true, s') := by
  obtain ⟨decoded, hdec, hlook⟩ := decodePartials_encodePartials S hM P
  rw [checkReconstruction, hpartials, hdec, Outcome.ok_bind,
    reconstructVectorFromPartials_congr recoverCommit hwf hlook, hrec, Outcome.ok_bind]
  simp only [reconstructionMatches_eq_ok_true.mpr (List.prefix_refl _), Outcome.map_ok]

omit [Field F] [Module F G] in
/-- When the audit passes, `verificationFunctionStructured` returns what the
loop over the leaves decided. -/
theorem verificationFunctionStructured_of_audit {parse : Bytes → Option Node}
    {unmarshal : Bytes → Option (VerificationData G Proof)} {visits : List (CompleteProof G Proof × List Bytes)}
    {order : List Bytes} {msg data : Bytes} {vd : VerificationData G Proof} {rootNode : Node} {cbf : CBF}
    {s s' : DlogTable G} {b : Bool} (hdata : unmarshal data = some vd) (hmsg : parse msg = some rootNode)
    (hcbf : consensusCBF vd = .ok cbf)
    (hleaves : leavesAccepted hashes vd.Leaves cbf (listUniqueDataLeaves rootNode) = .ok b)
    (hproofs : verifyCompleteProofsIn S vd.CompleteProofs visits = .ok true) (hkey : vd.ConodeKey ≠ vd.RootKey)
    (hagg : checkRootAggregation S order vd = .ok true) (hrec : checkReconstruction recoverCommit S vd s = .ok (true, s')) :
    ∃ s'', verificationFunctionStructured recoverCommit S hashes parse unmarshal visits order msg data s = .ok (b, s'') := by
  rw [verificationFunctionStructured, hdata]
  simp only [hmsg, hcbf, hleaves, Outcome.ok_bind]
  cases b with
  | false => exact ⟨s, rfl⟩
  | true =>
      simp only [Bool.not_true, Bool.false_eq_true, if_false, hproofs, Outcome.ok_bind, if_pos hkey, hagg, hrec]
      exact ⟨s', rfl⟩

/-- A conode other than the root, checking a page against the root's map,
the vector of the root's `Decrypt` prompt, and partials that reconstruct in
the map's slots to the propagated filter, decides by the leaf test alone. -/
theorem verificationFunctionStructured_parentResult (hM : S.MarshalRoundTrip) (hS : S.SchnorrComplete)
    {root : Conode F} {children : List (Conode F)} (hchildren : children ≠ []) {X : G} {param : ℕ × ℕ}
    {set : List ℤ} (hset : set.length = param.1) {ds : List (LeafData F G Proof)}
    (hds : ∀ d ∈ ds, d.ev.length = param.1 ∧
      (serviceTree S root children).Search d.node = some ⟨d.secret • S.Base, 0⟩ ∧
      verifyCipherVectorProof S d.cvp d.ev = .ok true)
    (hnodup : (ds.map fun d => S.PointString (d.secret • S.Base)).Nodup)
    (hfresh : ∀ d ∈ ds, S.PointString (d.secret • S.Base) ≠ S.PointString (root.secret • S.Base))
    {v : CipherVector G}
    (hv : (parentResult S (honestState S (serviceTree S root children) X param root 0 false) set root.ks
      ds).EncryptedCBFSet = some v)
    {n threshold : ℕ} (hn : ds.length + 1 = n) {P : AList fun _ : ℕ => List G}
    (hwf : ∀ j l, P.lookup j = some l → j < n ∧ l.length = v.length) {consensus : List ℤ} {s s' : DlogTable G}
    (hrec : reconstructVectorFromPartials recoverCommit S.Base n threshold P s = .ok (.ok consensus, s'))
    {conodeKey : String} (hkey : conodeKey ≠ S.PointString (root.secret • S.Base)) {own : List String}
    (hown : ∀ l ∈ own, ∃ k, (bloomFilterFromSet consensus param).count hashes (stringBytes l) = .ok k ∧ k ≠ 0)
    {parse : Bytes → Option Node} {unmarshal : Bytes → Option (VerificationData G Proof)}
    {visits : List (CompleteProof G Proof × List Bytes)} {contributions : List Bytes} {msg data : Bytes}
    {rootNode : Node} (hmsg : parse msg = some rootNode)
    (hdata : unmarshal data = some (subSignData threshold
      (consensusPropagation S (S.PointString (root.secret • S.Base)) consensus P param) conodeKey (some v) own
      (parentResult S (honestState S (serviceTree S root children) X param root 0 false) set root.ks
        ds).CompleteProofs))
    (hvisits : Visits (parentResult S (honestState S (serviceTree S root children) X param root 0 false) set root.ks
      ds).CompleteProofs visits)
    (horder : ContributionsOrder (parentResult S (honestState S (serviceTree S root children) X param root 0 false) set
      root.ks ds).CompleteProofs (S.PointString (root.secret • S.Base)) contributions) :
    ∃ s'', verificationFunctionStructured recoverCommit S hashes parse unmarshal visits contributions msg data s =
      .ok (decide (∀ l ∈ listUniqueDataLeaves rootNode, l ≠ "noscript" → l ≠ "script" → l ∈ own),
        s'') := by
  have hinner : (serviceTree S root children).Root.ChildCount ≠ 0 := by
    simp only [serviceTree, oneLevelTree, List.length_map]
    exact List.length_pos_iff.mpr hchildren |>.ne'
  have hproofs := verifyCompleteProofs_parentResult S hM hS rfl (oneLevelTree_search_zero _ _) rfl hinner hset
    root.ks hds hnodup hfresh visits hvisits
  -- the partials cover a prefix of every stored vector, as `ReconstructVectorFromPartials` reads them
  have hwf' : ∀ j l, P.lookup j = some l → j < n ∧ ((P.lookup 0).getD []).length ≤ l.length := by
    intro j l hl
    refine ⟨(hwf j l hl).1, ?_⟩
    cases h0 : P.lookup 0 with
    | none => exact Nat.zero_le _
    | some l₀ => rw [Option.getD_some, (hwf 0 l₀ h0).2, (hwf j l hl).2]
  -- the map holds one slot for the root and one for each accepted leaf
  rw [← hn, ← length_entries_parentResult S (p := honestState S (serviceTree S root children) X param root 0 false)
    root.ks hnodup hfresh] at hwf' hrec
  exact verificationFunctionStructured_of_audit recoverCommit S hashes hdata hmsg rfl (leavesAccepted_eq_decide hashes hown _)
    hproofs hkey (checkRootAggregation_parentResult S hM hset root.ks (fun d hd => (hds d hd).1) hnodup hfresh rfl rfl
      hv.symm horder) (checkReconstruction_of_encoded recoverCommit S hM rfl hwf' hrec)

end Decenarch
