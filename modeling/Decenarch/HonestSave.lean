import Decenarch.StructuredRun
import Decenarch.Reconstruct
import Decenarch.ServiceReconstruct

/-!
# An honest structured `SaveWebpage`, from the fetches to the consensus page

On the structured path, `Service.SaveWebpage` runs three steps on the tree
`GenerateNaryTree` of `NewRosterWithRoot` of its roster
(`service/service.go`, lines 171-224): `ConsensusStructured` adds the
conodes' encrypted filters into the root's vector, `Decrypt` collects
`threshold - 1` partial decryptions of that vector, and `reconstruct`
interpolates them and builds the consensus page from the root's own tree.

When every conode follows the protocols, the root's vector encrypts, under
the collective key, the sum of the filters that the conodes filled from their
pages, in every order in which the replies reach the root; the decryption
recovers that sum; and the page the root goes on to sign is a pruning of its
own page that keeps every leaf that at least `threshold` conodes saw.

The three steps are the models of `StructuredRun`, `Reconstruct` and
`ServiceReconstruct`, joined by the vector that each hands to the next.
Nothing is said here about a conode that deviates.
-/

open Polynomial

namespace Decenarch

variable {F G Proof : Type} [Field F] [AddCommGroup G] [Module F G]
variable (S : Suite F G Proof) (hashes : Bytes → ℕ × ℕ)

/-! ## What the leaves encrypt -/

/-- The state `st` of the child `ci` carries, as its vector, the encryption
under `X` of a filter filled from the child's page. -/
def LeafEncrypts (X : G) (param : ℕ × ℕ) (ci : Conode F × ℕ) (st : ConsensusStructuredState F G Proof) :
    Prop :=
  ∃ set, FilledFrom hashes param.1 param.2 ci.1.page set ∧
    st.EncryptedCBFSet = some (encryptIntVector S X set ci.1.ks).1

/-- A leaf's `AggregateCBF` returns the encryption, under the shared key, of
the filter it fills from its page. -/
theorem aggregateCBF_leaf_encrypts {p : ConsensusStructuredState F G Proof} (hleaf : p.IsLeaf = true)
    (hM : 0 < p.ParametersCBF.1) (locTree : Node) (ks : ℕ → F)
    (reply : List (StructSaveReplyStructured G Proof)) :
    ∃ set p', FilledFrom hashes p.ParametersCBF.1 p.ParametersCBF.2 locTree set ∧
      aggregateCBF S hashes p locTree ks reply = .ok p' ∧
      p'.EncryptedCBFSet = some (encryptIntVector S p.SharedKey set ks).1 := by
  obtain ⟨set, hfill, hloc⟩ := localContribution_spec S hashes hM locTree ks
  have hmine : (localAggregation S p set ks).CompleteProofs.lookup (S.PointString p.Public) =
      some _ := AList.lookup_insert _
  simp only [aggregateCBF, hloc, hleaf, hmine, Outcome.ok_bind, if_true]
  exact ⟨set, _, hfill, rfl, rfl⟩

/-- Every child of the service's tree returns the encryption of a filter
filled from its page. -/
theorem leafStates_encrypts (X : G) {param : ℕ × ℕ} (hparam : 0 < param.1) (root : Conode F)
    (children : List (Conode F)) :
    ∃ leaves, leafStates S hashes (serviceTree S root children) X param children = .ok leaves ∧
      List.Forall₂ (LeafEncrypts S hashes X param) (children.zipIdx 1) leaves := by
  refine Outcome.traverseList_of_forall_exists _ _ fun ⟨c, i⟩ _ => ?_
  obtain ⟨set, p', hfill, hp', hev⟩ := aggregateCBF_leaf_encrypts S hashes
    (p := honestState S (serviceTree S root children) X param c i true) rfl hparam c.page c.ks
    [announceReply _]
  exact ⟨p', hp', set, hfill, hev⟩

/-- Every child returns an honest leaf's reply under its key, with the
encryption of a filter filled from its page. -/
theorem leafStates_honest_encrypts (hD : S.DLEQComplete) (X : G) {param : ℕ × ℕ} (hparam : 0 < param.1)
    (root : Conode F) (children : List (Conode F)) :
    ∃ leaves, leafStates S hashes (serviceTree S root children) X param children = .ok leaves ∧
      List.Forall₂ (fun ci st => st.Public = ci.1.secret • S.Base ∧
          HonestLeafReply S (serviceTree S root children) param.1 (replyToParent st))
        (children.zipIdx 1) leaves ∧
      List.Forall₂ (LeafEncrypts S hashes X param) (children.zipIdx 1) leaves := by
  obtain ⟨leaves, hls, hrel⟩ := leafStates_honest S hashes hD X hparam root children
  obtain ⟨leaves', hls', henc⟩ := leafStates_encrypts S hashes X hparam root children
  obtain rfl : leaves' = leaves := Outcome.ok.inj (hls'.symm.trans hls)
  exact ⟨leaves', hls', hrel, henc⟩

/-! ## What the root accepts -/

/-- The leaf `d` that the root accepted is the reply of the child `ci`: under
the child's key, with the encryption under `X` of a filter filled from the
child's page. -/
def AcceptedChild (X : G) (param : ℕ × ℕ) (ci : Conode F × ℕ) (d : LeafData F G Proof) : Prop :=
  d.secret • S.Base = ci.1.secret • S.Base ∧
    ∃ set, FilledFrom hashes param.1 param.2 ci.1.page set ∧ d.ev = (encryptIntVector S X set ci.1.ks).1

/-- The root takes the replies of honest leaves with distinct keys, none the
root's, in any order of their arrival: it accepts one leaf for each child,
in the order in which the replies arrive. -/
theorem rootState_accepts_children (hS : S.SchnorrComplete) (X : G) {param : ℕ × ℕ} (hparam : 0 < param.1)
    (root : Conode F) (children : List (Conode F))
    (hkeys : ((root :: children).map fun c => S.PointString (c.secret • S.Base)).Nodup)
    {leaves : List (ConsensusStructuredState F G Proof)}
    (hleaves : List.Forall₂ (fun ci st => st.Public = ci.1.secret • S.Base ∧
          HonestLeafReply S (serviceTree S root children) param.1 (replyToParent st))
        (children.zipIdx 1) leaves)
    (henc : List.Forall₂ (LeafEncrypts S hashes X param) (children.zipIdx 1) leaves)
    {arrival : List (ConsensusStructuredState F G Proof)} (harr : arrival.Perm leaves) :
    ∃ set ds cs, FilledFrom hashes param.1 param.2 root.page set ∧
      (∀ d ∈ ds, d.ev.length = param.1 ∧
        (serviceTree S root children).Search d.node = some ⟨d.secret • S.Base, 0⟩ ∧
        verifyCipherVectorProof S d.cvp d.ev = .ok true) ∧
      cs.Perm (children.zipIdx 1) ∧ List.Forall₂ (AcceptedChild S hashes X param) cs ds ∧
      rootState S hashes (serviceTree S root children) X param root arrival =
        .ok (parentResult S (honestState S (serviceTree S root children) X param root 0 false) set root.ks ds) := by
  -- the children, listed in the order in which their replies arrive
  obtain ⟨cs, hrel, hperm⟩ := List.perm_comp_forall₂ harr (List.Forall₂.flip (hleaves.and henc))
  replace hrel := hrel.flip
  have hreplies : ∀ r ∈ arrival.map replyToParent,
      HonestLeafReply S (serviceTree S root children) param.1 r := by
    intro r hr
    obtain ⟨st, hst, rfl⟩ := List.mem_map.mp hr
    obtain ⟨_, -, ⟨-, hhonest⟩, -⟩ := hrel.exists_of_mem_right hst
    exact hhonest
  have hfresh : ∀ r ∈ arrival.map replyToParent,
      S.PointString r.Public ≠ S.PointString (root.secret • S.Base) := by
    intro r hr heq
    obtain ⟨st, hst, rfl⟩ := List.mem_map.mp hr
    obtain ⟨ci, hci, ⟨hpub, -⟩, -⟩ := hrel.exists_of_mem_right hst
    rw [List.map_cons, List.nodup_cons] at hkeys
    refine hkeys.1 (List.mem_map.mpr ⟨ci.1, List.fst_mem_of_mem_zipIdx (hperm.subset hci), ?_⟩)
    rw [← hpub]
    exact heq
  obtain ⟨set, ds, hfill, hrs, hds, hrun⟩ := aggregateCBF_parent S hashes hS
    (p := honestState S (serviceTree S root children) X param root 0 false) rfl hparam root.page root.ks
    hreplies hfresh
  -- each accepted leaf is the reply that arrived in its place
  have hsame := hrel.comp (List.forall₂_of_map_eq hrs)
  refine ⟨set, ds, cs, hfill, hds, hperm, hsame.imp fun ci d ⟨st, ⟨⟨hpub, _⟩, set', hfill', hev⟩, hst⟩ => ?_,
    hrun⟩
  have hpub' : st.Public = d.secret • S.Base := congrArg StructSaveReplyStructured.Public hst
  have hev' : st.EncryptedCBFSet = some d.ev := congrArg StructSaveReplyStructured.EncryptedCBFSet hst
  rw [hev'] at hev
  exact ⟨hpub'.symm.trans hpub, set', hfill', Option.some.inj hev⟩

/-- Listing the entries of `l.zipIdx n` and keeping their elements lists `l`. -/
theorem map_zipIdx_fst {γ β : Type*} (l : List γ) (f : γ → β) (n : ℕ) :
    (l.zipIdx n).map (fun ci => f ci.1) = l.map f := by
  show (l.zipIdx n).map (f ∘ Prod.fst) = l.map f
  rw [← List.map_map, List.zipIdx_map_fst]

/-- The keys of the accepted leaves are the children's. -/
theorem keys_perm_of_accepted {X : G} {param : ℕ × ℕ} {children : List (Conode F)}
    {cs : List (Conode F × ℕ)} {ds : List (LeafData F G Proof)}
    (hacc : List.Forall₂ (AcceptedChild S hashes X param) cs ds) (hperm : cs.Perm (children.zipIdx 1)) :
    (ds.map fun d => S.PointString (d.secret • S.Base)).Perm
      (children.map fun c => S.PointString (c.secret • S.Base)) := by
  have hkeys : (cs.map fun ci => S.PointString (ci.1.secret • S.Base)) =
      ds.map fun d => S.PointString (d.secret • S.Base) :=
    hacc.map_eq_map fun _ _ h => by rw [h.1]
  rw [← hkeys, ← map_zipIdx_fst children (fun c => S.PointString (c.secret • S.Base)) 1]
  exact hperm.map _

/-- The vector of a parent that accepted the leaves `ds` of the children
`cs` encrypts, under its shared key, the sum of its own filter and the
children's, in the order of their acceptance. -/
theorem parentResult_encrypts_sum {p : ConsensusStructuredState F G Proof} {set : List ℤ}
    (hset : set.length = p.ParametersCBF.1) (ks : ℕ → F) {cs : List (Conode F × ℕ)} {ds : List (LeafData F G Proof)}
    (hacc : List.Forall₂ (AcceptedChild S hashes p.SharedKey p.ParametersCBF) cs ds)
    (hds : ∀ d ∈ ds, d.ev.length = p.ParametersCBF.1) :
    ∃ sets v, List.Forall₂ (fun ci set => FilledFrom hashes p.ParametersCBF.1 p.ParametersCBF.2 ci.1.page set)
        cs sets ∧
      (parentResult S p set ks ds).EncryptedCBFSet = some v ∧ v.length = p.ParametersCBF.1 ∧
      v.EncryptsInts S p.SharedKey (sumSets p.ParametersCBF.1 (set :: sets)) := by
  -- the filters of the children, in the same order
  obtain ⟨sets, hfilled, hsetsEnc⟩ := List.Forall₂.exists_middle
    (P := fun ci set => FilledFrom hashes p.ParametersCBF.1 p.ParametersCBF.2 ci.1.page set)
    (Q := fun set d => d.ev.EncryptsInts S p.SharedKey set)
    (hacc.imp fun ci d ⟨_, set', hfill, hev⟩ =>
      ⟨set', hfill, hev ▸ encryptIntVector_encryptsInts S p.SharedKey set' ci.1.ks⟩)
  have hlen : (localAggregation S p set ks).EncryptedCBFSet.length = p.ParametersCBF.1 := by
    simp [localAggregation, length_encryptIntVector, hset]
  obtain ⟨hsum, hvlen⟩ := sum_foldl_acceptLeaf S _ _ hlen hds
  refine ⟨sets, _, hfilled, rfl, hvlen, ?_⟩
  -- the parent's own vector, then the leaves', added into the null vector
  have hall : List.Forall₂ (CipherVector.EncryptsInts S p.SharedKey)
      ((localAggregation S p set ks).EncryptedCBFSet :: ds.map LeafData.ev) (set :: sets) :=
    .cons (encryptIntVector_encryptsInts S p.SharedKey set ks)
      (List.forall₂_map_left_iff.mpr hsetsEnc.flip)
  rw [hsum]
  exact List.rel_foldl (P := CipherVector.EncryptsInts S p.SharedKey) (R := CipherVector.EncryptsInts S p.SharedKey)
    (fun _ _ h₁ _ _ h₂ => CipherVector.EncryptsInts.zipWith_add S h₁ h₂)
    (newCipherVector_encryptsInts S p.SharedKey p.ParametersCBF.1) hall

/-! ## From the fetches to the consensus page -/

section Save

variable {α : Type*} [DecidableEq α] (newRosterWithRoot : List α → α → List α)

/-- The conodes below the root in `GenerateNaryTree(n)` of the roster that
`NewRosterWithRoot(B)` reorders (`service/service.go`, lines 172-173), each
with what it brings to the run; `newRosterWithRoot` is onet's
`Roster.NewRosterWithRoot`. -/
def treeChildren (conode : α → Conode F) (roster : List α) (B : α) : List (Conode F) :=
  (newRosterWithRoot roster B).tail.map conode

omit [Field F] [DecidableEq α] in
variable {newRosterWithRoot} in
/-- The root and the conodes below it are the roster's conodes. -/
theorem root_treeChildren_perm (hnew : NewRosterWithRootSpec newRosterWithRoot)
    (conode : α → Conode F) {roster : List α} {B : α} (hroster : roster.Nodup) (hB : B ∈ roster) :
    (conode B :: treeChildren newRosterWithRoot conode roster B).Perm (roster.map conode) := by
  have hperm := (hnew.perm hroster hB).map conode
  rw [hnew.eq_cons_tail hroster hB, List.map_cons] at hperm
  exact hperm

/-- The roster of an honest save: distinct conodes with distinct keys, the
serving conode `B` among them; the repliers `order` to its `PromptDecrypt`,
`threshold - 1` conodes other than `B`; and the DKG that `Setup` ran with
`B` as root, with a polynomial `f` of degree below the threshold.  The
threshold is at most 255, where `Count` seeds its minimum. -/
structure HonestRoster (conode : α → Conode F) (roster order : List α) (B : α) (f : F[X]) (share : α → F) :
    Prop where
  nodup : roster.Nodup
  mem : B ∈ roster
  keys : (roster.map fun a => S.PointString ((conode a).secret • S.Base)).Nodup
  order_nodup : order.Nodup
  repliers_mem : ∀ c ∈ order, c ∈ roster ∧ c ≠ B
  two_le : 2 ≤ serviceThreshold roster.length
  le_255 : serviceThreshold roster.length ≤ 255
  length_order : order.length + 1 = serviceThreshold roster.length
  injOn : Set.InjOn (fun j : ℕ => ((j + 1 : ℕ) : F)) (Finset.range roster.length)
  degree : f.degree < serviceThreshold roster.length
  shares : DKGShares f (newRosterWithRoot roster B) share

namespace HonestRoster

variable {S} {newRosterWithRoot} {conode : α → Conode F} {roster order : List α} {B : α} {f : F[X]} {share : α → F}

/-- A roster whose threshold is at most 255 has at most 382 conodes. -/
theorem length_le (H : HonestRoster S newRosterWithRoot conode roster order B f share) : roster.length ≤ 382 := by
  have h := H.le_255
  unfold serviceThreshold at h
  omega

/-- The root has a child: a roster with a threshold of at least 2 has at
least two conodes. -/
theorem length_treeChildren (hnew : NewRosterWithRootSpec newRosterWithRoot)
    (H : HonestRoster S newRosterWithRoot conode roster order B f share) :
    (treeChildren newRosterWithRoot conode roster B).length + 1 = roster.length ∧ 1 ≤ (treeChildren newRosterWithRoot conode roster B).length := by
  have hlen := (root_treeChildren_perm hnew conode H.nodup H.mem).length_eq
  have h := H.two_le
  rw [List.length_cons, List.length_map] at hlen
  unfold serviceThreshold at h
  omega

/-- The repliers, in the roster that `NewRosterWithRoot(B)` reorders. -/
theorem repliers (hnew : NewRosterWithRootSpec newRosterWithRoot)
    (H : HonestRoster S newRosterWithRoot conode roster order B f share) :
    Repliers (newRosterWithRoot roster B) B order :=
  ⟨hnew.head H.nodup H.mem, H.order_nodup,
    fun c hc => (hnew.perm H.nodup H.mem).mem_iff.mpr (H.repliers_mem c hc).1,
    fun c hc => (H.repliers_mem c hc).2⟩

/-- The keys of the root and the conodes below it are distinct. -/
theorem keys_root_treeChildren (hnew : NewRosterWithRootSpec newRosterWithRoot)
    (H : HonestRoster S newRosterWithRoot conode roster order B f share) :
    ((conode B :: treeChildren newRosterWithRoot conode roster B).map fun c => S.PointString (c.secret • S.Base)).Nodup := by
  rw [((root_treeChildren_perm hnew conode H.nodup H.mem).map _).nodup_iff, List.map_map]
  exact H.keys

end HonestRoster

variable {newRosterWithRoot}

variable [DecidableEq G]

/-- **An honest structured save, up to the reconstruction.**  The leaves
return; for every order in which their replies reach the root, the root
accepts one leaf for each child and its vector encrypts, under the
collective key, the sum of filters filled from the roster's pages; the
`threshold - 1` honest partial decryptions finish the `Decrypt` run, leave a
vector of the vector's length in slots of the roster, and let `reconstruct`
return that sum from every package state of `GetPointToInt`. -/
theorem honestSave_decrypts (hS : S.SchnorrComplete) (hD : S.DLEQComplete)
    (hB : OrderExceeds S.Base (2 * MaxHomomorphicInt)) (hnew : NewRosterWithRootSpec newRosterWithRoot)
    {recoverCommit : ℕ → ℕ → (ℕ → Option G) → Except String G}
    (hrc : RecoverCommitSpec F recoverCommit) {conode : α → Conode F} {roster order : List α} {B : α}
    {f : F[X]} {share : α → F} (H : HonestRoster S newRosterWithRoot conode roster order B f share) {param : ℕ × ℕ}
    (hparam : 0 < param.1) :
    ∃ leaves, leafStates S hashes (serviceTree S (conode B) (treeChildren newRosterWithRoot conode roster B)) (f.eval 0 • S.Base)
        param (treeChildren newRosterWithRoot conode roster B) = .ok leaves ∧
      ∀ arrival, arrival.Perm leaves →
        ∃ (set : List ℤ) (ds : List (LeafData F G Proof)) (cs : List (Conode F × ℕ)) (sets : List (List ℤ))
          (v : CipherVector G) (d : Decrypt F G), rootState S hashes (serviceTree S (conode B) (treeChildren newRosterWithRoot conode roster B))
            (f.eval 0 • S.Base) param (conode B) arrival = .ok (parentResult S (honestState S
              (serviceTree S (conode B) (treeChildren newRosterWithRoot conode roster B)) (f.eval 0 • S.Base) param (conode B) 0 false)
              set (conode B).ks ds) ∧
          (∀ d ∈ ds, d.ev.length = param.1 ∧
            (serviceTree S (conode B) (treeChildren newRosterWithRoot conode roster B)).Search d.node = some ⟨d.secret • S.Base, 0⟩ ∧
            verifyCipherVectorProof S d.cvp d.ev = .ok true) ∧
          (ds.map fun d => S.PointString (d.secret • S.Base)).Perm
            ((treeChildren newRosterWithRoot conode roster B).map fun c => S.PointString (c.secret • S.Base)) ∧
          List.Forall₂ (FilledFrom hashes param.1 param.2) ((conode B).page :: cs.map fun ci => ci.1.page)
            (set :: sets) ∧
          ((conode B).page :: cs.map fun ci => ci.1.page).Perm (roster.map fun a => (conode a).page) ∧
          (parentResult S (honestState S (serviceTree S (conode B) (treeChildren newRosterWithRoot conode roster B))
            (f.eval 0 • S.Base) param (conode B) 0 false) set (conode B).ks ds).EncryptedCBFSet = some v ∧
          (order.map (honestPartial S share (newRosterWithRoot roster B) v)).foldlM (handlePartial S)
            (decryptRoot roster.length (share B) v) = .ok d ∧ d.finishes = [true] ∧
          (∀ j l, d.Partials.lookup j = some l → j < roster.length ∧ l.length = v.length) ∧
          ∀ tbl, NonnegTable S.Base tbl → ∃ tbl', reconstructVectorFromPartials recoverCommit S.Base roster.length
            (serviceThreshold roster.length) d.Partials tbl = .ok (.ok (sumSets param.1 (set :: sets)), tbl') := by
  have hperm := root_treeChildren_perm hnew conode H.nodup H.mem
  obtain ⟨leaves, hls, hrel, henc⟩ :=
    leafStates_honest_encrypts S hashes hD (f.eval 0 • S.Base) hparam (conode B) (treeChildren newRosterWithRoot conode roster B)
  refine ⟨leaves, hls, fun arrival harr => ?_⟩
  obtain ⟨set, ds, cs, hfill, hds, hcs, hacc, hrun⟩ :=
    rootState_accepts_children S hashes hS _ hparam _ _ (H.keys_root_treeChildren hnew) hrel henc harr
  obtain ⟨sets, v, hfilled, hv, hvlen, hms⟩ :=
    parentResult_encrypts_sum S hashes (p := honestState S (serviceTree S (conode B) (treeChildren newRosterWithRoot conode roster B))
      (f.eval 0 • S.Base) param (conode B) 0 false) hfill.length_eq (conode B).ks hacc fun d hd => (hds d hd).1
  have hall : List.Forall₂ (FilledFrom hashes param.1 param.2) ((conode B).page :: cs.map fun ci => ci.1.page)
      (set :: sets) :=
    .cons hfill (List.forall₂_map_left_iff.mpr hfilled)
  -- the filters were filled from the roster's pages
  have hpages : ((conode B).page :: cs.map fun ci => ci.1.page).Perm (roster.map fun a => (conode a).page) := by
    have hchildren : (cs.map fun ci => ci.1.page).Perm ((treeChildren newRosterWithRoot conode roster B).map Conode.page) := by
      rw [← map_zipIdx_fst _ Conode.page 1]
      exact hcs.map _
    have h := (hchildren.cons (conode B).page).trans (hperm.map Conode.page)
    rwa [List.map_map] at h
  -- a conode adds at most one to each entry, and the roster is small
  have hrange : ∀ m ∈ sumSets param.1 (set :: sets), 0 ≤ m ∧ m < MaxHomomorphicInt := by
    have hn : (set :: sets).length = roster.length := by
      rw [← hall.length_eq, hpages.length_eq, List.length_map]
    intro m hm
    have hb := sumSets_bounds param.1 (fun set hset => (FilledFrom.of_mem hashes hall set hset).2) m hm
    rw [hn] at hb
    have hsmall := H.length_le
    unfold MaxHomomorphicInt
    omega
  have hcv : v ≠ [] := List.ne_nil_of_length_pos (hvlen ▸ hparam)
  obtain ⟨d, hdec, hfin, hP⟩ := foldlM_honestPartials S hD share (H.repliers hnew) hcv H.two_le H.length_order
  refine ⟨set, ds, cs, sets, v, d, hrun, hds, keys_perm_of_accepted S hashes hacc hcs, hall, hpages, hv, hdec, hfin,
    fun j l hl => ?_, fun tbl htbl => ?_⟩
  · -- a stored vector sits in a slot of the roster and decrypts the whole vector
    rw [hP j] at hl
    split_ifs at hl with hj
    cases hl
    exact ⟨hnew.length_eq H.nodup H.mem ▸ (H.repliers hnew).lt_of_mem_rosterSlots hj, List.length_map _⟩
  · obtain ⟨d', hdec', -, tbl', hrec, -⟩ := reconstruct_recovers_plaintext_of_same_root S hD hB hnew hrc H.nodup H.mem
      H.order_nodup H.repliers_mem H.two_le H.length_order H.injOn H.degree H.shares hcv hms hrange htbl
    obtain rfl : d' = d := Outcome.ok.inj (hdec'.symm.trans hdec)
    exact ⟨tbl', hrec⟩

variable (render : Node → Except String Bytes)

/-! ### A sample roster

The two conodes of the sample of `ServiceReconstruct`, in the suite on `ℚ`:
`0` is the root, with key `1` and the page with the title `12:01`, and `1`
has key `3` and the page with the title `12:00`.  The DKG polynomial is the
constant `2`, so each share is `2`. -/

/-- The conodes of the sample roster `[0, 1]`. -/
def sampleConode (a : ℕ) : Conode ℚ :=
  if a = 0 then ⟨1, rootPage, fun _ => 1⟩ else ⟨3, conodePage, fun _ => 1⟩

/-- Schnorr signatures in `Suite.rat` always verify. -/
theorem rat_schnorrComplete : Suite.rat.SchnorrComplete :=
  fun _ _ => rfl

theorem rat_dleqComplete : Suite.rat.DLEQComplete := by
  intro g h x
  simp [Suite.rat]

/-- The sample roster is an honest one: `1` replies to the root `0`, under
the threshold `2`, and the shares `2` are the constant polynomial's. -/
theorem sampleRoster : HonestRoster Suite.rat swapRoot sampleConode [0, 1] [1] 0 (C (2 : ℚ)) (fun _ => 2) where
  nodup := by decide
  mem := by decide
  keys := by
    -- the keys `1` and `3` print as distinct strings
    simp [sampleConode, Suite.rat]
    decide
  order_nodup := by decide
  repliers_mem := by decide
  two_le := by decide
  le_255 := by decide
  length_order := by decide
  injOn := sampleSlots_injOn
  degree := sample_degree_lt
  shares := fun _ _ => eval_C.symm

/-- **An honest structured save keeps what enough conodes saw.**  On a
roster of distinct conodes with distinct keys, whose DKG ran with the root
`B`, every order in which the children's replies reach the root gives a
vector that `threshold - 1` honest partial decryptions let `reconstruct`
decode; the consensus page is a pruning of the root's page that removes only
leaves counted below the threshold, and it keeps every leaf that at least
`threshold` conodes saw. -/
theorem saveWebpage_structured_keeps_shared_leaves (hS : S.SchnorrComplete) (hD : S.DLEQComplete)
    (hB : OrderExceeds S.Base (2 * MaxHomomorphicInt)) (hnew : NewRosterWithRootSpec newRosterWithRoot)
    {recoverCommit : ℕ → ℕ → (ℕ → Option G) → Except String G}
    (hrc : RecoverCommitSpec F recoverCommit) {conode : α → Conode F} {roster order : List α} {B : α}
    {f : F[X]} {share : α → F} (H : HonestRoster S newRosterWithRoot conode roster order B f share) {param : ℕ × ℕ}
    (hparam : 0 < param.1) {r : String} {c : Node} {cs : List Node} (hpage : (conode B).page = .mk r (c :: cs))
    {tbl : DlogTable G} (htbl : NonnegTable S.Base tbl) :
    ∃ leaves, leafStates S hashes (serviceTree S (conode B) (treeChildren newRosterWithRoot conode roster B)) (f.eval 0 • S.Base)
        param (treeChildren newRosterWithRoot conode roster B) = .ok leaves ∧
      ∀ arrival, arrival.Perm leaves →
        ∃ p v, rootState S hashes (serviceTree S (conode B) (treeChildren newRosterWithRoot conode roster B)) (f.eval 0 • S.Base)
            param (conode B) arrival = .ok p ∧ p.EncryptedCBFSet = some v ∧
          ∃ d, (order.map (honestPartial S share (newRosterWithRoot roster B) v)).foldlM (handlePartial S)
              (decryptRoot roster.length (share B) v) = .ok d ∧ d.finishes = [true] ∧
            ∃ consensusCBF page tbl', serviceReconstruct recoverCommit S.Base hashes render roster.length
                (serviceThreshold roster.length) d.Partials (conode B).page param tbl =
                .ok ((render page).map fun html => (consensusCBF, html), tbl') ∧
              Prunes (LowCount hashes (serviceThreshold roster.length) (bloomFilterFromSet consensusCBF param))
                (conode B).page (some page) ∧
              ∀ l ∈ (conode B).page.leafData, serviceThreshold roster.length ≤
                roster.countP (fun a => decide (l ∈ listUniqueDataLeaves (conode a).page)) →
                l ∈ page.leafData := by
  obtain ⟨leaves, hls, hsave⟩ := honestSave_decrypts S hashes hS hD hB hnew hrc H hparam
  refine ⟨leaves, hls, fun arrival harr => ?_⟩
  obtain ⟨set, ds, cs', sets, v, d, hrun, -, -, hall, hpages, hv, hdec, hfin, -, hrec⟩ := hsave arrival harr
  obtain ⟨tbl', hrec⟩ := hrec tbl htbl
  rw [hpage]
  obtain ⟨page, hsr, hprunes, hkeeps⟩ :=
    serviceReconstruct_prunes_of_sum hashes render hparam hall hrec H.le_255 r c cs
  refine ⟨_, v, hrun, hv, d, hdec, hfin, _, page, tbl', hsr, hprunes, fun l hl hseen => hkeeps l hl ?_⟩
  rwa [hpages.countP_eq, List.countP_map]

/-- The sample roster: the consensus page keeps the paragraph's `text`,
which both conodes saw, whatever the order of the replies. -/
theorem saveWebpage_structured_keeps_shared_leaves_sample :
    HonestRoster Suite.rat swapRoot sampleConode [0, 1] [1] 0 (C (2 : ℚ)) (fun _ => 2) ∧
    ∃ leaves, leafStates Suite.rat sampleHashes (serviceTree Suite.rat (sampleConode 0)
        (treeChildren swapRoot sampleConode [0, 1] 0)) ((C (2 : ℚ)).eval 0 • Suite.rat.Base) (2, 1)
        (treeChildren swapRoot sampleConode [0, 1] 0) = .ok leaves ∧
      ∀ arrival, arrival.Perm leaves →
        ∃ p v, rootState Suite.rat sampleHashes (serviceTree Suite.rat (sampleConode 0)
            (treeChildren swapRoot sampleConode [0, 1] 0)) ((C (2 : ℚ)).eval 0 • Suite.rat.Base) (2, 1)
            (sampleConode 0) arrival = .ok p ∧ p.EncryptedCBFSet = some v ∧
          ∃ d, ([1].map (honestPartial Suite.rat (fun _ => (2 : ℚ)) (swapRoot [0, 1] 0) v)).foldlM
              (handlePartial Suite.rat) (decryptRoot 2 2 v) = .ok d ∧ d.finishes = [true] ∧
            ∃ consensusCBF page tbl', serviceReconstruct (recoverFirstShares (G := ℚ) ℚ) Suite.rat.Base sampleHashes (fun _ => .ok []) 2
                (serviceThreshold 2) d.Partials (sampleConode 0).page (2, 1) DlogTable.initial =
                .ok ((Except.ok [] : Except String Bytes).map fun html => (consensusCBF, html), tbl') ∧
              Prunes (LowCount sampleHashes (serviceThreshold 2) (bloomFilterFromSet consensusCBF (2, 1)))
                (sampleConode 0).page (some page) ∧
              ∀ l ∈ (sampleConode 0).page.leafData, serviceThreshold 2 ≤
                [0, 1].countP (fun a => decide (l ∈ listUniqueDataLeaves (sampleConode a).page)) →
                l ∈ page.leafData := by
  have hpage : (sampleConode 0).page = .mk "html" [.mk "title" [.mk "12:01" []], .mk "p" [.mk "text" []]] :=
    rfl
  exact ⟨sampleRoster, saveWebpage_structured_keeps_shared_leaves Suite.rat sampleHashes (fun _ => .ok [])
    rat_schnorrComplete rat_dleqComplete (orderExceeds_rat_base _) swapRoot_spec (recoverFirstShares_spec ℚ)
    sampleRoster (by decide) hpage
    (NonnegTable.initial _)⟩

end Save

end Decenarch
