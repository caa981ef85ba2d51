import Decenarch.HonestSign
import Decenarch.Archive
import Decenarch.Lib.LastWrite
import Mathlib.Tactic.NormNum.Prime

/-!
# What a conode keeps for the cosigning (`service/service.go`)

Between the protocols of one `SaveWebpage`, a conode keeps what the cosigning
will check in fields of its `Service`, written as the messages of the save
arrive:

* the goroutine that `NewProtocol` starts for `NameConsensusStructured`
  waits on `Finished` and stores the unique leaves of the conode's fetch and
  the map of complete proofs the root broadcast (`HandleCompleteProofs`);
* the goroutine for `NameDecrypt` waits on `Received` and stores the vector
  of the root's prompt (`HandlePrompt`);
* `propagateConsensusFunc` stores the `ConsensusPropagation` of the root.

`NewProtocol` for `NameSubSignStructured` reads them, with the threshold of
the conode's `Storage`, into the `VerificationData` of
`verificationFunctionStructured`.  Nothing orders the three writers, and
nothing ties the fields to one save: a run is any sequence of the events,
and each field holds the last value written to it (`Lib.LastWrite`).

In an honest save the three events of the save reach the conode in some
order, and the conode cosigns the consensus page exactly when its leaves are
its own (`honestSave_conode_signs_iff_own_leaves`).  When the propagation
misses the conode, which `SaveWebpage` only logs before it signs
(`propagateConsensusAndSign`), the conode checks the page against what an
earlier save propagated, or `NewProtocol` dereferences the nil
`ConsensusPropagation` of a conode that never had one.
-/

namespace Decenarch

open LastWrite

variable {F G Proof : Type}

/-! ## The fields and their writers -/

/-- The fields of a conode's `Service` that the cosigning reads: `Leaves`,
`EncryptedCBFSet` and `ConsensusPropagation` of the service, and
`CompleteProofs` of its `Storage`. -/
@[ext]
structure SignFields (G Proof : Type) where
  Leaves : List String
  EncryptedCBFSet : Option (CipherVector G)
  ConsensusPropagation : Option ConsensusPropagation
  CompleteProofs : CompleteProofs G Proof

/-- The fields of a new service: nil slices, nil pointers, an empty map. -/
def SignFields.empty : SignFields G Proof :=
  ⟨[], none, none, ∅⟩

/-- What writes the fields. -/
inductive SignEvent (G Proof : Type) where
  /-- The goroutine of `NameConsensusStructured` after `<-proto.Finished`:
  the conode's `LocalTree` and `CompleteProofsToSend`. -/
  | consensusFinished (localTree : Node) (proofs : CompleteProofs G Proof)
  /-- The goroutine of `NameDecrypt` after `<-proto.Received`: the vector of
  the prompt. -/
  | decryptReceived (cv : CipherVector G)
  /-- `propagateConsensusFunc`. -/
  | consensusPropagated (m : ConsensusPropagation)

/-- The write of an event. -/
def SignFields.handle (st : SignFields G Proof) : SignEvent G Proof → SignFields G Proof
  | .consensusFinished tree cps => { st with Leaves := listUniqueDataLeaves tree, CompleteProofs := cps }
  | .decryptReceived cv => { st with EncryptedCBFSet := some cv }
  | .consensusPropagated m => { st with ConsensusPropagation := some m }

/-- `NewProtocol` for `NameSubSignStructured` at the conode with key
`conodeKey`: `s.ConsensusPropagation.RootKey` panics on a nil pointer. -/
def newSubSignData {ID Key : Type} (storage : Storage ID Key) (st : SignFields G Proof) (conodeKey : String) :
    Outcome (VerificationData G Proof) :=
  match st.ConsensusPropagation with
  | none => .panic
  | some prop => .ok (subSignData storage.Threshold prop conodeKey st.EncryptedCBFSet st.Leaves st.CompleteProofs)

namespace SignEvent

/-- What a `consensusFinished` event carries. -/
def finished? : SignEvent G Proof → Option (Node × CompleteProofs G Proof)
  | .consensusFinished tree cps => some (tree, cps)
  | _ => none

/-- What a `decryptReceived` event carries. -/
def received? : SignEvent G Proof → Option (CipherVector G)
  | .decryptReceived cv => some cv
  | _ => none

/-- What a `consensusPropagated` event carries. -/
def propagated? : SignEvent G Proof → Option ConsensusPropagation
  | .consensusPropagated m => some m
  | _ => none

end SignEvent

/-- After a run, each field holds its last write, or what it held before. -/
theorem SignFields.foldl_handle (st : SignFields G Proof) (evs : List (SignEvent G Proof)) :
    evs.foldl SignFields.handle st =
      ⟨(lastWrite (fun e => e.finished?.map fun p => listUniqueDataLeaves p.1) evs).getD st.Leaves,
        (lastWrite (fun e => e.received?.map some) evs).getD st.EncryptedCBFSet,
        (lastWrite (fun e => e.propagated?.map some) evs).getD st.ConsensusPropagation,
        (lastWrite (fun e => e.finished?.map Prod.snd) evs).getD st.CompleteProofs⟩ := by
  -- each field is written by one kind of event and left alone by the others
  ext1
  · exact get_foldl _ SignFields.Leaves (fun _ e => by cases e <;> rfl) evs st
  · exact get_foldl _ SignFields.EncryptedCBFSet (fun _ e => by cases e <;> rfl) evs st
  · exact get_foldl _ SignFields.ConsensusPropagation (fun _ e => by cases e <;> rfl) evs st
  · exact get_foldl _ SignFields.CompleteProofs (fun _ e => by cases e <;> rfl) evs st

/-- A run made of one consensus event, one decrypt event and any number of
propagations leaves the leaves, the map and the vector of those two events;
the propagation is the run's last, or the one held before. -/
theorem signFields_foldl_of_mem (st : SignFields G Proof) {tree : Node} {cps : CompleteProofs G Proof}
    {v : CipherVector G} {evs : List (SignEvent G Proof)}
    (hmem : ∀ e ∈ evs, e = .consensusFinished tree cps ∨ e = .decryptReceived v ∨ ∃ m, e = .consensusPropagated m)
    (hf : .consensusFinished tree cps ∈ evs) (hr : .decryptReceived v ∈ evs) :
    evs.foldl SignFields.handle st =
      ⟨listUniqueDataLeaves tree, some v,
        (lastWrite (fun e => e.propagated?.map some) evs).getD st.ConsensusPropagation, cps⟩ := by
  -- a field is written only by the run's one event of its kind
  have hwrite : ∀ {β : Type} (write : SignEvent G Proof → Option β) (e₀ : SignEvent G Proof) (b : β),
      e₀ ∈ evs → write e₀ = some b → (∀ e ∈ evs, e ≠ e₀ → write e = none) → lastWrite write evs = some b :=
    fun write e₀ b he₀ hw₀ hother => lastWrite_eq_of_forall
      (fun e he b' hw => by
        by_cases h : e = e₀
        · subst h
          exact Option.some.inj (hw.symm.trans hw₀)
        · rw [hother e he h] at hw
          cases hw)
      ⟨e₀, he₀, hw₀⟩
  have hL := hwrite (fun e => e.finished?.map fun p => listUniqueDataLeaves p.1) _ _ hf rfl fun e he hne => by
    rcases hmem e he with rfl | rfl | ⟨m, rfl⟩ <;> simp_all [SignEvent.finished?]
  have hV := hwrite (fun e => e.received?.map some) _ (some v) hr rfl fun e he hne => by
    rcases hmem e he with rfl | rfl | ⟨m, rfl⟩ <;> simp_all [SignEvent.received?]
  have hC := hwrite (fun e => e.finished?.map Prod.snd) _ _ hf rfl fun e he hne => by
    rcases hmem e he with rfl | rfl | ⟨m, rfl⟩ <;> simp_all [SignEvent.finished?]
  rw [SignFields.foldl_handle, hL, hV, hC]
  rfl

/-- The events of one save, in any order after any history, leave the data of
that save. -/
theorem newSubSignData_of_save {ID Key : Type} (storage : Storage ID Key) (st : SignFields G Proof) {tree : Node}
    {cps : CompleteProofs G Proof} {v : CipherVector G} {m : ConsensusPropagation} {evs : List (SignEvent G Proof)}
    (hevs : evs.Perm [.consensusFinished tree cps, .decryptReceived v, .consensusPropagated m]) (conodeKey : String) :
    newSubSignData storage (evs.foldl SignFields.handle st) conodeKey =
      .ok (subSignData storage.Threshold m conodeKey (some v) (listUniqueDataLeaves tree) cps) := by
  have hmem : ∀ e ∈ evs, e = .consensusFinished tree cps ∨ e = .decryptReceived v ∨ e = .consensusPropagated m := by
    intro e he
    simpa using hevs.subset he
  have hP : lastWrite (fun e => e.propagated?.map some) evs = some (some m) :=
    lastWrite_eq_of_forall
      (fun e he b' hw => by rcases hmem e he with rfl | rfl | rfl <;> simp_all [SignEvent.propagated?])
      ⟨.consensusPropagated m, hevs.mem_iff.mpr (by simp), rfl⟩
  rw [signFields_foldl_of_mem st (fun e he => (hmem e he).imp_right (Or.imp_right fun h => ⟨m, h⟩))
    (hevs.mem_iff.mpr (by simp)) (hevs.mem_iff.mpr (by simp)), hP]
  rfl

section Propagation

variable {α ID Key : Type} [DecidableEq α]

end Propagation

/-! ## The decision of an honest conode -/

section Decision

variable [Field F] [AddCommGroup G] [Module F G] [DecidableEq G]
variable (S : Suite F G Proof) (hashes : Bytes → ℕ × ℕ)

variable {α : Type*} [DecidableEq α]

/-- **An honest conode cosigns exactly the pages made of its own leaves.**
In an honest structured save, for every order in which the children's
replies reach the root, the root reconstructs a filter from the `Decrypt`
run.  Take a conode other than the root, with the threshold of the setup,
after any history, once the consensus, the decrypt prompt and the
propagation of the save have reached it in any order: it checks a page
against the `VerificationData` that `NewProtocol` builds, and accepts the
page exactly when each of the page's leaves, other than `noscript` and
`script`, is one of its own.  The root's map, its aggregation proof and the
propagated partials all pass the audit. -/
theorem honestSave_conode_signs_iff_own_leaves (hM : S.MarshalRoundTrip) (hS : S.SchnorrComplete)
    (hD : S.DLEQComplete) (hB : OrderExceeds S.Base (2 * MaxHomomorphicInt))
    {newRosterWithRoot : List α → α → List α} (hnew : NewRosterWithRootSpec newRosterWithRoot)
    {recoverCommit : ℕ → ℕ → (ℕ → Option G) → Except String G} (hrc : RecoverCommitSpec F recoverCommit)
    {conode : α → Conode F} {roster order : List α} {B : α} {f : Polynomial F} {share : α → F}
    (H : HonestRoster S newRosterWithRoot conode roster order B f share) {param : ℕ × ℕ} (hparam : 0 < param.1)
    {tbl : DlogTable G} (htbl : NonnegTable S.Base tbl) :
    ∃ leaves, leafStates S hashes (serviceTree S (conode B) (treeChildren newRosterWithRoot conode roster B)) (f.eval 0 • S.Base)
        param (treeChildren newRosterWithRoot conode roster B) = .ok leaves ∧
      ∀ arrival, arrival.Perm leaves →
        ∃ p v d consensusCBF tbl', rootState S hashes (serviceTree S (conode B) (treeChildren newRosterWithRoot conode roster B))
            (f.eval 0 • S.Base) param (conode B) arrival = .ok p ∧ p.EncryptedCBFSet = some v ∧
          (order.map (honestPartial S share (newRosterWithRoot roster B) v)).foldlM (handlePartial S)
            (decryptRoot roster.length (share B) v) = .ok d ∧ d.finishes = [true] ∧
          reconstructVectorFromPartials recoverCommit S.Base roster.length (serviceThreshold roster.length) d.Partials tbl =
            .ok (.ok consensusCBF, tbl') ∧
          ∀ a ∈ roster, a ≠ B → ∀ {ID Key : Type} (storage : Storage ID Key) (st : SignFields G Proof)
            (evs : List (SignEvent G Proof)), storage.Threshold = serviceThreshold roster.length →
            evs.Perm [.consensusFinished (conode a).page p.CompleteProofs, .decryptReceived v,
              .consensusPropagated (consensusPropagation S (S.PointString ((conode B).secret • S.Base)) consensusCBF
                d.Partials param)] →
            ∀ (vd : VerificationData G Proof), newSubSignData storage (evs.foldl SignFields.handle st)
              (S.PointString ((conode a).secret • S.Base)) = .ok vd →
            ∀ (parse : Bytes → Option Node) (unmarshal : Bytes → Option (VerificationData G Proof))
              (visits : List (CompleteProof G Proof × List Bytes)) (contributions : List Bytes) (msg data : Bytes)
              (rootNode : Node) (tblc : DlogTable G), parse msg = some rootNode → unmarshal data = some vd →
            Visits p.CompleteProofs visits →
            ContributionsOrder p.CompleteProofs (S.PointString ((conode B).secret • S.Base)) contributions →
            NonnegTable S.Base tblc →
            ∃ tblc', verificationFunctionStructured recoverCommit S hashes parse unmarshal visits contributions msg data tblc =
              .ok (decide (∀ l ∈ listUniqueDataLeaves rootNode, l ≠ "noscript" → l ≠ "script" →
                l ∈ listUniqueDataLeaves (conode a).page), tblc') := by
  obtain ⟨leaves, hls, hsave⟩ := honestSave_decrypts S hashes hS hD hB hnew hrc H hparam
  refine ⟨leaves, hls, fun arrival harr => ?_⟩
  obtain ⟨set, ds, cs, sets, v, d, hrun, hds, hkeysDs, hall, hpages, hv, hdec, hfin, hwf, hrec⟩ :=
    hsave arrival harr
  obtain ⟨tbl', hrecRoot⟩ := hrec tbl htbl
  obtain ⟨hnodup, hfresh, hlen⟩ := H.keys_accepted hnew hkeysDs
  refine ⟨_, v, d, _, tbl', hrun, hv, hdec, hfin, hrecRoot, fun a ha haB ID Key storage st evs hthr hevs vd hvd parse
    unmarshal visits contributions msg data rootNode tblc hmsg hdata hvisits horder htblc => ?_⟩
  -- the conode's data is the save's, whatever the order of its events
  rw [newSubSignData_of_save storage st hevs, hthr] at hvd
  rw [← Outcome.ok.inj hvd] at hdata
  obtain ⟨tblc', hrecC⟩ := hrec tblc htblc
  -- the conode's own page is among those the consensus filter sums
  have hown : ∀ l ∈ listUniqueDataLeaves (conode a).page, ∃ k,
      (bloomFilterFromSet (sumSets param.1 (set :: sets)) param).count hashes (stringBytes l) = .ok k ∧ k ≠ 0 :=
    fun l hl => count_sumSets_ne_zero hashes hparam hall
      (hpages.mem_iff.mpr (List.mem_map_of_mem (f := fun a => (conode a).page) ha)) hl
  have hkey : S.PointString ((conode a).secret • S.Base) ≠ S.PointString ((conode B).secret • S.Base) :=
    fun heq => haB (List.inj_on_of_nodup_map H.keys ha H.mem heq)
  exact verificationFunctionStructured_parentResult recoverCommit S hashes hM hS
    (List.ne_nil_of_length_pos (H.length_treeChildren hnew).2) (List.forall₂_cons.mp hall).1.length_eq hds hnodup hfresh hv
    hlen hwf hrecC hkey hown hmsg hdata hvisits horder

/-! ### A sample in a suite with encodings

A conode decodes the propagated partials, so the sample runs in a suite
whose points encode: `ZMod 1000003` acting on itself with base `1`, whose
order is above `2 * MaxHomomorphicInt`.  The roster is the one of
`sampleRoster`, with the same keys, pages and shares. -/

instance fact_prime_1000003 : Fact (Nat.Prime 1000003) := ⟨by norm_num⟩

/-- The suite on `ZMod 1000003`: a point encodes as its value in the first
three of 32 bytes, least significant first; signatures and DLEQ proofs are
as in `Suite.zmod7`. -/
def Suite.zmod1000003 : Suite (ZMod 1000003) (ZMod 1000003) (ZMod 1000003) where
  Base := 1
  MarshalBinary P := [(P.val % 256).toUInt8, (P.val / 256 % 256).toUInt8, (P.val / 65536).toUInt8] ++
    List.replicate 29 0
  UnmarshalBinary b := (((b.getD 0 0).toNat + 256 * (b.getD 1 0).toNat + 65536 * (b.getD 2 0).toNat : ℕ) :
    ZMod 1000003)
  UnmarshalFails _ := false
  PointString P := toString P.val
  HashSum b := b ++ [0]
  SchnorrSign x _ := [x.val.toUInt8]
  SchnorrVerify X _ sig := if sig = [X.val.toUInt8] then none else some "schnorr: invalid signature"
  NewDLEQProof _ _ x := x
  DLEQVerify x g h xg xh := if x • g = xg ∧ x • h = xh then none else some "invalid proof"

theorem zmod1000003_marshalRoundTrip : Suite.zmod1000003.MarshalRoundTrip := by
  intro P
  have hP : P.val < 1000003 := ZMod.val_lt P
  refine ⟨by simp [Suite.zmod1000003], ?_, rfl⟩
  -- three bytes hold every value below `2 ^ 24`
  have hbytes : P.val % 256 % 256 + 256 * (P.val / 256 % 256 % 256) + 65536 * (P.val / 65536 % 256) = P.val := by
    omega
  simp only [Suite.zmod1000003, List.getD_eq_getElem?_getD, List.cons_append, List.getElem?_cons_zero,
    List.getElem?_cons_succ, Option.getD_some, Nat.toUInt8_eq, UInt8.toNat_ofNat', hbytes]
  exact ZMod.natCast_zmod_val P

theorem zmod1000003_schnorrComplete : Suite.zmod1000003.SchnorrComplete := by
  intro x m
  simp [Suite.zmod1000003]

theorem zmod1000003_dleqComplete : Suite.zmod1000003.DLEQComplete := by
  intro g h x
  simp [Suite.zmod1000003]

/-- The base `1` has order `1000003`. -/
theorem zmod1000003_orderExceeds : OrderExceeds Suite.zmod1000003.Base (2 * MaxHomomorphicInt) := by
  intro n h hn
  have hdvd : ((1000003 : ℕ) : ℤ) ∣ n := by
    rw [← ZMod.intCast_zmod_eq_zero_iff_dvd, ← zsmul_one]
    exact h
  exact Int.eq_zero_of_abs_lt_dvd hdvd (by unfold MaxHomomorphicInt at hn; omega)

/-- The conodes of the sample roster `[0, 1]` in `Suite.zmod1000003`. -/
def sampleSignConode (a : ℕ) : Conode (ZMod 1000003) :=
  if a = 0 then ⟨1, rootPage, fun _ => 1⟩ else ⟨((3 : ℕ) : ZMod 1000003), conodePage, fun _ => 1⟩

theorem sampleSignRoster :
    HonestRoster Suite.zmod1000003 swapRoot sampleSignConode [0, 1] [1] 0 (Polynomial.C 2) (fun _ => 2) where
  nodup := by decide
  mem := by decide
  keys := by
    simp [sampleSignConode, Suite.zmod1000003]
    decide
  order_nodup := by decide
  repliers_mem := by decide
  two_le := by decide
  le_255 := by decide
  length_order := by decide
  injOn := by
    -- the slots `1` and `2` are below the field's characteristic
    intro i hi j hj h
    have hval := congrArg ZMod.val h
    simp only [ZMod.val_natCast] at hval
    simp only [Finset.coe_range, Set.mem_Iio, List.length_cons, List.length_nil] at hi hj
    omega
  degree := Polynomial.degree_C_le.trans_lt (by decide)
  shares := fun _ _ => Polynomial.eval_C.symm

/-- The sample roster in `Suite.zmod1000003`: whatever the order of the
replies, the conode `1` cosigns a page exactly when the page's leaves are its
own. -/
theorem honestSave_conode_signs_iff_own_leaves_sample :
    HonestRoster Suite.zmod1000003 swapRoot sampleSignConode [0, 1] [1] 0 (Polynomial.C 2) (fun _ => 2) ∧
    ∃ leaves, leafStates Suite.zmod1000003 sampleHashes (serviceTree Suite.zmod1000003 (sampleSignConode 0)
        (treeChildren swapRoot sampleSignConode [0, 1] 0))
        ((Polynomial.C (2 : ZMod 1000003)).eval 0 • Suite.zmod1000003.Base) (2, 1)
        (treeChildren swapRoot sampleSignConode [0, 1] 0) = .ok leaves ∧
      ∀ arrival, arrival.Perm leaves →
        ∃ p v d consensusCBF tbl', rootState Suite.zmod1000003 sampleHashes (serviceTree Suite.zmod1000003
            (sampleSignConode 0) (treeChildren swapRoot sampleSignConode [0, 1] 0))
            ((Polynomial.C (2 : ZMod 1000003)).eval 0 • Suite.zmod1000003.Base) (2, 1) (sampleSignConode 0)
            arrival = .ok p ∧
          p.EncryptedCBFSet = some v ∧
          ([1].map (honestPartial Suite.zmod1000003 (fun _ => 2) (swapRoot [0, 1] 0) v)).foldlM
            (handlePartial Suite.zmod1000003) (decryptRoot 2 2 v) = .ok d ∧ d.finishes = [true] ∧
          reconstructVectorFromPartials (recoverFirstShares (G := ZMod 1000003) (ZMod 1000003))
            Suite.zmod1000003.Base 2 (serviceThreshold 2) d.Partials
            DlogTable.initial = .ok (.ok consensusCBF, tbl') ∧
          ∀ a ∈ [0, 1], a ≠ 0 → ∀ {ID Key : Type} (storage : Storage ID Key)
            (st : SignFields (ZMod 1000003) (ZMod 1000003))
            (evs : List (SignEvent (ZMod 1000003) (ZMod 1000003))), storage.Threshold = serviceThreshold 2 →
            evs.Perm [.consensusFinished (sampleSignConode a).page p.CompleteProofs, .decryptReceived v,
              .consensusPropagated (consensusPropagation Suite.zmod1000003
                (Suite.zmod1000003.PointString ((sampleSignConode 0).secret • Suite.zmod1000003.Base))
                consensusCBF d.Partials (2, 1))] →
            ∀ (vd : VerificationData (ZMod 1000003) (ZMod 1000003)),
              newSubSignData storage (evs.foldl SignFields.handle st)
                (Suite.zmod1000003.PointString ((sampleSignConode a).secret • Suite.zmod1000003.Base)) = .ok vd →
            ∀ (parse : Bytes → Option Node)
              (unmarshal : Bytes → Option (VerificationData (ZMod 1000003) (ZMod 1000003)))
              (visits : List (CompleteProof (ZMod 1000003) (ZMod 1000003) × List Bytes)) (contributions : List Bytes)
              (msg data : Bytes) (rootNode : Node) (tblc : DlogTable (ZMod 1000003)), parse msg = some rootNode →
              unmarshal data = some vd →
            Visits p.CompleteProofs visits →
            ContributionsOrder p.CompleteProofs
              (Suite.zmod1000003.PointString ((sampleSignConode 0).secret • Suite.zmod1000003.Base)) contributions →
            NonnegTable Suite.zmod1000003.Base tblc →
            ∃ tblc', verificationFunctionStructured (recoverFirstShares (G := ZMod 1000003) (ZMod 1000003))
              Suite.zmod1000003 sampleHashes parse unmarshal visits contributions msg data tblc =
              .ok (decide (∀ l ∈ listUniqueDataLeaves rootNode, l ≠ "noscript" → l ≠ "script" →
                l ∈ listUniqueDataLeaves (sampleSignConode a).page), tblc') :=
  ⟨sampleSignRoster, honestSave_conode_signs_iff_own_leaves Suite.zmod1000003 sampleHashes
    zmod1000003_marshalRoundTrip zmod1000003_schnorrComplete zmod1000003_dleqComplete zmod1000003_orderExceeds
    swapRoot_spec (recoverFirstShares_spec _) sampleSignRoster (show 0 < ((2, 1) : ℕ × ℕ).1 by decide) (NonnegTable.initial _)⟩

end Decision

end Decenarch
