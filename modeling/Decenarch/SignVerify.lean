import Decenarch.Reconstruct
import Decenarch.Proofs
import Decenarch.Bloom

/-!
# The verification function of the structured signing (`protocol/sign.go`)

Before it cosigns a proposed consensus page `msg`, a conode runs
`verificationFunctionStructured` on it and on the `VerificationData` that
`Service.NewProtocol` marshalled for it.  The checks come in turn: every leaf
of `msg` but `noscript` and `script` is among the conode's leaves and counted
by the consensus filter; `VerifyCompleteProofs` accepts the proofs; and a
conode other than the root audits the root: the root's contributions sum to
`EncryptedCBFSet`, and the partial decryptions reconstruct the consensus
filter.

The last comparison ranges over the reconstructed vector only, so what an
accepting audit guarantees is that the reconstruction is a prefix of
`ConsensusSet` (`reconstruction_isPrefix_of_accepted`).  When `Partials` has
no entry under the root's key `0`, the reconstruction is empty and the audit
passes whatever the consensus filter
(`verificationFunctionStructured_accepts_without_root_slot`).
-/

namespace Decenarch

variable {F : Type} {G Proof : Type}

/-- `VerificationData`.  `Threshold` and the keys of `Partials` are read as
naturals; a nil `EncryptedCBFSet` is `none`. -/
structure VerificationData (G Proof : Type) where
  RootKey : String
  Threshold : ℕ
  ConodeKey : String
  Partials : AList fun _ : ℕ => Bytes
  EncryptedCBFSet : Option (CipherVector G)
  Leaves : List String
  CompleteProofs : CompleteProofs G Proof
  ConsensusSet : List ℤ
  ConsensusParameters : List ℕ

section Checks

variable (recoverCommit : ℕ → ℕ → (ℕ → Option G) → Except String G) (S : Suite F G Proof)
  (hashes : Bytes → ℕ × ℕ)

/-- `BloomFilterFromSet(ConsensusSet, [p[0], p[1]])`; fewer than two
parameters make the indexing panic. -/
def consensusCBF (vd : VerificationData G Proof) : Outcome CBF :=
  match vd.ConsensusParameters with
  | M :: K :: _ => .ok (bloomFilterFromSet vd.ConsensusSet (M, K))
  | _ => .panic

/-- The loop over the leaves of `msg`: a leaf other than `noscript` and
`script` must be among the conode's leaves (`consensusSet[l]`) and have a
positive count in the consensus filter. -/
def leavesAccepted (consensusLeaves : List String) (cbf : CBF) : List String → Outcome Bool
  | [] => .ok true
  | l :: ls =>
      if l = "noscript" ∨ l = "script" then leavesAccepted consensusLeaves cbf ls
      else if l ∉ consensusLeaves then .ok false
      else cbf.count hashes (stringBytes l) >>= fun c =>
        if c = 0 then .ok false else leavesAccepted consensusLeaves cbf ls

/-- The loop `partialsKyber[k] = lib.BytesToAbstractPoints(p)` over
`Partials`, in the order of its entries. -/
def decodePartials (partials : AList fun _ : ℕ => Bytes) : Outcome (AList fun _ : ℕ => List G) :=
  partials.entries.foldlM (fun acc e => (bytesToAbstractPoints S e.2).map fun ps => acc.insert e.1 ps) ∅

/-- The loop `for i := range reconstructed`, which indexes `ConsensusSet`
and panics past its end. -/
def reconstructionMatches : List ℤ → List ℤ → Outcome Bool
  | [], _ => .ok true
  | _ :: _, [] => .panic
  | r :: rs, c :: cs => if r ≠ c then .ok false else reconstructionMatches rs cs

variable [AddCommGroup G] [DecidableEq G]

/-- The first check of the audit,
`rootProofs.AggregationProof.VerifyAggregationProofWithAggregation(encryptedCBFSet)`,
with `order` the iteration order of the root's contributions; a missing
entry or a nil pointer panics. -/
def checkRootAggregation (order : List Bytes) (vd : VerificationData G Proof) : Outcome Bool :=
  match vd.CompleteProofs.lookup vd.RootKey with
  | none => .panic
  | some rootProofs =>
      match rootProofs.AggregationProof, vd.EncryptedCBFSet with
      | some ap, some cv => ap.verifyWithAggregation S order cv
      | _, _ => .panic

/-- The second check of the audit: the partials decoded, the vector
reconstructed and compared with `ConsensusSet`, threading the package state
of `GetPointToInt`. -/
def checkReconstruction (vd : VerificationData G Proof) (s : DlogTable G) : Outcome (Bool × DlogTable G) :=
  decodePartials S vd.Partials >>= fun partialsKyber =>
    reconstructVectorFromPartials recoverCommit S.Base vd.CompleteProofs.entries.length vd.Threshold
      partialsKyber s >>= fun
    | (.error _, s') => .ok (false, s')
    | (.ok reconstructed, s') => (reconstructionMatches reconstructed vd.ConsensusSet).map fun ok => (ok, s')

/-- `verificationFunctionStructured(msg, data)`.  `unmarshal` and `parse` are
`network.Unmarshal` and `html.Parse` (`none` for an error), `recoverCommit`
is kyber's `share.RecoverCommit`; `visits` is the
run of the loops of `VerifyCompleteProofs` and `order` the iteration order of
the root's contributions. -/
def verificationFunctionStructured (parse : Bytes → Option Node)
    (unmarshal : Bytes → Option (VerificationData G Proof)) (visits : List (CompleteProof G Proof × List Bytes))
    (order : List Bytes) (msg data : Bytes) (s : DlogTable G) : Outcome (Bool × DlogTable G) :=
  match unmarshal data with
  | none => .ok (false, s)
  | some vd =>
    match parse msg with
    | none => .ok (false, s)
    | some rootNode =>
      consensusCBF vd >>= fun cbf =>
      leavesAccepted hashes vd.Leaves cbf (listUniqueDataLeaves rootNode) >>= fun leavesOk =>
      if !leavesOk then .ok (false, s) else
      verifyCompleteProofsIn S vd.CompleteProofs visits >>= fun proofsOk =>
      if !proofsOk then .ok (false, s) else
      -- the root does not audit its own work
      if vd.ConodeKey ≠ vd.RootKey then
        checkRootAggregation S order vd >>= fun aggOk =>
        if !aggOk then .ok (false, s) else checkReconstruction recoverCommit S vd s
      else .ok (true, s)

end Checks

section Audit

variable {S : Suite F G Proof}

/-- Decoding the partials keeps the keys: a key that `Partials` lacks has no
decoded vector. -/
theorem lookup_decodePartials_of_notMem {partials : AList fun _ : ℕ => Bytes}
    {pk : AList fun _ : ℕ => List G} (h : decodePartials S partials = .ok pk) {k : ℕ} (hk : k ∉ partials) :
    pk.lookup k = none := by
  -- the loop leaves the entry `k` of its accumulator as it is, since no step inserts `k`
  suffices hloop : ∀ (es : List ((_ : ℕ) × Bytes)) (acc : AList fun _ : ℕ => List G),
      es.foldlM (fun acc e => (bytesToAbstractPoints S e.2).map fun ps => acc.insert e.1 ps) acc = .ok pk →
      k ∉ es.map Sigma.fst → pk.lookup k = acc.lookup k by
    rw [hloop partials.entries ∅ h hk]
    rfl
  intro es
  induction es with
  | nil =>
      intro acc hacc _
      rw [List.foldlM_nil, Outcome.pure_eq, Outcome.ok.injEq] at hacc
      rw [hacc]
  | cons e es ih =>
      intro acc hacc hnot
      rw [List.foldlM_cons] at hacc
      obtain ⟨acc', hstep, hrest⟩ := Outcome.bind_eq_ok.mp hacc
      obtain ⟨ps, -, rfl⟩ := Outcome.map_eq_ok.mp hstep
      have hne : k ≠ e.1 := fun he => hnot (he ▸ List.mem_cons_self)
      rw [ih _ hrest fun hk' => hnot (List.mem_cons_of_mem _ hk'), AList.lookup_insert_ne hne]

/-- The comparison loop accepts exactly the reconstructions that are
prefixes of `ConsensusSet`. -/
theorem reconstructionMatches_eq_ok_true :
    ∀ {r cs : List ℤ}, reconstructionMatches r cs = .ok true ↔ r <+: cs
  | [], cs => by simp [reconstructionMatches]
  | _ :: _, [] => by simp [reconstructionMatches]
  | x :: r, c :: cs => by
      rw [reconstructionMatches, List.cons_prefix_cons, ← reconstructionMatches_eq_ok_true]
      by_cases hxc : x = c <;> simp [hxc]

variable (recoverCommit : ℕ → ℕ → (ℕ → Option G) → Except String G) [AddCommGroup G] [DecidableEq G]

/-- The reconstruction check passes exactly when the partials decode and
reconstruct, without error, a prefix of `ConsensusSet`. -/
theorem checkReconstruction_eq_ok_true {vd : VerificationData G Proof} {s s' : DlogTable G} :
    checkReconstruction recoverCommit S vd s = .ok (true, s') ↔
      ∃ pk r, decodePartials S vd.Partials = .ok pk ∧
        reconstructVectorFromPartials recoverCommit S.Base vd.CompleteProofs.entries.length vd.Threshold pk s =
          .ok (.ok r, s') ∧ r <+: vd.ConsensusSet := by
  unfold checkReconstruction
  constructor
  · intro h
    obtain ⟨pk, hdec, hrec⟩ := Outcome.bind_eq_ok.mp h
    obtain ⟨⟨res, s''⟩, hres, hcmp⟩ := Outcome.bind_eq_ok.mp hrec
    -- an error of `RecoverCommit` refuses, so the reconstruction returned
    cases res with
    | error e => simp at hcmp
    | ok r =>
        obtain ⟨ok, hmatch, hok⟩ := Outcome.map_eq_ok.mp hcmp
        obtain ⟨rfl, rfl⟩ := Prod.mk.inj hok
        exact ⟨pk, r, hdec, hres, reconstructionMatches_eq_ok_true.mp hmatch⟩
  · rintro ⟨pk, r, hdec, hrec, hpre⟩
    rw [hdec, Outcome.ok_bind, hrec, Outcome.ok_bind]
    simp [reconstructionMatches_eq_ok_true.mpr hpre]

variable (hashes : Bytes → ℕ × ℕ) {parse : Bytes → Option Node}
  {unmarshal : Bytes → Option (VerificationData G Proof)} {visits : List (CompleteProof G Proof × List Bytes)}
  {order : List Bytes} {msg data : Bytes} {vd : VerificationData G Proof}

omit [AddCommGroup G] [DecidableEq G] in
/-- A check that refuses returns `false`, so an accepting run passed it. -/
theorem check_passes {b : Bool} {k : Outcome (Bool × DlogTable G)} {s s' : DlogTable G}
    (h : (if !b then .ok (false, s) else k) = .ok (true, s')) : b = true ∧ k = .ok (true, s') := by
  cases b
  · simp at h
  · exact ⟨rfl, h⟩

/-- **What an accepting audit guarantees.**  When a conode other than the
root accepts, the partials decoded and reconstructed, without error, a
prefix of `ConsensusSet`, which may be shorter. -/
theorem reconstruction_isPrefix_of_accepted (hvd : unmarshal data = some vd) (hkeys : vd.ConodeKey ≠ vd.RootKey)
    {s s' : DlogTable G}
    (h : verificationFunctionStructured recoverCommit S hashes parse unmarshal visits order msg data s =
      .ok (true, s')) :
    ∃ pk r, decodePartials S vd.Partials = .ok pk ∧
      reconstructVectorFromPartials recoverCommit S.Base vd.CompleteProofs.entries.length vd.Threshold pk s =
        .ok (.ok r, s') ∧ r <+: vd.ConsensusSet := by
  rw [verificationFunctionStructured, hvd] at h
  obtain ⟨rootNode, hmsg⟩ : ∃ rootNode, parse msg = some rootNode := by
    cases hp : parse msg with
    | none => simp [hp] at h
    | some rootNode => exact ⟨rootNode, rfl⟩
  simp only [hmsg] at h
  -- peel the checks in the order the function runs them
  obtain ⟨cbf, -, h⟩ := Outcome.bind_eq_ok.mp h
  obtain ⟨leavesOk, -, h⟩ := Outcome.bind_eq_ok.mp h
  obtain ⟨-, h⟩ := check_passes h
  obtain ⟨proofsOk, -, h⟩ := Outcome.bind_eq_ok.mp h
  obtain ⟨-, h⟩ := check_passes h
  rw [if_pos hkeys] at h
  obtain ⟨aggOk, -, h⟩ := Outcome.bind_eq_ok.mp h
  obtain ⟨-, h⟩ := check_passes h
  exact (checkReconstruction_eq_ok_true recoverCommit).mp h

/-- **The audit passes without the root's partials.**  A conode other than
the root, given data whose `Partials` has no entry under `0` and that pass
the checks before the reconstruction, accepts: the reconstruction is the
empty vector, and the comparison has nothing to compare with `ConsensusSet`,
whatever it holds. -/
theorem verificationFunctionStructured_accepts_without_root_slot {rootNode : Node} {cbf : CBF}
    {pk : AList fun _ : ℕ => List G} (hvd : unmarshal data = some vd) (hmsg : parse msg = some rootNode)
    (hcbf : consensusCBF vd = .ok cbf)
    (hleaves : leavesAccepted hashes vd.Leaves cbf (listUniqueDataLeaves rootNode) = .ok true)
    (hproofs : verifyCompleteProofsIn S vd.CompleteProofs visits = .ok true)
    (hkeys : vd.ConodeKey ≠ vd.RootKey) (hagg : checkRootAggregation S order vd = .ok true)
    (hdec : decodePartials S vd.Partials = .ok pk) (h0 : 0 ∉ vd.Partials) (s : DlogTable G) :
    verificationFunctionStructured recoverCommit S hashes parse unmarshal visits order msg data s = .ok (true, s) ∧
      reconstructVectorFromPartials recoverCommit S.Base vd.CompleteProofs.entries.length vd.Threshold pk s =
        .ok (.ok [], s) := by
  have hrec := reconstructVectorFromPartials_of_lookup_zero recoverCommit (lookup_decodePartials_of_notMem hdec h0)
    S.Base vd.CompleteProofs.entries.length vd.Threshold s
  have hcheck : checkReconstruction recoverCommit S vd s = .ok (true, s) :=
    (checkReconstruction_eq_ok_true recoverCommit).mpr ⟨pk, [], hdec, hrec, List.nil_prefix⟩
  refine ⟨?_, hrec⟩
  rw [verificationFunctionStructured, hvd]
  simp only [hmsg, hcbf, hleaves, hproofs, hagg, hcheck, hkeys, Outcome.ok_bind, Bool.not_true,
    Bool.false_eq_true, if_false, ne_eq, not_false_eq_true, if_true]

/-- In the suite on `ZMod 7`: the root `1` is the only node of its tree and
signs the empty aggregation, `Partials` is empty and `ConsensusSet` is
`[1]`.  The conode `2` accepts the page `<script>`, and the reconstruction it
compared with `[1]` is the empty vector. -/
theorem verificationFunctionStructured_accepts_empty_reconstruction_zmod7 :
    verificationFunctionStructured (recoverFirstShares (G := ZMod 7) (ZMod 7)) Suite.zmod7 (fun _ => (0, 0)) (fun _ => some (Node.mk "script" []))
        (fun _ => some
          { RootKey := "1", Threshold := 2, ConodeKey := "2", Partials := ∅, EncryptedCBFSet := some [],
            Leaves := [], ConsensusSet := [1], ConsensusParameters := [1, 1],
            CompleteProofs := AList.insert "1"
              { MadeTree := some ⟨⟨1, 0⟩, fun _ => some ⟨1, 0⟩⟩, PublicKey := 1,
                AggregationProof := some ⟨∅, [], 0⟩, CipherVectorProof := some [],
                EncryptedCBFSetSignature := [1], TreeNodeID := 0, EncryptedBloomFilter := [] } ∅ })
        [({ MadeTree := some ⟨⟨1, 0⟩, fun _ => some ⟨1, 0⟩⟩, PublicKey := 1,
            AggregationProof := some ⟨∅, [], 0⟩, CipherVectorProof := some [],
            EncryptedCBFSetSignature := [1], TreeNodeID := 0, EncryptedBloomFilter := [] }, [])]
        [] [] [] DlogTable.initial = .ok (true, DlogTable.initial) ∧
      reconstructVectorFromPartials (recoverFirstShares (G := ZMod 7) (ZMod 7)) Suite.zmod7.Base 1 2 ∅ DlogTable.initial =
        .ok (.ok [], DlogTable.initial) :=
  ⟨And.left (verificationFunctionStructured_accepts_without_root_slot _ (fun _ => (0, 0)) rfl rfl rfl
      (by decide) (by decide) (by decide) (by decide) rfl (by exact AList.notMem_empty 0) DlogTable.initial),
    reconstructVectorFromPartials_of_lookup_zero _ rfl _ 1 2 _⟩

end Audit

end Decenarch
