import Mathlib.Data.List.AList
import Decenarch.Crypto
import Decenarch.Lib.Transition
import Decenarch.Lib.AListFold

/-!
# Threshold decryption at the root (`protocol/decrypt.go`)

The root prompts every other conode with the aggregated vector.  A conode
answers with the partial decryption `C - v • K` of every entry under its
share `v`, one DLEQ proof per entry, and its public key share `v • B`.  The
root's `HandlePartial` counts a refusal (no partials) and a reply whose loop
over the proofs meets a failing proof as one failure each, and stores the
partials of any other reply under the sender's roster index.  It calls
`finish(false)` once the failures exceed `len(Roster) - Threshold`, and it
adds its own partials and calls `finish(true)` once it holds
`Threshold - 1` vectors.  The service reads the first result of `finish`.

The root is a state machine whose labels are the replies that onet
delivers, in any order and any number per conode.  onet sets `RosterIndex`
from the sender, and the root never receives a reply of its own.  The
timeout that `Start` arms is not modelled, nor is the mutex, which only
orders the writes of one call.
-/

namespace Decenarch

/-- `SendPartial`.  A nil `Partials` slice arrives as `[]`: onet's encoding
does not tell a nil slice from an empty one. -/
structure SendPartial (G Proof : Type) where
  Partials : List G
  Proofs : List Proof
  PublicKeyShare : G

/-- `MessageSendPartial`: the message and the roster index of the tree node
that sent it. -/
structure MessageSendPartial (G Proof : Type) extends SendPartial G Proof where
  RosterIndex : ℕ

/-- The fields of the root's `Decrypt` that `HandlePartial` reads and
writes, and the results passed to `finish`, in the order of the calls. -/
structure Decrypt (F G : Type) where
  /-- `Threshold`, an `int32`. -/
  Threshold : ℤ
  Failures : ℕ
  /-- `len(d.Roster().List)`. -/
  RosterSize : ℕ
  /-- `d.Index()`, the root's roster index. -/
  Index : ℕ
  /-- `d.Secret.V`, the root's share of the DKG secret. -/
  Secret : F
  EncryptedCBFSet : CipherVector G
  Partials : AList fun _ : ℕ => List G
  /-- The results of the calls to `finish`; the service's `<-p.Finished`
  receives the first. -/
  finishes : List Bool

variable {F G Proof : Type}

/-- `finish(result)`. -/
def Decrypt.finish (d : Decrypt F G) (result : Bool) : Decrypt F G :=
  { d with finishes := d.finishes ++ [result] }

/-- The failure branch of `HandlePartial`, the same for a refusal and for an
invalid reply: `d.Failures++`, then `finish(false)` when the failures exceed
`len(d.Roster().List) - Threshold`. -/
def Decrypt.countFailure (d : Decrypt F G) : Decrypt F G :=
  let d' := { d with Failures := d.Failures + 1 }
  if (d.RosterSize : ℤ) - d.Threshold < d'.Failures then d'.finish false else d'

namespace Decrypt

variable (d : Decrypt F G)

@[simp] theorem finish_finishes (b : Bool) : (d.finish b).finishes = d.finishes ++ [b] := rfl

@[simp] theorem finish_Partials (b : Bool) : (d.finish b).Partials = d.Partials := rfl

@[simp] theorem finish_Failures (b : Bool) : (d.finish b).Failures = d.Failures := rfl

/-- A failure changes the counter and perhaps the calls to `finish`, and
nothing else. -/
theorem countFailure_eq : d.countFailure =
    { d with Failures := d.Failures + 1
             finishes := if (d.RosterSize : ℤ) - d.Threshold < ((d.Failures + 1 : ℕ) : ℤ) then
               d.finishes ++ [false] else d.finishes } := by
  simp only [countFailure]
  split_ifs <;> rfl

@[simp] theorem countFailure_Partials : d.countFailure.Partials = d.Partials := by
  rw [countFailure_eq]

/-- A failure that keeps the failures within the bound only counts. -/
theorem countFailure_of_le (h : ((d.Failures + 1 : ℕ) : ℤ) ≤ (d.RosterSize : ℤ) - d.Threshold) :
    d.countFailure = { d with Failures := d.Failures + 1 } := by
  rw [countFailure_eq, if_neg (not_lt.mpr h)]

/-- A failure that exceeds the bound also calls `finish(false)`. -/
theorem countFailure_of_lt (h : (d.RosterSize : ℤ) - d.Threshold < ((d.Failures + 1 : ℕ) : ℤ)) :
    d.countFailure = { d with Failures := d.Failures + 1, finishes := d.finishes ++ [false] } := by
  rw [countFailure_eq, if_pos h]

end Decrypt

/-- `HandlePartial` keeps what it does not write. -/
structure Decrypt.SameSetup (d d' : Decrypt F G) : Prop where
  Threshold : d'.Threshold = d.Threshold
  RosterSize : d'.RosterSize = d.RosterSize
  Index : d'.Index = d.Index
  Secret : d'.Secret = d.Secret
  EncryptedCBFSet : d'.EncryptedCBFSet = d.EncryptedCBFSet

theorem sameSetup_countFailure (d : Decrypt F G) : d.SameSetup d.countFailure := by
  rw [Decrypt.countFailure_eq]
  exact ⟨rfl, rfl, rfl, rfl, rfl⟩

variable [Field F] [AddCommGroup G] [Module F G]
variable (S : Suite F G Proof)

/-- `getPartials`: the partial decryption of every entry under the share
`V`, and a DLEQ proof for each.  The parallel and the sequential loops fill
the same slices. -/
def getPartials (V : F) (cipher : CipherVector G) : List G × List Proof :=
  (cipher.map (decryptPoint V), cipher.map fun c => S.NewDLEQProof S.Base c.K V)

/-- The `SendPartial` that `HandlePrompt` sends for the prompted `cipher`,
from the conode with share `V`. -/
def handlePrompt (V : F) (cipher : CipherVector G) : SendPartial G Proof :=
  ⟨(getPartials S V cipher).1, (getPartials S V cipher).2, V • S.Base⟩

/-- The loop `for i, p := range reply.Proofs`, which at turn `i` reads entry
`i` of `EncryptedCBFSet` and of `reply.Partials`: `false` at the first proof
that fails, and a panic at an index past the end of either slice. -/
def checkProofs (X : G) : List Proof → CipherVector G → List G → Outcome Bool
  | [], _, _ => .ok true
  | p :: ps, c :: cs, P :: Ps =>
      if (S.DLEQVerify p S.Base c.K X (c.C - P)).isNone then checkProofs X ps cs Ps else .ok false
  | _ :: _, _, _ => .panic

/-- The success branch of `HandlePartial`: the partials are stored under the
sender's index and, once `len(d.Partials) >= Threshold - 1`, the root stores
its own under its index and calls `finish(true)`. -/
def storePartials (d : Decrypt F G) (reply : MessageSendPartial G Proof) : Decrypt F G :=
  let d₁ := { d with Partials := d.Partials.insert reply.RosterIndex reply.Partials }
  if d.Threshold - 1 ≤ (d₁.Partials.entries.length : ℤ) then
    { d₁ with Partials := d₁.Partials.insert d.Index (getPartials S d.Secret d.EncryptedCBFSet).1 }.finish
      true
  else d₁

/-- `Decrypt.HandlePartial`. -/
def handlePartial (d : Decrypt F G) (reply : MessageSendPartial G Proof) : Outcome (Decrypt F G) :=
  if reply.Partials.isEmpty then .ok d.countFailure
  else checkProofs S reply.PublicKeyShare reply.Proofs d.EncryptedCBFSet reply.Partials >>= fun valid =>
    if valid then .ok (storePartials S d reply) else .ok d.countFailure

/-- The root's state as `NewDecrypt` creates it: no failure, no partials and
no call to `finish`. -/
def DecryptInit (d : Decrypt F G) : Prop :=
  d.Failures = 0 ∧ d.Partials = ∅ ∧ d.finishes = []

/-- One step of the root: onet delivers `reply`, from a conode other than the
root, and `HandlePartial` returns. -/
def DecryptStep (d : Decrypt F G) (reply : MessageSendPartial G Proof) (d' : Decrypt F G) : Prop :=
  reply.RosterIndex ≠ d.Index ∧ handlePartial S d reply = .ok d'

/-! ## The branches -/

/-- Below the threshold the partials are stored and nothing else changes. -/
theorem storePartials_of_lt {d : Decrypt F G} {reply : MessageSendPartial G Proof}
    (h : ((d.Partials.insert reply.RosterIndex reply.Partials).entries.length : ℤ) < d.Threshold - 1) :
    storePartials S d reply = { d with Partials := d.Partials.insert reply.RosterIndex reply.Partials } := by
  simp only [storePartials]
  rw [if_neg (not_le.mpr h)]

/-- At the threshold the root adds its own partials and calls
`finish(true)`. -/
theorem storePartials_of_le {d : Decrypt F G} {reply : MessageSendPartial G Proof}
    (h : d.Threshold - 1 ≤ ((d.Partials.insert reply.RosterIndex reply.Partials).entries.length : ℤ)) :
    storePartials S d reply =
      { d with Partials := (d.Partials.insert reply.RosterIndex reply.Partials).insert d.Index
                 (getPartials S d.Secret d.EncryptedCBFSet).1
               finishes := d.finishes ++ [true] } := by
  simp only [storePartials]
  rw [if_pos h]
  rfl

/-- What one call of `HandlePartial` can do: count a failure, for a refusal
or a failing proof, or store the reply after a loop over the proofs that
passes. -/
theorem handlePartial_eq_ok {d d' : Decrypt F G} {reply : MessageSendPartial G Proof}
    (h : handlePartial S d reply = .ok d') :
    (d' = d.countFailure ∧ (reply.Partials = [] ∨
      checkProofs S reply.PublicKeyShare reply.Proofs d.EncryptedCBFSet reply.Partials = .ok false)) ∨
    (reply.Partials ≠ [] ∧
      checkProofs S reply.PublicKeyShare reply.Proofs d.EncryptedCBFSet reply.Partials = .ok true ∧
      d' = storePartials S d reply) := by
  unfold handlePartial at h
  by_cases hnil : reply.Partials = []
  · rw [if_pos (List.isEmpty_iff.mpr hnil), Outcome.ok.injEq] at h
    exact .inl ⟨h.symm, .inl hnil⟩
  · rw [if_neg (mt List.isEmpty_iff.mp hnil)] at h
    obtain ⟨valid, hvalid, hstep⟩ := Outcome.bind_eq_ok.mp h
    cases valid with
    | true =>
      rw [if_pos rfl, Outcome.ok.injEq] at hstep
      exact .inr ⟨hnil, hvalid, hstep.symm⟩
    | false =>
      rw [if_neg Bool.false_ne_true, Outcome.ok.injEq] at hstep
      exact .inl ⟨hstep.symm, .inr hvalid⟩

/-! ## The loop over the proofs -/

omit [Field F] [Module F G] in
/-- The loop over the proofs passes exactly when there are no more proofs
than entries or partials, and each proof verifies for its entry and
partial, under the key share that the reply names. -/
theorem checkProofs_eq_true_iff (X : G) :
    ∀ (ps : List Proof) (cs : CipherVector G) (Ps : List G),
      checkProofs S X ps cs Ps = .ok true ↔
        ps.length ≤ cs.length ∧ ps.length ≤ Ps.length ∧
          ∀ t ∈ ps.zip (cs.zip Ps), S.DLEQVerify t.1 S.Base t.2.1.K X (t.2.1.C - t.2.2) = none
  | [], _, _ => by simp [checkProofs]
  | _ :: _, [], _ => by simp [checkProofs]
  | _ :: _, _ :: _, [] => by simp [checkProofs]
  | p :: ps, c :: cs, P :: Ps => by
      rw [checkProofs]
      by_cases hp : S.DLEQVerify p S.Base c.K X (c.C - P) = none
      · rw [if_pos (Option.isNone_iff_eq_none.mpr hp), checkProofs_eq_true_iff X ps cs Ps]
        simp [hp]
      · rw [if_neg (mt Option.isNone_iff_eq_none.mp hp)]
        simp [hp]

/-- The reply of `HandlePrompt` passes the loop, for every share. -/
theorem checkProofs_handlePrompt (hD : S.DLEQComplete) (V : F) :
    ∀ cs : CipherVector G,
      checkProofs S (V • S.Base) (handlePrompt S V cs).Proofs cs (handlePrompt S V cs).Partials = .ok true
  | [] => rfl
  | c :: cs => by
      have hc : S.DLEQVerify (S.NewDLEQProof S.Base c.K V) S.Base c.K (V • S.Base)
          (c.C - decryptPoint V c) = none := by
        rw [decryptPoint, sub_sub_cancel]
        exact hD _ _ _
      simp only [handlePrompt, getPartials, List.map_cons, checkProofs, hc, Option.isNone_none, if_true]
      exact checkProofs_handlePrompt hD V cs

/-- One proof more than there are entries, after proofs that pass, makes the
loop index past the end of the prompted vector. -/
theorem checkProofs_extra_proof (hD : S.DLEQComplete) (V : F) (P : G) (p : Proof) :
    ∀ cs : CipherVector G,
      checkProofs S (V • S.Base) ((handlePrompt S V cs).Proofs ++ [p]) cs
        ((handlePrompt S V cs).Partials ++ [P]) = .panic
  | [] => rfl
  | c :: cs => by
      have hc : S.DLEQVerify (S.NewDLEQProof S.Base c.K V) S.Base c.K (V • S.Base)
          (c.C - decryptPoint V c) = none := by
        rw [decryptPoint, sub_sub_cancel]
        exact hD _ _ _
      simp only [handlePrompt, getPartials, List.map_cons, List.cons_append, checkProofs, hc,
        Option.isNone_none, if_true]
      exact checkProofs_extra_proof hD V P p cs

/-! ## One reply -/

theorem handlePartial_of_empty {d : Decrypt F G} {reply : MessageSendPartial G Proof}
    (h : reply.Partials = []) : handlePartial S d reply = .ok d.countFailure := by
  rw [handlePartial, if_pos (List.isEmpty_iff.mpr h)]

theorem handlePartial_of_pass {d : Decrypt F G} {reply : MessageSendPartial G Proof}
    (hne : reply.Partials ≠ [])
    (hpass : checkProofs S reply.PublicKeyShare reply.Proofs d.EncryptedCBFSet reply.Partials = .ok true) :
    handlePartial S d reply = .ok (storePartials S d reply) := by
  rw [handlePartial, if_neg (mt List.isEmpty_iff.mp hne), hpass, Outcome.ok_bind]
  rfl

/-- The root stores the reply of `HandlePrompt` to its own prompt. -/
theorem handlePartial_handlePrompt (hD : S.DLEQComplete) {d : Decrypt F G} {cs : CipherVector G}
    (hd : d.EncryptedCBFSet = cs) (hcs : cs ≠ []) (V : F) (i : ℕ) :
    handlePartial S d ⟨handlePrompt S V cs, i⟩ = .ok (storePartials S d ⟨handlePrompt S V cs, i⟩) := by
  refine handlePartial_of_pass S (by simpa [handlePrompt, getPartials] using hcs) ?_
  show checkProofs S (V • S.Base) (handlePrompt S V cs).Proofs d.EncryptedCBFSet
    (handlePrompt S V cs).Partials = .ok true
  rw [hd]
  exact checkProofs_handlePrompt S hD V cs

/-- A stored vector stays at its index unless it is the root's. -/
theorem lookup_storePartials_of_ne {d : Decrypt F G} {reply : MessageSendPartial G Proof} {k : ℕ}
    (hk : k ≠ d.Index) :
    (storePartials S d reply).Partials.lookup k = (d.Partials.insert reply.RosterIndex reply.Partials).lookup k := by
  simp only [storePartials]
  split_ifs
  · exact AList.lookup_insert_ne hk
  · rfl

/-- The root stores any non-empty vector that comes with no proof, whatever
its length and its entries, under the sender's index; and a reply with one
proof more than the prompted vector has entries makes the root index past
its end. -/
theorem handlePartial_accepts_unproven_partials (hD : S.DLEQComplete) (d : Decrypt F G) :
    (∀ (i : ℕ) (Ps : List G) (X : G), Ps ≠ [] → i ≠ d.Index →
      ∃ d', handlePartial S d ⟨⟨Ps, [], X⟩, i⟩ = .ok d' ∧ d'.Partials.lookup i = some Ps) ∧
    (∀ (i : ℕ) (V : F) (P : G) (p : Proof),
      handlePartial S d ⟨⟨(handlePrompt S V d.EncryptedCBFSet).Partials ++ [P],
        (handlePrompt S V d.EncryptedCBFSet).Proofs ++ [p], V • S.Base⟩, i⟩ = .panic) := by
  refine ⟨fun i Ps X hPs hi => ⟨storePartials S d ⟨⟨Ps, [], X⟩, i⟩, handlePartial_of_pass S hPs rfl, ?_⟩,
    fun i V P p => ?_⟩
  · -- an empty proof list passes the loop, and the root's own write is elsewhere
    rw [lookup_storePartials_of_ne S hi]
    exact AList.lookup_insert _
  · rw [handlePartial, if_neg (by simp), checkProofs_extra_proof S hD]
    rfl

/-- In the suite on `ZMod 7`: the root, prompting with a vector of two
entries, stores the one-entry vector `[5]` sent with no proof, and panics on
an honest reply with one more partial and proof. -/
theorem handlePartial_unproven_zmod7 :
    (∃ d', handlePartial Suite.zmod7 ⟨3, 0, 4, 0, 1, [⟨1, 2⟩, ⟨3, 4⟩], ∅, []⟩ ⟨⟨[5], [], 0⟩, 1⟩ = .ok d' ∧
      d'.Partials.lookup 1 = some [5]) ∧
    [(5 : ZMod 7)].length ≠ ([⟨1, 2⟩, ⟨3, 4⟩] : CipherVector (ZMod 7)).length ∧
    handlePartial Suite.zmod7 ⟨3, 0, 4, 0, 1, [⟨1, 2⟩, ⟨3, 4⟩], ∅, []⟩
      ⟨⟨(handlePrompt Suite.zmod7 2 [⟨1, 2⟩, ⟨3, 4⟩]).Partials ++ [0],
        (handlePrompt Suite.zmod7 2 [⟨1, 2⟩, ⟨3, 4⟩]).Proofs ++ [0], 2 • Suite.zmod7.Base⟩, 1⟩ = .panic :=
  ⟨(handlePartial_accepts_unproven_partials Suite.zmod7 Suite.zmod7_dleqComplete _).1 1 [5] 0
      (List.cons_ne_nil _ _) (by decide),
    by decide,
    (handlePartial_accepts_unproven_partials Suite.zmod7 Suite.zmod7_dleqComplete _).2 1 2 0 0⟩

/-! ## Runs of replies -/

/-- Refusals that keep the failures within `len(Roster) - Threshold` only
count. -/
theorem foldlM_refusals {reply : MessageSendPartial G Proof} (hreply : reply.Partials = []) :
    ∀ (k : ℕ) (d : Decrypt F G), ((d.Failures + k : ℕ) : ℤ) ≤ d.RosterSize - d.Threshold →
      (List.replicate k reply).foldlM (handlePartial S) d = .ok { d with Failures := d.Failures + k }
  | 0, d, _ => rfl
  | k + 1, d, h => by
      rw [List.replicate_succ, List.foldlM_cons, handlePartial_of_empty S hreply, Outcome.ok_bind,
        Decrypt.countFailure_of_le d (by push_cast at h ⊢; omega),
        foldlM_refusals hreply k _ (by simp only; omega)]
      simp only [Nat.add_assoc, Nat.add_comm 1 k]

/-- Honest replies from fresh distinct conodes that keep the root below its
threshold are stored, and nothing else changes. -/
theorem foldlM_handlePrompt_below (hD : S.DLEQComplete) {cs : CipherVector G} (hcs : cs ≠ []) :
    ∀ (hs : List (ℕ × F)) (d : Decrypt F G), d.EncryptedCBFSet = cs → (hs.map Prod.fst).Nodup →
      (∀ h ∈ hs, h.1 ∉ d.Partials) → ((d.Partials.entries.length + hs.length : ℕ) : ℤ) < d.Threshold - 1 →
      (hs.map fun h => (⟨handlePrompt S h.2 cs, h.1⟩ : MessageSendPartial G Proof)).foldlM (handlePartial S) d =
        .ok { d with
          Partials := AList.insertList Prod.fst (fun h => (handlePrompt S h.2 cs).Partials) hs d.Partials }
  | [], d, _, _, _, _ => rfl
  | h :: hs, d, hd, hnodup, hfresh, hlen => by
      rw [List.map_cons, List.nodup_cons] at hnodup
      simp only [List.length_cons] at hlen
      have hcount : (d.Partials.insert h.1 (handlePrompt S h.2 cs).Partials).entries.length =
          d.Partials.entries.length + 1 := by
        rw [AList.entries_insert_of_notMem (hfresh h (List.mem_cons_self ..)), List.length_cons]
      have hstore : storePartials S d ⟨handlePrompt S h.2 cs, h.1⟩ =
          { d with Partials := d.Partials.insert h.1 (handlePrompt S h.2 cs).Partials } :=
        storePartials_of_lt S (by
          show ((d.Partials.insert h.1 (handlePrompt S h.2 cs).Partials).entries.length : ℤ) < _
          rw [hcount]
          push_cast at hlen ⊢
          omega)
      rw [List.map_cons, List.foldlM_cons, handlePartial_handlePrompt S hD hd hcs, hstore, Outcome.ok_bind]
      -- the rest of the replies find one more stored vector and the same setup
      refine foldlM_handlePrompt_below hD hcs hs _ hd hnodup.2 (fun h' hh' hmem => ?_) ?_
      · rcases (AList.mem_insert _).mp hmem with heq | hmem
        · exact hnodup.1 (heq ▸ List.mem_map_of_mem hh')
        · exact hfresh h' (List.mem_cons_of_mem _ hh') hmem
      · show (((d.Partials.insert h.1 (handlePrompt S h.2 cs).Partials).entries.length + hs.length : ℕ) : ℤ) <
          d.Threshold - 1
        rw [hcount]
        push_cast at hlen ⊢
        omega

/-- `Threshold - 1` honest replies from distinct conodes, with no vector
stored yet, make the root store them all, add its own partials under its
index and call `finish(true)`. -/
theorem foldlM_handlePrompt_threshold (hD : S.DLEQComplete) (d : Decrypt F G) (hcs : d.EncryptedCBFSet ≠ [])
    (hpart : d.Partials = ∅) (hT : 2 ≤ d.Threshold) (hs : List (ℕ × F))
    (hlen : (hs.length : ℤ) = d.Threshold - 1) (hnodup : (hs.map Prod.fst).Nodup) :
    (hs.map fun h => (⟨handlePrompt S h.2 d.EncryptedCBFSet, h.1⟩ : MessageSendPartial G Proof)).foldlM
        (handlePartial S) d =
      .ok { d with
        Partials := (AList.insertList Prod.fst (fun h => (handlePrompt S h.2 d.EncryptedCBFSet).Partials) hs
          d.Partials).insert d.Index (getPartials S d.Secret d.EncryptedCBFSet).1
        finishes := d.finishes ++ [true] } := by
  -- all but the last reply keep the root below its threshold
  obtain ⟨init, last, rfl⟩ : ∃ init last, hs = init ++ [last] := by
    rcases List.eq_nil_or_concat hs with h | ⟨init, last, h⟩
    · subst h
      simp at hlen
      omega
    · exact ⟨init, last, h.trans (List.concat_eq_append ..)⟩
  rw [List.map_append, List.map_cons, List.map_nil] at hnodup
  have hnodupInit : (init.map Prod.fst).Nodup := (List.nodup_append.mp hnodup).1
  have hlast : last.1 ∉ init.map Prod.fst := fun h =>
    (List.nodup_append.mp hnodup).2.2 _ h _ (List.mem_singleton_self _) rfl
  have hlenInit : (init.length : ℤ) + 1 = d.Threshold - 1 := by
    simpa using hlen
  have hbelow := foldlM_handlePrompt_below S hD hcs init d rfl hnodupInit
    (fun h _ => by rw [hpart]; exact AList.notMem_empty _)
    (by rw [hpart, AList.empty_entries, List.length_nil, Nat.zero_add]; omega)
  set d₂ : Decrypt F G := { d with
    Partials := AList.insertList Prod.fst (fun h => (handlePrompt S h.2 d.EncryptedCBFSet).Partials) init
      d.Partials } with hd₂
  -- the last reply finds `init.length` stored vectors and reaches the threshold
  have hfresh : last.1 ∉ d₂.Partials := by
    rw [← AList.lookup_eq_none]
    show (AList.insertList Prod.fst _ init d.Partials).lookup last.1 = none
    rw [AList.lookup_insertList_of_forall_ne Prod.fst
        (fun h => (handlePrompt S h.2 d.EncryptedCBFSet).Partials) _
        fun h hh heq => hlast (by rw [← heq]; exact List.mem_map_of_mem hh), hpart]
    rfl
  have hcount : ((d₂.Partials.insert last.1 (handlePrompt S last.2 d.EncryptedCBFSet).Partials).entries.length : ℤ) =
      init.length + 1 := by
    rw [AList.entries_insert_of_notMem hfresh, List.length_cons]
    show (((AList.insertList Prod.fst _ init d.Partials).entries.length + 1 : ℕ) : ℤ) = _
    rw [AList.length_entries_insertList _ _ _ hnodupInit (fun h _ => by rw [hpart]; exact AList.notMem_empty _),
      hpart, AList.empty_entries, List.length_nil, Nat.zero_add]
    push_cast
    rfl
  have hle : d₂.Threshold - 1 ≤
      ((d₂.Partials.insert last.1 (handlePrompt S last.2 d.EncryptedCBFSet).Partials).entries.length : ℤ) := by
    rw [hcount]
    show d.Threshold - 1 ≤ _
    omega
  rw [List.map_append, List.foldlM_append, hbelow, Outcome.ok_bind, List.map_cons, List.map_nil,
    List.foldlM_cons, handlePartial_handlePrompt S hD (d := d₂) rfl hcs last.2 last.1,
    storePartials_of_le S hle, Outcome.ok_bind, List.foldlM_nil, AList.insertList_append,
    AList.insertList_cons, AList.insertList_nil]
  rfl

/-! ## What a call to `finish(true)` rests on -/

/-- The root's own partials are stored exactly when it has called
`finish(true)`, and from then on it holds the partials of at least
`Threshold - 1` other conodes. -/
structure FinishTrueInv (d : Decrypt F G) : Prop where
  root_mem_iff : d.Index ∈ d.Partials ↔ true ∈ d.finishes
  enough : true ∈ d.finishes → ∃ ks : List ℕ, ks.Nodup ∧ d.Threshold - 1 ≤ (ks.length : ℤ) ∧
    ∀ k ∈ ks, k ≠ d.Index ∧ k ∈ d.Partials

omit [Field F] [AddCommGroup G] [Module F G] in
theorem finishTrueInv_init {d : Decrypt F G} (h : DecryptInit d) : FinishTrueInv d := by
  obtain ⟨-, hpart, hfin⟩ := h
  refine ⟨?_, fun ht => ?_⟩
  · simp [hpart, hfin, AList.notMem_empty]
  · simp [hfin] at ht

omit [Field F] [AddCommGroup G] [Module F G] in
theorem finishTrueInv_countFailure {d : Decrypt F G} (h : FinishTrueInv d) :
    FinishTrueInv d.countFailure := by
  obtain ⟨hroot, henough⟩ := h
  -- a failure adds at most a `false` to the calls
  have hmem : true ∈ d.countFailure.finishes ↔ true ∈ d.finishes := by
    rw [Decrypt.countFailure_eq]
    split_ifs <;> simp
  have hsetup := sameSetup_countFailure d
  refine ⟨?_, fun ht => ?_⟩
  · rw [hsetup.Index, Decrypt.countFailure_Partials, hmem]
    exact hroot
  · obtain ⟨ks, hnodup, hlen, hks⟩ := henough (hmem.mp ht)
    refine ⟨ks, hnodup, by rw [hsetup.Threshold]; exact hlen, fun k hk => ?_⟩
    rw [hsetup.Index, Decrypt.countFailure_Partials]
    exact hks k hk

theorem finishTrueInv_storePartials {d : Decrypt F G} {reply : MessageSendPartial G Proof}
    (hi : reply.RosterIndex ≠ d.Index) (h : FinishTrueInv d) : FinishTrueInv (storePartials S d reply) := by
  obtain ⟨hroot, henough⟩ := h
  set P₁ := d.Partials.insert reply.RosterIndex reply.Partials with hP₁
  have hmem₁ : ∀ k, k ∈ d.Partials → k ∈ P₁ := fun k hk => (AList.mem_insert _).mpr (.inr hk)
  have hroot₁ : d.Index ∈ P₁ ↔ d.Index ∈ d.Partials := by
    rw [hP₁, AList.mem_insert]
    exact or_iff_right (Ne.symm hi)
  by_cases hle : d.Threshold - 1 ≤ (P₁.entries.length : ℤ)
  · rw [storePartials_of_le S hle]
    refine ⟨by simp, fun _ => ?_⟩
    by_cases hold : true ∈ d.finishes
    · obtain ⟨ks, hnodup, hlen, hks⟩ := henough hold
      exact ⟨ks, hnodup, hlen, fun k hk =>
        ⟨(hks k hk).1, (AList.mem_insert _).mpr (.inr (hmem₁ k (hks k hk).2))⟩⟩
    · -- the first call: every stored index is another conode's
      have hnot : d.Index ∉ P₁ := fun hmem => hold (hroot.mp (hroot₁.mp hmem))
      have hkeys : P₁.keys.length = P₁.entries.length := List.length_map _
      refine ⟨P₁.keys, P₁.keys_nodup, by rw [hkeys]; exact hle, fun k hk => ⟨?_, ?_⟩⟩
      · rintro rfl
        exact hnot (AList.mem_keys.mpr hk)
      · exact (AList.mem_insert _).mpr (.inr (AList.mem_keys.mpr hk))
  · rw [storePartials_of_lt S (not_le.mp hle)]
    refine ⟨hroot₁.trans hroot, fun ht => ?_⟩
    obtain ⟨ks, hnodup, hlen, hks⟩ := henough ht
    exact ⟨ks, hnodup, hlen, fun k hk => ⟨(hks k hk).1, hmem₁ k (hks k hk).2⟩⟩

theorem finishTrueInv_step {d d' : Decrypt F G} {reply : MessageSendPartial G Proof}
    (h : DecryptStep S d reply d') (hinv : FinishTrueInv d) : FinishTrueInv d' := by
  obtain ⟨hi, hrun⟩ := h
  rcases handlePartial_eq_ok S hrun with ⟨rfl, -⟩ | ⟨-, -, rfl⟩
  · exact finishTrueInv_countFailure hinv
  · exact finishTrueInv_storePartials S hi hinv

/-- In every run of the root, once it has called `finish(true)` it holds its
own partials and the stored partials of at least `Threshold - 1` other
conodes. -/
theorem finishTrue_holds_threshold_partials {d : Decrypt F G}
    (hd : Transition.Reachable DecryptInit (DecryptStep S) d) (ht : true ∈ d.finishes) :
    d.Index ∈ d.Partials ∧ ∃ ks : List ℕ, ks.Nodup ∧ d.Threshold - 1 ≤ (ks.length : ℤ) ∧
      ∀ k ∈ ks, k ≠ d.Index ∧ k ∈ d.Partials := by
  have hinv : FinishTrueInv d :=
    hd.invariant (fun _ h => finishTrueInv_init h) fun _ _ _ hI hst => finishTrueInv_step S hst hI
  exact ⟨hinv.root_mem_iff.mpr ht, hinv.enough ht⟩

/-- The root of a roster of three, with threshold `2`, share `1` and the
vector `[(1, 1)]`, as `NewDecrypt` leaves it. -/
def sampleDecryptRoot : Decrypt (ZMod 7) (ZMod 7) :=
  ⟨2, 0, 3, 0, 1, [⟨1, 1⟩], ∅, []⟩

/-- The honest reply of the conode `1`, with share `2`. -/
def sampleReplyOne : MessageSendPartial (ZMod 7) (ZMod 7) :=
  ⟨handlePrompt Suite.zmod7 ((2 : ℕ) : ZMod 7) [⟨1, 1⟩], 1⟩

/-- In the suite on `ZMod 7`, the root finishes on the first valid reply and
holds both partials. -/
theorem finishTrue_holds_threshold_partials_zmod7 :
    true ∈ (storePartials Suite.zmod7 sampleDecryptRoot sampleReplyOne).finishes ∧
      (storePartials Suite.zmod7 sampleDecryptRoot sampleReplyOne).Index ∈
        (storePartials Suite.zmod7 sampleDecryptRoot sampleReplyOne).Partials ∧
      ∃ ks : List ℕ, ks.Nodup ∧
        (storePartials Suite.zmod7 sampleDecryptRoot sampleReplyOne).Threshold - 1 ≤ (ks.length : ℤ) ∧
        ∀ k ∈ ks, k ≠ (storePartials Suite.zmod7 sampleDecryptRoot sampleReplyOne).Index ∧
          k ∈ (storePartials Suite.zmod7 sampleDecryptRoot sampleReplyOne).Partials := by
  have h0 : DecryptInit sampleDecryptRoot := ⟨rfl, rfl, rfl⟩
  -- the reply's proofs verify, so `HandlePartial` stores it
  have hstep : DecryptStep Suite.zmod7 sampleDecryptRoot sampleReplyOne
      (storePartials Suite.zmod7 sampleDecryptRoot sampleReplyOne) :=
    ⟨by decide, rfl⟩
  have hfin : true ∈ (storePartials Suite.zmod7 sampleDecryptRoot sampleReplyOne).finishes := by
    decide
  exact ⟨hfin, finishTrue_holds_threshold_partials Suite.zmod7 (.step (.init h0) hstep) hfin⟩

end Decenarch
