import Decenarch.Proofs
import Decenarch.Lib.Transition

/-!
# The goroutines of `VerifyCipherVectorProof` (`lib/proofs.go`)

`VerifyCipherVectorProof` starts one goroutine per proof, each running
`CipherTextProof.verify` on its ciphertext.  A verifier sends `false` and
then `true` on the channel `ch` of capacity `len(*p)` when neither DLEQ
statement verifies, and `true` alone otherwise; it calls `wg.Done()` only
after its sends.  The calling goroutine waits in `wg.Wait()`, closes `ch`
and ranges over it, returning `false` at the first `false`.

A run interleaves the steps of the calling goroutine and of the verifiers.
Every step decreases a measure, so every interleaving ends, and the state it
ends in is the one `verifyCipherVectorProof` of `Proofs.lean` names: a panic
when `cv` is shorter than `p`, `true` when every proof passes, and otherwise
a state in which the caller waits in `wg.Wait()` forever, behind a verifier
blocked on the full channel.  The count of values sent, `VerifyInv.sent`,
carries the argument.
-/

namespace Decenarch

/-- Where the goroutine that called `VerifyCipherVectorProof` is. -/
inductive VerifyMain where
  /-- In the loop that starts the verifiers, at index `i`. -/
  | spawning (i : ℕ)
  /-- In `wg.Wait()`. -/
  | waiting
  /-- In `for outcome := range ch`, after `close(ch)`. -/
  | draining
  /-- It returned `b`. -/
  | returned (b : Bool)
  /-- `(*cv)[i]` was out of range. -/
  | panicked
  deriving DecidableEq

namespace VerifyMain

/-- How many verifiers were started when the caller is at `m`, for a proof
vector of length `n`; `none` after a panic. -/
def started (n : ℕ) : VerifyMain → Option ℕ
  | spawning i => some i
  | panicked => none
  | _ => some n

/-- Whether `close(ch)` was called. -/
def pastWait : VerifyMain → Bool
  | draining | returned _ => true
  | _ => false

/-- The steps the caller has left, at most, for a proof vector of length
`n`: six for each verifier still to start covers the start and the steps of
the verifier itself. -/
def weight (n : ℕ) : VerifyMain → ℕ
  | spawning i => 3 + 6 * (n - i)
  | waiting => 2
  | draining => 1
  | returned _ | panicked => 0

end VerifyMain

/-- A goroutine running `CipherTextProof.verify`: the values it has still to
send on `ch`, and whether it has called `wg.Done()`. -/
structure Verifier where
  pending : List Bool
  exited : Bool

/-- A state of `VerifyCipherVectorProof` and its goroutines. -/
structure VerifyRun where
  main : VerifyMain
  /-- The verifiers started so far, by index. -/
  verifiers : List Verifier
  /-- The values buffered in `ch`, oldest first. -/
  ch : List Bool
  closed : Bool
  /-- The counter of `wg`. -/
  wg : ℕ

/-- The state at the call. -/
def VerifyRun.init : VerifyRun := ⟨.spawning 0, [], [], false, 0⟩

/-- Who takes a step: the caller, or the verifier started at index `j`. -/
inductive VerifyThread where
  | main
  | verifier (j : ℕ)

/-- What the caller gets once no step is left: its return value, a panic,
or a wait that never ends. -/
def VerifyRun.outcome (st : VerifyRun) : Outcome Bool :=
  match st.main with
  | .returned b => .ok b
  | .panicked => .panic
  | _ => .block

variable {F : Type*} {G Proof : Type} [AddCommGroup G] (S : Suite F G Proof)
variable (p : CipherVectorProof G Proof) (cv : CipherVector G)

/-- The steps of `VerifyCipherVectorProof(p, cv)` and its verifiers. -/
inductive VerifyRunStep : VerifyRun → VerifyThread → VerifyRun → Prop
  /-- `wg.Add(1)`, then `go cipherTextProof.verify((*cv)[i], ch, &wg, ...)`. -/
  | spawn {st : VerifyRun} {i : ℕ} (hmain : st.main = .spawning i) (hp : i < p.length)
      (hc : i < cv.length) :
      VerifyRunStep st .main { st with
        main := .spawning (i + 1)
        verifiers := st.verifiers ++ [⟨p[i].verify S cv[i] (zeroToPoint S) (oneToPoint S) S.Base, false⟩]
        wg := st.wg + 1 }
  /-- `(*cv)[i]` with `i ≥ len(*cv)`. -/
  | indexPanic {st : VerifyRun} {i : ℕ} (hmain : st.main = .spawning i) (hp : i < p.length)
      (hc : cv.length ≤ i) :
      VerifyRunStep st .main { st with main := .panicked }
  /-- The loop over `*p` ends. -/
  | loopEnd {st : VerifyRun} {i : ℕ} (hmain : st.main = .spawning i) (hp : p.length ≤ i) :
      VerifyRunStep st .main { st with main := .waiting }
  /-- `wg.Wait()` returns once the counter is zero; then `close(ch)`. -/
  | wait {st : VerifyRun} (hmain : st.main = .waiting) (hwg : st.wg = 0) :
      VerifyRunStep st .main { st with main := .draining, closed := true }
  /-- The range receives `false`: `return false`. -/
  | receiveFalse {st : VerifyRun} {rest : List Bool} (hmain : st.main = .draining)
      (hch : st.ch = false :: rest) :
      VerifyRunStep st .main { st with main := .returned false, ch := rest }
  /-- The range receives `true` and goes on. -/
  | receiveTrue {st : VerifyRun} {rest : List Bool} (hmain : st.main = .draining)
      (hch : st.ch = true :: rest) :
      VerifyRunStep st .main { st with ch := rest }
  /-- The range ends on the closed, empty channel: `return true`. -/
  | rangeEnd {st : VerifyRun} (hmain : st.main = .draining) (hch : st.ch = [])
      (hclosed : st.closed = true) :
      VerifyRunStep st .main { st with main := .returned true }
  /-- `ch <- b` in verifier `j`, with room in the buffer of capacity
  `len(*p)`.  (A send on the closed channel would panic; `close` comes only
  after every verifier is past its sends, `VerifyInv.exited_of_closed`.) -/
  | send {st : VerifyRun} {j : ℕ} {b : Bool} {rest : List Bool} (hj : j < st.verifiers.length)
      (hpending : st.verifiers[j].pending = b :: rest) (hlive : st.verifiers[j].exited = false)
      (hcap : st.ch.length < p.length) :
      VerifyRunStep st (.verifier j)
        { st with verifiers := st.verifiers.set j ⟨rest, false⟩, ch := st.ch ++ [b] }
  /-- `wg.Done()` in verifier `j`, after its sends. -/
  | done {st : VerifyRun} {j : ℕ} (hj : j < st.verifiers.length) (hpending : st.verifiers[j].pending = [])
      (hlive : st.verifiers[j].exited = false) :
      VerifyRunStep st (.verifier j) { st with verifiers := st.verifiers.set j ⟨[], true⟩, wg := st.wg - 1 }

/-- The states of a call. -/
def VerifyReachable : VerifyRun → Prop :=
  Transition.Reachable (· = VerifyRun.init) (VerifyRunStep S p cv)

/-- What the verifier started at each index sends, in the order of `*p`. -/
def verifyJobs : List (List Bool) :=
  (p.zip cv).map fun pc => pc.1.verify S pc.2 (zeroToPoint S) (oneToPoint S) S.Base

/-! ## Arithmetic of the counts -/

theorem sum_set_add : ∀ (l : List ℕ) {j : ℕ} (hj : j < l.length) (a : ℕ),
    (l.set j a).sum + l[j] = l.sum + a
  | _ :: _, 0, _, a => by
      simp only [List.set_cons_zero, List.sum_cons, List.getElem_cons_zero]
      omega
  | _ :: xs, j + 1, hj, a => by
      have ih := sum_set_add xs (Nat.lt_of_succ_lt_succ hj) a
      simp only [List.set_cons_succ, List.sum_cons, List.getElem_cons_succ]
      omega

theorem length_verify_le_two (pr : CipherTextProof G Proof) (c : CipherText G) (z o b : G) :
    (pr.verify S c z o b).length ≤ 2 := by
  dsimp only [CipherTextProof.verify]
  split_ifs <;> simp

theorem length_verifyJobs : (verifyJobs S p cv).length = min p.length cv.length := by
  simp [verifyJobs]

theorem getElem_verifyJobs {i : ℕ} (hp : i < p.length) (hc : i < cv.length)
    (hi : i < (verifyJobs S p cv).length) :
    (verifyJobs S p cv)[i] = p[i].verify S cv[i] (zeroToPoint S) (oneToPoint S) S.Base := by
  simp [verifyJobs]

/-! ## Every interleaving ends -/

/-- Two steps for each value a verifier has still to send (the send and its
receive), one for its `wg.Done()` to come. -/
def Verifier.weight (v : Verifier) : ℕ := 2 * v.pending.length + if v.exited then 0 else 1

/-- The measure of a state: the caller's weight, the verifiers' weights and
one receive for each buffered value. -/
def VerifyRun.measure (n : ℕ) (st : VerifyRun) : ℕ :=
  st.main.weight n + (st.verifiers.map Verifier.weight).sum + st.ch.length

/-- The weight of the verifiers after verifier `j` changed to `v`. -/
theorem sum_weight_set {vs : List Verifier} {j : ℕ} (hj : j < vs.length) (v : Verifier) :
    ((vs.set j v).map Verifier.weight).sum + vs[j].weight = (vs.map Verifier.weight).sum + v.weight := by
  rw [List.map_set]
  have h := sum_set_add (vs.map Verifier.weight) (by simpa using hj) v.weight
  rwa [List.getElem_map] at h

theorem measure_lt_of_step {st st' : VerifyRun} {l : VerifyThread} (h : VerifyRunStep S p cv st l st') :
    st'.measure p.length < st.measure p.length := by
  cases h with
  | @spawn i hmain hp hc =>
      have hjob := length_verify_le_two S p[i] cv[i] (zeroToPoint S) (oneToPoint S) S.Base
      simp only [VerifyRun.measure, hmain, VerifyMain.weight, List.map_append, List.sum_append,
        List.map_cons, List.map_nil, List.sum_cons, List.sum_nil, Verifier.weight]
      simp only [Bool.false_eq_true, if_false]
      omega
  | indexPanic hmain => simp [VerifyRun.measure, hmain, VerifyMain.weight]
  | loopEnd hmain hp =>
      simp only [VerifyRun.measure, hmain, VerifyMain.weight]
      omega
  | wait hmain => simp [VerifyRun.measure, hmain, VerifyMain.weight]
  | receiveFalse hmain hch =>
      simp only [VerifyRun.measure, hmain, hch, VerifyMain.weight, List.length_cons]
      omega
  | receiveTrue hmain hch => simp [VerifyRun.measure, hch]
  | rangeEnd hmain => simp [VerifyRun.measure, hmain, VerifyMain.weight]
  | @send j b rest hj hpending hlive =>
      have h := sum_weight_set hj ⟨rest, false⟩
      simp only [Verifier.weight, hpending, hlive, List.length_cons, Bool.false_eq_true, if_false] at h
      simp only [VerifyRun.measure, List.length_append, List.length_singleton]
      omega
  | done hj hpending hlive =>
      have h := sum_weight_set hj ⟨[], true⟩
      simp only [Verifier.weight, hpending, hlive, List.length_nil, Bool.false_eq_true, if_false,
        if_true] at h
      simp only [VerifyRun.measure]
      omega

/-- Every interleaving of a call ends, after at most `3 + 6 len(*p)` steps. -/
theorem verifyRun_length_le {ls : List VerifyThread} {st : VerifyRun}
    (h : Transition.Run (VerifyRunStep S p cv) VerifyRun.init ls st) : ls.length ≤ 3 + 6 * p.length := by
  have hb := h.length_add_le fun _ _ _ hst => measure_lt_of_step S p cv hst
  simp only [VerifyRun.measure, VerifyRun.init, VerifyMain.weight, List.map_nil, List.sum_nil,
    List.length_nil] at hb
  omega

/-! ## What every reachable state satisfies -/

/-- How many values the first `k` verifiers send in all. -/
def sentTotal (k : ℕ) : ℕ := (((verifyJobs S p cv).take k).map List.length).sum

theorem sentTotal_succ {k : ℕ} (hk : k < (verifyJobs S p cv).length) :
    sentTotal S p cv (k + 1) = sentTotal S p cv k + (verifyJobs S p cv)[k].length := by
  rw [sentTotal, sentTotal, ← List.take_concat_get hk, List.concat_eq_append, List.map_append,
    List.sum_append, List.map_singleton, List.sum_singleton]

/-- All the verifiers together send one value per proof and one more per
proof that fails. -/
theorem sentTotal_length :
    sentTotal S p cv (verifyJobs S p cv).length =
      (p.zip cv).length + (p.zip cv).countP fun pc => !decide (pc.1.Passes S pc.2) := by
  rw [sentTotal, List.take_length, ← List.length_flatten, verifyJobs, ← List.flatMap_def,
    length_flatMap_verify]

/-- The invariant of a call. -/
structure VerifyInv (st : VerifyRun) : Prop where
  length_le : st.verifiers.length ≤ (verifyJobs S p cv).length
  started : ∀ i, st.main.started p.length = some i → st.verifiers.length = i
  panicked : st.main = .panicked → cv.length < p.length
  wg_eq : st.wg = st.verifiers.countP fun v => !v.exited
  pending_of_exited : ∀ v ∈ st.verifiers, v.exited = true → v.pending = []
  capacity : st.ch.length ≤ p.length
  closed_eq : st.closed = st.main.pastWait
  exited_of_closed : st.closed = true → ∀ v ∈ st.verifiers, v.exited = true
  /-- Until `close(ch)` nothing is received: the buffer and the values still
  to send are all that the verifiers started so far send. -/
  sent : st.closed = false →
    st.ch.length + (st.verifiers.map fun v => v.pending.length).sum = sentTotal S p cv st.verifiers.length
  ch_sub : ∀ b ∈ st.ch, b ∈ (verifyJobs S p cv).flatten
  pending_sub : ∀ v ∈ st.verifiers, ∀ b ∈ v.pending, b ∈ (verifyJobs S p cv).flatten
  returned_false : st.main = .returned false → false ∈ (verifyJobs S p cv).flatten

theorem verifyInv_init : VerifyInv S p cv VerifyRun.init where
  length_le := Nat.zero_le _
  started i h := Option.some.inj h
  panicked h := by cases h
  wg_eq := rfl
  pending_of_exited v hv := by cases hv
  capacity := Nat.zero_le _
  closed_eq := rfl
  exited_of_closed h := by cases h
  sent _ := rfl
  ch_sub b hb := by cases hb
  pending_sub v hv := by cases hv
  returned_false h := by cases h

section Steps

variable {S p cv} {st : VerifyRun}

theorem VerifyInv.spawn (h : VerifyInv S p cv st) {i : ℕ} (hmain : st.main = .spawning i)
    (hp : i < p.length) (hc : i < cv.length) :
    VerifyInv S p cv { st with
        main := .spawning (i + 1)
        verifiers := st.verifiers ++ [⟨p[i].verify S cv[i] (zeroToPoint S) (oneToPoint S) S.Base, false⟩]
        wg := st.wg + 1 } := by
  have hlen : st.verifiers.length = i := h.started i (by rw [hmain]; rfl)
  have hi : i < (verifyJobs S p cv).length := by rw [length_verifyJobs]; omega
  have hjob := getElem_verifyJobs S p cv hp hc hi
  have hclosed : st.closed = false := by rw [h.closed_eq, hmain]; rfl
  exact {
    length_le := by simp only [List.length_append, List.length_singleton]; omega
    started := fun i' hi' => by
      simp only [VerifyMain.started, Option.some.injEq] at hi'
      simp only [List.length_append, List.length_singleton]
      omega
    panicked := fun hm => by cases hm
    wg_eq := by simp [h.wg_eq]
    pending_of_exited := fun v hv hex => by
      rcases List.mem_append.mp hv with hv | hv
      · exact h.pending_of_exited v hv hex
      · simp only [List.mem_singleton] at hv
        subst hv
        cases hex
    capacity := h.capacity
    closed_eq := by rw [hclosed]; rfl
    exited_of_closed := fun hc' => by simp [hclosed] at hc'
    sent := fun _ => by
      have hsent := h.sent hclosed
      simp only [List.map_append, List.sum_append, List.map_singleton, List.sum_singleton,
        List.length_append, List.length_singleton]
      rw [hlen, sentTotal_succ S p cv hi, hjob]
      rw [hlen] at hsent
      omega
    ch_sub := h.ch_sub
    pending_sub := fun v hv b hb => by
      rcases List.mem_append.mp hv with hv | hv
      · exact h.pending_sub v hv b hb
      · simp only [List.mem_singleton] at hv
        subst hv
        exact List.mem_flatten.mpr ⟨_, List.getElem_mem hi, hjob ▸ hb⟩
    returned_false := fun hm => by cases hm }

theorem VerifyInv.indexPanic (h : VerifyInv S p cv st) {i : ℕ} (hmain : st.main = .spawning i)
    (hp : i < p.length) (hc : cv.length ≤ i) : VerifyInv S p cv { st with main := .panicked } :=
  { h with
    started := fun _ hi => by cases hi
    panicked := fun _ => by omega
    closed_eq := by rw [h.closed_eq, hmain]; rfl
    returned_false := fun hm => by cases hm }

theorem VerifyInv.loopEnd (h : VerifyInv S p cv st) {i : ℕ} (hmain : st.main = .spawning i)
    (hp : p.length ≤ i) : VerifyInv S p cv { st with main := .waiting } :=
  have hlen : st.verifiers.length = i := h.started i (by rw [hmain]; rfl)
  have hjobs := length_verifyJobs S p cv
  { h with
    started := fun i' hi' => by
      dsimp only at hi' ⊢
      simp only [VerifyMain.started, Option.some.injEq] at hi'
      have := h.length_le
      omega
    panicked := fun hm => by cases hm
    closed_eq := by rw [h.closed_eq, hmain]; rfl
    returned_false := fun hm => by cases hm }

/-- With the counter of `wg` at zero every verifier is past `wg.Done()`. -/
theorem VerifyInv.exited_of_wg_eq_zero (h : VerifyInv S p cv st) (hwg : st.wg = 0) :
    ∀ v ∈ st.verifiers, v.exited = true := by
  intro v hv
  have hzero : st.verifiers.countP (fun v => !v.exited) = 0 := h.wg_eq ▸ hwg
  have hnot := List.countP_eq_zero.mp hzero v hv
  simpa using hnot

theorem VerifyInv.wait (h : VerifyInv S p cv st) (hmain : st.main = .waiting) (hwg : st.wg = 0) :
    VerifyInv S p cv { st with main := .draining, closed := true } :=
  { h with
    started := fun i hi => h.started i (by rw [hmain]; exact hi)
    panicked := fun hm => by cases hm
    closed_eq := rfl
    exited_of_closed := fun _ => h.exited_of_wg_eq_zero hwg
    sent := fun hc => by cases hc
    returned_false := fun hm => by cases hm }

theorem VerifyInv.receive (h : VerifyInv S p cv st) (hmain : st.main = .draining) {b : Bool}
    {rest : List Bool} (hch : st.ch = b :: rest) {m : VerifyMain} (hm : m.pastWait = true)
    (hstarted : m.started p.length = some p.length)
    (hfalse : m = .returned false → b = false) :
    VerifyInv S p cv { st with main := m, ch := rest } :=
  have hclosed : st.closed = true := by rw [h.closed_eq, hmain]; rfl
  { h with
    started := fun i hi => h.started i (by rw [hmain]; exact hstarted.symm.trans hi)
    panicked := fun hp => by
      change m = .panicked at hp
      rw [hp] at hm
      cases hm
    capacity := by
      have := h.capacity
      rw [hch, List.length_cons] at this
      show rest.length ≤ p.length
      omega
    closed_eq := by
      show st.closed = m.pastWait
      rw [hclosed, hm]
    sent := fun hc => by simp [hclosed] at hc
    ch_sub := fun x hx => h.ch_sub x (by rw [hch]; exact List.mem_cons_of_mem _ hx)
    returned_false := fun hr => h.ch_sub false (by rw [hch, ← hfalse hr]; exact List.mem_cons_self) }

theorem VerifyInv.rangeEnd (h : VerifyInv S p cv st) (hmain : st.main = .draining) :
    VerifyInv S p cv { st with main := .returned true } :=
  { h with
    started := fun i hi => h.started i (by rw [hmain]; exact hi)
    panicked := fun hm => by cases hm
    closed_eq := by rw [h.closed_eq, hmain]; rfl
    returned_false := fun hm => by cases hm }

theorem VerifyInv.send (h : VerifyInv S p cv st) {j : ℕ} {b : Bool} {rest : List Bool}
    (hj : j < st.verifiers.length) (hpending : st.verifiers[j].pending = b :: rest)
    (hlive : st.verifiers[j].exited = false) (hcap : st.ch.length < p.length) :
    VerifyInv S p cv { st with verifiers := st.verifiers.set j ⟨rest, false⟩, ch := st.ch ++ [b] } :=
  have hmem := List.getElem_mem hj
  -- a verifier still running means that `close(ch)` has not come
  have hclosed : st.closed = false := by
    cases hc : st.closed
    · rfl
    · simp [h.exited_of_closed hc _ hmem] at hlive
  { h with
    length_le := by rw [List.length_set]; exact h.length_le
    started := fun i hi => by rw [List.length_set]; exact h.started i hi
    wg_eq := by
      have hpos : 0 < st.verifiers.countP fun v => !v.exited :=
        List.countP_pos_iff.mpr ⟨_, hmem, by simp [hlive]⟩
      rw [List.countP_set hj, h.wg_eq]
      simp only [hlive, Bool.not_false, if_true]
      omega
    pending_of_exited := fun v hv hex => by
      rcases List.mem_or_eq_of_mem_set hv with hv | rfl
      · exact h.pending_of_exited v hv hex
      · cases hex
    capacity := by rw [List.length_append, List.length_singleton]; omega
    exited_of_closed := fun hc => by simp [hclosed] at hc
    sent := fun _ => by
      have hsum := sum_set_add (st.verifiers.map fun v => v.pending.length) (by simpa using hj) rest.length
      rw [List.getElem_map, hpending, List.length_cons] at hsum
      rw [List.length_set, ← h.sent hclosed, List.map_set, List.length_append, List.length_singleton]
      dsimp only
      omega
    ch_sub := fun x hx => by
      rcases List.mem_append.mp hx with hx | hx
      · exact h.ch_sub x hx
      · rw [List.mem_singleton.mp hx]
        exact h.pending_sub _ hmem b (by rw [hpending]; exact List.mem_cons_self)
    pending_sub := fun v hv x hx => by
      rcases List.mem_or_eq_of_mem_set hv with hv | rfl
      · exact h.pending_sub v hv x hx
      · exact h.pending_sub _ hmem x (by rw [hpending]; exact List.mem_cons_of_mem _ hx) }

theorem VerifyInv.done (h : VerifyInv S p cv st) {j : ℕ} (hj : j < st.verifiers.length)
    (hpending : st.verifiers[j].pending = []) (hlive : st.verifiers[j].exited = false) :
    VerifyInv S p cv { st with verifiers := st.verifiers.set j ⟨[], true⟩, wg := st.wg - 1 } :=
  have hmem := List.getElem_mem hj
  have hclosed : st.closed = false := by
    cases hc : st.closed
    · rfl
    · simp [h.exited_of_closed hc _ hmem] at hlive
  { h with
    length_le := by rw [List.length_set]; exact h.length_le
    started := fun i hi => by rw [List.length_set]; exact h.started i hi
    wg_eq := by
      rw [List.countP_set hj, h.wg_eq]
      simp [hlive]
    pending_of_exited := fun v hv hex => by
      rcases List.mem_or_eq_of_mem_set hv with hv | rfl
      · exact h.pending_of_exited v hv hex
      · rfl
    exited_of_closed := fun hc => by simp [hclosed] at hc
    sent := fun _ => by
      have hsum := sum_set_add (st.verifiers.map fun v => v.pending.length) (by simpa using hj) 0
      rw [List.getElem_map, hpending, List.length_nil] at hsum
      rw [List.length_set, ← h.sent hclosed, List.map_set]
      exact congrArg (st.ch.length + ·) hsum
    pending_sub := fun v hv x hx => by
      rcases List.mem_or_eq_of_mem_set hv with hv | rfl
      · exact h.pending_sub v hv x hx
      · cases hx }

end Steps

theorem verifyInv_step {st st' : VerifyRun} {l : VerifyThread} (h : VerifyInv S p cv st)
    (hst : VerifyRunStep S p cv st l st') : VerifyInv S p cv st' := by
  cases hst with
  | spawn hmain hp hc => exact h.spawn hmain hp hc
  | indexPanic hmain hp hc => exact h.indexPanic hmain hp hc
  | loopEnd hmain hp => exact h.loopEnd hmain hp
  | wait hmain hwg => exact h.wait hmain hwg
  | receiveFalse hmain hch => exact h.receive hmain hch rfl rfl fun _ => rfl
  | receiveTrue hmain hch =>
      exact h.receive hmain hch (m := st.main) (by rw [hmain]; rfl) (by rw [hmain]; rfl)
        fun hm => by rw [hmain] at hm; cases hm
  | rangeEnd hmain => exact h.rangeEnd hmain
  | send hj hpending hlive hcap => exact h.send hj hpending hlive hcap
  | done hj hpending hlive => exact h.done hj hpending hlive

theorem verifyInv_of_reachable {st : VerifyRun} (hr : VerifyReachable S p cv st) : VerifyInv S p cv st := by
  unfold VerifyReachable at hr
  exact hr.invariant (fun s hs => by rw [hs]; exact verifyInv_init S p cv)
    fun _ _ _ hi hst => verifyInv_step S p cv hi hst

/-! ## How a call ends -/

section Outcomes

variable {S p cv}

/-- In the loop that starts the verifiers the caller can always step. -/
theorem exists_step_of_spawning {st : VerifyRun} {i : ℕ} (hmain : st.main = .spawning i) :
    ∃ st', VerifyRunStep S p cv st .main st' := by
  by_cases hp : i < p.length
  · by_cases hc : i < cv.length
    · exact ⟨_, .spawn hmain hp hc⟩
    · exact ⟨_, .indexPanic hmain hp (by omega)⟩
  · exact ⟨_, .loopEnd hmain (by omega)⟩

/-- When a proof fails on its ciphertext, the verifiers can all be past
`wg.Done()` only with all their values in the buffer, which is one more
value than the buffer holds. -/
theorem VerifyInv.wg_ne_zero_of_failing {st : VerifyRun} (h : VerifyInv S p cv st)
    (hlen : p.length ≤ cv.length) (hfail : ∃ pc ∈ p.zip cv, ¬ pc.1.Passes S pc.2)
    (hmain : st.main = .waiting) : st.wg ≠ 0 := by
  intro hwg
  have hexited := h.exited_of_wg_eq_zero hwg
  have hpending : (st.verifiers.map fun v => v.pending.length).sum = 0 :=
    List.sum_eq_zero fun n hn => by
      obtain ⟨v, hv, rfl⟩ := List.mem_map.mp hn
      rw [h.pending_of_exited v hv (hexited v hv), List.length_nil]
  have hstarted : st.verifiers.length = p.length := h.started p.length (by rw [hmain]; rfl)
  have hjobs : (verifyJobs S p cv).length = p.length := by rw [length_verifyJobs]; omega
  have hsent := h.sent (by rw [h.closed_eq, hmain]; rfl)
  rw [hpending, hstarted, ← hjobs, sentTotal_length] at hsent
  have hzip : (p.zip cv).length = p.length := by simp only [List.length_zip]; omega
  have hpos : 0 < (p.zip cv).countP fun pc => !decide (pc.1.Passes S pc.2) := by
    obtain ⟨pc, hpc, hnot⟩ := hfail
    exact List.countP_pos_iff.mpr ⟨pc, hpc, by simp [hnot]⟩
  have hcap := h.capacity
  omega

/-- When a proof fails on its ciphertext, no state of the call is past
`wg.Wait()`. -/
theorem not_pastWait_of_failing (hlen : p.length ≤ cv.length)
    (hfail : ∃ pc ∈ p.zip cv, ¬ pc.1.Passes S pc.2) {st : VerifyRun} (hr : VerifyReachable S p cv st) :
    st.main.pastWait = false := by
  unfold VerifyReachable at hr
  refine hr.invariant_of_reachable (I := fun s => s.main.pastWait = false) (fun s hs => by rw [hs]; rfl) ?_
  intro s l s' hrs hs hst
  cases hst with
  | spawn => rfl
  | indexPanic => rfl
  | loopEnd => rfl
  | wait hmain hwg =>
      exact absurd hwg ((verifyInv_of_reachable S p cv hrs).wg_ne_zero_of_failing hlen hfail hmain)
  | receiveFalse hmain => rw [hmain] at hs; cases hs
  | receiveTrue hmain => rw [hmain] at hs; cases hs
  | rangeEnd hmain => rw [hmain] at hs; cases hs
  | send => exact hs
  | done => exact hs

/-- `VerifyCipherVectorProof(p, cv)`, where `cv` is at least as long as `p`
and some proof fails on its ciphertext, never returns, in any interleaving
of its goroutines. -/
theorem verifyCipherVectorProof_never_returns_of_failing (hlen : p.length ≤ cv.length)
    (hfail : ∃ pc ∈ p.zip cv, ¬ pc.1.Passes S pc.2) {st : VerifyRun} (hr : VerifyReachable S p cv st)
    (b : Bool) : st.main ≠ .returned b := by
  intro hm
  have hpast := not_pastWait_of_failing hlen hfail hr
  rw [hm] at hpast
  cases hpast

/-- The input of `TestCipherVectorProof` that must be refused, `{3, 4, 6, 0, 1}`,
encrypted in the suite on `ZMod 7` under the key `3`: the call never
returns. -/
theorem verifyCipherVectorProof_test_invalid_never_returns :
    ((encryptIntVector Suite.zmod7 3 [3, 4, 6, 0, 1] fun _ => 1).2.length ≤
        (encryptIntVector Suite.zmod7 3 [3, 4, 6, 0, 1] fun _ => 1).1.length ∧
      ∃ pc ∈ (encryptIntVector Suite.zmod7 3 [3, 4, 6, 0, 1] fun _ => 1).2.zip
          (encryptIntVector Suite.zmod7 3 [3, 4, 6, 0, 1] fun _ => 1).1,
        ¬ pc.1.Passes Suite.zmod7 pc.2) ∧
    ∀ st, VerifyReachable Suite.zmod7 (encryptIntVector Suite.zmod7 3 [3, 4, 6, 0, 1] fun _ => 1).2
        (encryptIntVector Suite.zmod7 3 [3, 4, 6, 0, 1] fun _ => 1).1 st →
      ∀ b, st.main ≠ .returned b :=
  ⟨⟨by decide, by decide⟩, fun _ hr b =>
    verifyCipherVectorProof_never_returns_of_failing (by decide) (by decide) hr b⟩

theorem verifyJobs_of_passes (hpass : ∀ pc ∈ p.zip cv, pc.1.Passes S pc.2) :
    ∀ job ∈ verifyJobs S p cv, job = [true] := by
  intro job hjob
  obtain ⟨pc, hpc, rfl⟩ := List.mem_map.mp hjob
  rw [CipherTextProof.verify_eq, if_pos (hpass pc hpc)]

theorem sentTotal_of_passes (hpass : ∀ pc ∈ p.zip cv, pc.1.Passes S pc.2) {k : ℕ}
    (hk : k ≤ (verifyJobs S p cv).length) : sentTotal S p cv k = k := by
  have hones : ∀ n ∈ ((verifyJobs S p cv).take k).map List.length, n = 1 := by
    intro n hn
    obtain ⟨job, hjob, rfl⟩ := List.mem_map.mp hn
    rw [verifyJobs_of_passes hpass job (List.mem_of_mem_take hjob), List.length_singleton]
  rw [sentTotal, List.eq_replicate_of_mem hones, List.sum_replicate, List.length_map, List.length_take]
  simp only [smul_eq_mul, mul_one]
  omega

/-- When every proof passes, a state of the call from which no step is
possible is a return. -/
theorem exists_step_of_passes (hlen : p.length ≤ cv.length) (hpass : ∀ pc ∈ p.zip cv, pc.1.Passes S pc.2)
    {st : VerifyRun} (hr : VerifyReachable S p cv st) (hret : ∀ b, st.main ≠ .returned b) :
    ∃ l st', VerifyRunStep S p cv st l st' := by
  have h := verifyInv_of_reachable S p cv hr
  cases hmain : st.main with
  | spawning i =>
      obtain ⟨st', hst⟩ : ∃ st', VerifyRunStep S p cv st .main st' := exists_step_of_spawning hmain
      exact ⟨_, st', hst⟩
  | waiting =>
      by_cases hwg : st.wg = 0
      · exact ⟨_, _, .wait hmain hwg⟩
      -- a verifier is still running: it can send, since each has one value
      -- and it has not sent its own, or it can call `wg.Done()`
      obtain ⟨v, hv, hlive⟩ := List.countP_pos_iff.mp (show 0 < st.verifiers.countP fun v => !v.exited by
        rw [← h.wg_eq]
        omega)
      obtain ⟨j, hj, rfl⟩ := List.getElem_of_mem hv
      cases hpend : st.verifiers[j].pending with
      | nil => exact ⟨_, _, .done hj hpend (by simpa using hlive)⟩
      | cons b rest =>
          have hsent := h.sent (by rw [h.closed_eq, hmain]; rfl)
          have hstarted : st.verifiers.length = p.length := h.started p.length (by rw [hmain]; rfl)
          rw [sentTotal_of_passes hpass h.length_le, hstarted] at hsent
          have hle : st.verifiers[j].pending.length ≤ (st.verifiers.map fun v => v.pending.length).sum :=
            List.le_sum_of_mem (List.mem_map.mpr ⟨_, hv, rfl⟩)
          rw [hpend, List.length_cons] at hle
          exact ⟨_, _, .send hj hpend (by simpa using hlive) (by omega)⟩
  | draining =>
      cases hch : st.ch with
      | nil => exact ⟨_, _, .rangeEnd hmain hch (by rw [h.closed_eq, hmain]; rfl)⟩
      | cons b rest =>
          cases b with
          | false => exact ⟨_, _, .receiveFalse hmain hch⟩
          | true => exact ⟨_, _, .receiveTrue hmain hch⟩
  | returned b => exact absurd hmain (hret b)
  | panicked =>
      have := h.panicked hmain
      omega

/-- When every proof passes, the caller can only return `true`. -/
theorem returned_true_of_passes (hpass : ∀ pc ∈ p.zip cv, pc.1.Passes S pc.2) {st : VerifyRun}
    (hr : VerifyReachable S p cv st) {b : Bool} (hm : st.main = .returned b) : b = true := by
  cases b with
  | true => rfl
  | false =>
      obtain ⟨job, hjob, hfalse⟩ :=
        List.mem_flatten.mp ((verifyInv_of_reachable S p cv hr).returned_false hm)
      rw [verifyJobs_of_passes hpass job hjob] at hfalse
      simp at hfalse

/-- When `cv` is shorter than `p` the caller never leaves the loop that
starts the verifiers, other than by the panic. -/
theorem spawning_or_panicked_of_short (hshort : cv.length < p.length) {st : VerifyRun}
    (hr : VerifyReachable S p cv st) : st.main = .panicked ∨ ∃ i, st.main = .spawning i := by
  have h := verifyInv_of_reachable S p cv hr
  have hjobs := length_verifyJobs S p cv
  have hle := h.length_le
  cases hmain : st.main with
  | spawning i => exact Or.inr ⟨i, rfl⟩
  | panicked => exact Or.inl rfl
  | waiting =>
      have := h.started p.length (by rw [hmain]; rfl)
      omega
  | draining =>
      have := h.started p.length (by rw [hmain]; rfl)
      omega
  | returned b =>
      have := h.started p.length (by rw [hmain]; rfl)
      omega

/-- Where an interleaving of `VerifyCipherVectorProof(p, cv)` ends (and each
ends, `verifyRun_length_le`), the caller has what
`verifyCipherVectorProof` says: the goroutine model refines the function of
`Proofs.lean`. -/
theorem verifyRun_outcome_of_stuck {st : VerifyRun} (hr : VerifyReachable S p cv st)
    (hstuck : Transition.Stuck (VerifyRunStep S p cv) st) :
    st.outcome = verifyCipherVectorProof S p cv := by
  rw [verifyCipherVectorProof_eq]
  split_ifs with hshort hpass
  · -- the loop reaches the missing ciphertext
    rcases spawning_or_panicked_of_short hshort hr with hm | ⟨i, hm⟩
    · rw [VerifyRun.outcome, hm]
    · obtain ⟨st', hst⟩ : ∃ st', VerifyRunStep S p cv st .main st' := exists_step_of_spawning hm
      exact absurd hst (hstuck _ _)
  · -- every proof passes: the caller returns `true`
    by_cases hret : ∃ b, st.main = .returned b
    · obtain ⟨b, hm⟩ := hret
      rw [VerifyRun.outcome, hm, returned_true_of_passes hpass hr hm]
    · push Not at hret
      obtain ⟨l, st', hst⟩ := exists_step_of_passes (by omega) hpass hr hret
      exact absurd hst (hstuck _ _)
  · -- some proof fails: the caller is not past `wg.Wait()`, and did not panic
    push Not at hpass
    have hpast := not_pastWait_of_failing (by omega) hpass hr
    have hnp : st.main ≠ .panicked := fun hm => by
      have := (verifyInv_of_reachable S p cv hr).panicked hm
      omega
    cases hm : st.main with
    | spawning i => rw [VerifyRun.outcome, hm]
    | waiting => rw [VerifyRun.outcome, hm]
    | draining => rw [hm] at hpast; cases hpast
    | returned b => rw [hm] at hpast; cases hpast
    | panicked => exact absurd hm hnp

end Outcomes

/-- **Whatever the scheduler does, `VerifyCipherVectorProof` ends as its
sequential reading says.**  Every interleaving of the caller and its
verifiers takes at most `3 + 6 len(*p)` steps, it can be continued until no
goroutine can move, and every such continuation leaves the caller with the
outcome `verifyCipherVectorProof` names: the return value, the panic, or the
wait that never ends. -/
theorem verifyRun_ends_in_verifyCipherVectorProof {ls : List VerifyThread} {st : VerifyRun}
    (hrun : Transition.Run (VerifyRunStep S p cv) VerifyRun.init ls st) :
    ls.length ≤ 3 + 6 * p.length ∧
      (∃ ls' st', Transition.Run (VerifyRunStep S p cv) st ls' st' ∧
        Transition.Stuck (VerifyRunStep S p cv) st') ∧
      ∀ ls' st', Transition.Run (VerifyRunStep S p cv) st ls' st' → Transition.Stuck (VerifyRunStep S p cv) st' →
        st'.outcome = verifyCipherVectorProof S p cv := by
  have hreach : VerifyReachable S p cv st := hrun.reachable (.init rfl)
  refine ⟨verifyRun_length_le S p cv hrun, ?_, fun ls' st' hrun' hstuck => ?_⟩
  · -- every step lowers the measure, so some continuation gets stuck
    exact Transition.exists_run_stuck (fun _ _ _ hst => measure_lt_of_step S p cv hst) st
  · exact verifyRun_outcome_of_stuck (hrun'.reachable hreach) hstuck

/-- The refused input of `TestCipherVectorProof`: from the call, every
interleaving ends, and where it ends the caller is as
`verifyCipherVectorProof` says. -/
theorem verifyRun_ends_in_verifyCipherVectorProof_test :
    ([] : List VerifyThread).length ≤
        3 + 6 * (encryptIntVector Suite.zmod7 3 [3, 4, 6, 0, 1] fun _ => 1).2.length ∧
      (∃ ls' st', Transition.Run (VerifyRunStep Suite.zmod7
          (encryptIntVector Suite.zmod7 3 [3, 4, 6, 0, 1] fun _ => 1).2
          (encryptIntVector Suite.zmod7 3 [3, 4, 6, 0, 1] fun _ => 1).1) VerifyRun.init ls' st' ∧
        Transition.Stuck (VerifyRunStep Suite.zmod7 (encryptIntVector Suite.zmod7 3 [3, 4, 6, 0, 1] fun _ => 1).2
          (encryptIntVector Suite.zmod7 3 [3, 4, 6, 0, 1] fun _ => 1).1) st') ∧
      ∀ ls' st', Transition.Run (VerifyRunStep Suite.zmod7
          (encryptIntVector Suite.zmod7 3 [3, 4, 6, 0, 1] fun _ => 1).2
          (encryptIntVector Suite.zmod7 3 [3, 4, 6, 0, 1] fun _ => 1).1) VerifyRun.init ls' st' →
        Transition.Stuck (VerifyRunStep Suite.zmod7 (encryptIntVector Suite.zmod7 3 [3, 4, 6, 0, 1] fun _ => 1).2
          (encryptIntVector Suite.zmod7 3 [3, 4, 6, 0, 1] fun _ => 1).1) st' →
        st'.outcome = verifyCipherVectorProof Suite.zmod7
          (encryptIntVector Suite.zmod7 3 [3, 4, 6, 0, 1] fun _ => 1).2
          (encryptIntVector Suite.zmod7 3 [3, 4, 6, 0, 1] fun _ => 1).1 :=
  verifyRun_ends_in_verifyCipherVectorProof Suite.zmod7 _ _ (Transition.Run.nil _)

end Decenarch
