import Decenarch.Decrypt
import Decenarch.Lib.Transition

/-!
# `Service.decrypt` and the root's `Decrypt.finish` (`service/service.go`, `protocol/decrypt.go`)

`Service.decrypt` starts the root's `Decrypt` instance and then blocks in
`<-p.Finished`, with no timeout.  `Finished` is unbuffered, and `finish`
sends on it inside a `select` with a `default` branch: the result reaches the
service only if its goroutine already waits in the receive, and is dropped
otherwise.  `finish` then stops the timer and calls `Done()`, after which
onet hands the instance no more messages.

A run interleaves three kinds of event: onet runs `HandlePartial` on a reply
(the model of `Decrypt.lean`, whose `finishes` records every call of
`finish`), the service's goroutine reaches its receive, and the timer of
`Start` fires and calls `finish(false)`.
-/

namespace Decenarch

/-- Where the goroutine of `Service.decrypt` is once `p.Start()` returned. -/
inductive ServiceWait where
  /-- Between `Start` and the receive. -/
  | starting
  /-- Blocked in `<-p.Finished`. -/
  | waiting
  /-- It received `result`. -/
  | received (result : Bool)
  deriving DecidableEq

/-- The root's instance and the goroutine of `Service.decrypt` that waits
for it. -/
structure DecryptRun (F G : Type) where
  root : Decrypt F G
  service : ServiceWait
  /-- `Done()` was called: onet delivers no more messages to the instance. -/
  done : Bool
  /-- `d.timeout.Stop()` was called. -/
  timerStopped : Bool

/-- The events of a run. -/
inductive DecryptEvent (G Proof : Type) where
  /-- onet runs `HandlePartial` on a reply. -/
  | reply (msg : MessageSendPartial G Proof)
  /-- The service's goroutine reaches `<-p.Finished`. -/
  | receive
  /-- The `time.AfterFunc` timer fires. -/
  | timeout

variable {F G Proof : Type}

/-- The state just after `Start` returned. -/
def DecryptRun.start (d : Decrypt F G) : DecryptRun F G :=
  ⟨d, .starting, false, false⟩

/-- What a call of `finish(result)` does besides recording `result`: stop
the timer, hand `result` to a goroutine that waits in the receive or drop it
(the `default` branch), and `Done()`. -/
def DecryptRun.deliver (st : DecryptRun F G) (result : Bool) : DecryptRun F G :=
  { st with
    service := if st.service = .waiting then .received result else st.service
    done := true
    timerStopped := true }

/-- The result that a call of `HandlePartial` taking the root from `d` to
`d'` passed to `finish`, if it called it. -/
def newResult (d d' : Decrypt F G) : Option Bool :=
  (d'.finishes.drop d.finishes.length).head?

/-- The run after `HandlePartial` took the root to `d'`. -/
def DecryptRun.afterReply (st : DecryptRun F G) (d' : Decrypt F G) : DecryptRun F G :=
  match newResult st.root d' with
  | some r => { st with root := d' }.deliver r
  | none => { st with root := d' }

variable [Field F] [AddCommGroup G] [Module F G]
variable (S : Suite F G Proof)

/-- The steps of a run. -/
inductive DecryptRunStep : DecryptRun F G → DecryptEvent G Proof → DecryptRun F G → Prop
  | reply {st : DecryptRun F G} {msg : MessageSendPartial G Proof} {d' : Decrypt F G}
      (hlive : st.done = false) (h : handlePartial S st.root msg = .ok d') :
      DecryptRunStep st (.reply msg) (st.afterReply d')
  | receive {st : DecryptRun F G} (h : st.service = .starting) :
      DecryptRunStep st .receive { st with service := .waiting }
  | timeout {st : DecryptRun F G} (h : st.timerStopped = false) :
      DecryptRunStep st .timeout ({ st with root := st.root.finish false }.deliver false)

/-! ## What a reply does to the record of `finish` -/

omit [Field F] [AddCommGroup G] [Module F G] in
theorem finishes_prefix_countFailure (d : Decrypt F G) : d.finishes <+: d.countFailure.finishes := by
  rw [Decrypt.countFailure_eq]
  split_ifs
  · exact List.prefix_append _ _
  · exact List.prefix_refl _

theorem finishes_prefix_storePartials (d : Decrypt F G) (reply : MessageSendPartial G Proof) :
    d.finishes <+: (storePartials S d reply).finishes := by
  simp only [storePartials]
  split_ifs
  · exact List.prefix_append _ _
  · exact List.prefix_refl _

/-- A reply only appends to the results passed to `finish`. -/
theorem finishes_prefix_of_handlePartial {d d' : Decrypt F G} {reply : MessageSendPartial G Proof}
    (h : handlePartial S d reply = .ok d') : d.finishes <+: d'.finishes := by
  rcases handlePartial_eq_ok S h with ⟨rfl, -⟩ | ⟨-, -, rfl⟩
  · exact finishes_prefix_countFailure d
  · exact finishes_prefix_storePartials S d reply

theorem finishes_prefix_of_foldlM :
    ∀ (msgs : List (MessageSendPartial G Proof)) {d d' : Decrypt F G},
      msgs.foldlM (handlePartial S) d = .ok d' → d.finishes <+: d'.finishes
  | [], d, d', h => by
      cases h
      exact List.prefix_refl _
  | msg :: msgs, d, d', h => by
      rw [List.foldlM_cons] at h
      obtain ⟨d₁, h₁, hrest⟩ := Outcome.bind_eq_ok.mp h
      exact (finishes_prefix_of_handlePartial S h₁).trans (finishes_prefix_of_foldlM msgs hrest)

omit [Field F] [AddCommGroup G] [Module F G] in
theorem afterReply_of_same_finishes {st : DecryptRun F G} {d' : Decrypt F G}
    (h : d'.finishes = st.root.finishes) : st.afterReply d' = { st with root := d' } := by
  simp [DecryptRun.afterReply, newResult, h]

omit [Field F] [AddCommGroup G] [Module F G] in
theorem afterReply_of_finish {st : DecryptRun F G} {d' : Decrypt F G} {r : Bool}
    (h : d'.finishes = st.root.finishes ++ [r]) : st.afterReply d' = { st with root := d' }.deliver r := by
  simp [DecryptRun.afterReply, newResult, h]

/-- Replies that do not call `finish` run the root through their fold,
with the service and the timer as they were. -/
theorem run_replies_of_foldlM (svc : ServiceWait) :
    ∀ (msgs : List (MessageSendPartial G Proof)) (d d' : Decrypt F G),
      msgs.foldlM (handlePartial S) d = .ok d' → d'.finishes = d.finishes →
      Transition.Run (DecryptRunStep S) ⟨d, svc, false, false⟩ (msgs.map .reply) ⟨d', svc, false, false⟩
  | [], d, d', h, _ => by
      cases h
      exact Transition.Run.nil _
  | msg :: msgs, d, d', h, hfin => by
      rw [List.foldlM_cons] at h
      obtain ⟨d₁, h₁, hrest⟩ := Outcome.bind_eq_ok.mp h
      -- the finishes only grow, so neither part of the fold calls `finish`
      have hp₁ := finishes_prefix_of_handlePartial S h₁
      have hp₂ := finishes_prefix_of_foldlM S msgs hrest
      have hfin₁ : d₁.finishes = d.finishes := by
        rw [hfin] at hp₂
        exact (hp₁.eq_of_length (le_antisymm hp₁.length_le hp₂.length_le)).symm
      have hstep : DecryptRunStep S ⟨d, svc, false, false⟩ (.reply msg) ⟨d₁, svc, false, false⟩ := by
        have hst : DecryptRunStep S ⟨d, svc, false, false⟩ (.reply msg)
            ((⟨d, svc, false, false⟩ : DecryptRun F G).afterReply d₁) := DecryptRunStep.reply rfl h₁
        rwa [afterReply_of_same_finishes hfin₁] at hst
      exact Transition.Run.cons hstep (run_replies_of_foldlM svc msgs d₁ d' hrest (hfin.trans hfin₁.symm))

/-- Once `finish` was called with the service not yet in its receive, the
receive waits on a done instance whose timer is stopped: no event can
happen any more. -/
theorem no_step_of_done_waiting {st : DecryptRun F G} (hdone : st.done = true)
    (htimer : st.timerStopped = true) (hwait : st.service = .waiting) (l : DecryptEvent G Proof)
    (st' : DecryptRun F G) : ¬ DecryptRunStep S st l st' := by
  intro h
  cases h with
  | reply hlive _ => simp [hdone] at hlive
  | receive h => simp [hwait] at h
  | timeout h => simp [htimer] at h

/-- A done instance handles no reply. -/
theorem no_reply_step_of_done {st : DecryptRun F G} (hdone : st.done = true) (msg : MessageSendPartial G Proof)
    (st' : DecryptRun F G) : ¬ DecryptRunStep S st (.reply msg) st' := by
  intro h
  cases h with
  | reply hlive _ => simp [hdone] at hlive

/-- `Threshold - 1` honest replies that all arrive before the goroutine of
`Service.decrypt` reaches its receive make the root call `finish(true)`
while no one receives: the result is dropped, the instance is done, and the
service then waits in `<-p.Finished` with no event left that could send. -/
theorem decrypt_service_waits_forever_after_early_finish (hD : S.DLEQComplete) (d : Decrypt F G)
    (hinit : DecryptInit d) (hcs : d.EncryptedCBFSet ≠ []) (hT : 2 ≤ d.Threshold) (honest : List (ℕ × F))
    (hlen : (honest.length : ℤ) = d.Threshold - 1) (hnodup : (honest.map Prod.fst).Nodup) :
    ∃ st, Transition.Run (DecryptRunStep S) (DecryptRun.start d)
        ((honest.map fun h => (⟨handlePrompt S h.2 d.EncryptedCBFSet, h.1⟩ : MessageSendPartial G Proof)).map
          .reply ++ [.receive]) st ∧
      st.root.finishes = [true] ∧ st.done = true ∧ st.service = .waiting ∧
      ∀ l st', ¬ DecryptRunStep S st l st' := by
  obtain ⟨-, hpart, hfin⟩ := hinit
  set msgOf := fun h : ℕ × F => (⟨handlePrompt S h.2 d.EncryptedCBFSet, h.1⟩ : MessageSendPartial G Proof)
  -- all replies but the last stay below the threshold
  obtain ⟨init, last, rfl⟩ : ∃ init last, honest = init ++ [last] := by
    rcases List.eq_nil_or_concat honest with h | ⟨init, last, h⟩
    · subst h
      simp at hlen
      omega
    · exact ⟨init, last, h.trans (List.concat_eq_append ..)⟩
  have hnodupInit : (init.map Prod.fst).Nodup := by
    rw [List.map_append] at hnodup
    exact (List.nodup_append.mp hnodup).1
  have hbelow := foldlM_handlePrompt_below S hD hcs init d rfl hnodupInit
    (fun h _ => by rw [hpart]; exact AList.notMem_empty _)
    (by rw [hpart, AList.empty_entries, List.length_nil, Nat.zero_add]; simp at hlen; omega)
  set d₂ : Decrypt F G := { d with
    Partials := AList.insertList Prod.fst (fun h => (handlePrompt S h.2 d.EncryptedCBFSet).Partials) init
      d.Partials }
  -- the whole fold reaches the threshold, so the last reply calls `finish(true)`
  have hall := foldlM_handlePrompt_threshold S hD d hcs hpart hT (init ++ [last]) hlen hnodup
  rw [List.map_append, List.foldlM_append, hbelow, Outcome.ok_bind, List.map_singleton,
    List.foldlM_cons] at hall
  simp only [List.foldlM_nil, bind_pure] at hall
  have hinitRun := run_replies_of_foldlM S .starting (init.map msgOf) d d₂ hbelow rfl
  set d₃ : Decrypt F G := { d with
    Partials := (AList.insertList Prod.fst (fun h => (handlePrompt S h.2 d.EncryptedCBFSet).Partials)
      (init ++ [last]) d.Partials).insert d.Index (getPartials S d.Secret d.EncryptedCBFSet).1
    finishes := d.finishes ++ [true] } with hd₃
  have hlastStep : DecryptRunStep S ⟨d₂, .starting, false, false⟩ (.reply (msgOf last))
      ⟨d₃, .starting, true, true⟩ := by
    have hst : DecryptRunStep S ⟨d₂, .starting, false, false⟩ (.reply (msgOf last))
        ((⟨d₂, .starting, false, false⟩ : DecryptRun F G).afterReply d₃) := DecryptRunStep.reply rfl hall
    rwa [afterReply_of_finish (r := true) rfl] at hst
  have hreceive : DecryptRunStep S ⟨d₃, .starting, true, true⟩ .receive ⟨d₃, .waiting, true, true⟩ :=
    DecryptRunStep.receive rfl
  refine ⟨⟨d₃, .waiting, true, true⟩, ?_, by rw [hd₃, hfin]; rfl, rfl, rfl,
    no_step_of_done_waiting S rfl rfl rfl⟩
  rw [List.map_append, List.map_append, List.map_singleton, List.map_singleton, List.append_assoc,
    List.singleton_append]
  exact hinitRun.append (Transition.Run.cons hlastStep (Transition.Run.cons hreceive (Transition.Run.nil _)))

/-- In the suite on `ZMod 7`, on a roster of four with threshold three: the
conodes at `2` and `3` reply before the service reaches its receive, and
the service then waits forever. -/
theorem decrypt_service_waits_forever_zmod7 :
    ∃ st, Transition.Run (DecryptRunStep Suite.zmod7)
        (DecryptRun.start (⟨3, 0, 4, 0, 1, [⟨1, 2⟩], ∅, []⟩ : Decrypt (ZMod 7) (ZMod 7)))
        (([((2 : ℕ), (5 : ZMod 7)), (3, 6)].map fun h =>
          (⟨handlePrompt Suite.zmod7 h.2 [⟨1, 2⟩], h.1⟩ : MessageSendPartial (ZMod 7) (ZMod 7))).map
            .reply ++ [.receive]) st ∧
      st.root.finishes = [true] ∧ st.done = true ∧ st.service = .waiting ∧
      ∀ l st', ¬ DecryptRunStep Suite.zmod7 st l st' :=
  decrypt_service_waits_forever_after_early_finish Suite.zmod7 Suite.zmod7_dleqComplete _ ⟨rfl, rfl, rfl⟩
    (List.cons_ne_nil _ _) (by decide) _ (by decide) (by decide)

/-! ## Repeated refusals from one conode

`Failures` counts replies, not conodes: one conode that refuses
`len(Roster) - Threshold + 1` times trips the bound of `countFailure`. -/

/-- One conode that refuses `len(Roster) - Threshold + 1` times, while the
service waits in its receive, makes the root call `finish(false)` first: the
service receives `false`, and the instance is done.  `Threshold - 1` other
conodes then send valid partials: `HandlePartial` on them would store them
all and call `finish(true)`, but the done instance handles no more replies. -/
theorem handlePartials_repeated_refusal_finishes_false (hD : S.DLEQComplete) (d : Decrypt F G)
    (hinit : DecryptInit d) (hcs : d.EncryptedCBFSet ≠ []) (hT : 2 ≤ d.Threshold) (k : ℕ)
    (hk : (k : ℤ) = d.RosterSize - d.Threshold) (refusal : MessageSendPartial G Proof)
    (hrefusal : refusal.Partials = []) (honest : List (ℕ × F))
    (hhonest : (honest.length : ℤ) = d.Threshold - 1) (hnodup : (honest.map Prod.fst).Nodup) :
    ∃ st, Transition.Run (DecryptRunStep S) (DecryptRun.start d)
        (.receive :: (List.replicate (k + 1) refusal).map .reply) st ∧
      st.root.finishes = [false] ∧ st.service = .received false ∧ st.done = true ∧
      (∃ d', (honest.map fun h => (⟨handlePrompt S h.2 d.EncryptedCBFSet, h.1⟩ : MessageSendPartial G Proof)).foldlM
          (handlePartial S) st.root = .ok d' ∧ d'.finishes = [false, true]) ∧
      ∀ msg st', ¬ DecryptRunStep S st (.reply msg) st' := by
  obtain ⟨hfail, hpart, hfin⟩ := hinit
  -- the first `k` refusals stay within the bound and only count
  set d₁ : Decrypt F G := { d with Failures := k } with hd₁
  have hfirst : (List.replicate k refusal).foldlM (handlePartial S) d = .ok d₁ := by
    rw [foldlM_refusals S hrefusal k d (by rw [hfail]; push_cast; omega), hfail, Nat.zero_add]
  have hfirstRun := run_replies_of_foldlM S .waiting (List.replicate k refusal) d d₁ hfirst rfl
  -- the last one exceeds it and calls `finish(false)`, which the service receives
  set d₂ : Decrypt F G := { d with Failures := k + 1, finishes := [false] } with hd₂
  have hlast : handlePartial S d₁ refusal = .ok d₂ := by
    rw [handlePartial_of_empty S hrefusal, Decrypt.countFailure_of_lt _ (by simp only [hd₁]; push_cast; omega)]
    simp only [hd₁, hd₂, hfin, List.nil_append]
  have hlastStep : DecryptRunStep S ⟨d₁, .waiting, false, false⟩ (.reply refusal) ⟨d₂, .received false, true, true⟩ := by
    have hst : DecryptRunStep S ⟨d₁, .waiting, false, false⟩ (.reply refusal)
        ((⟨d₁, .waiting, false, false⟩ : DecryptRun F G).afterReply d₂) := DecryptRunStep.reply rfl hlast
    rwa [afterReply_of_finish (r := false) (by simp only [hd₁, hd₂, hfin, List.nil_append]),
      DecryptRun.deliver, if_pos rfl] at hst
  have hreceive : DecryptRunStep S (DecryptRun.start d) .receive ⟨d, .waiting, false, false⟩ :=
    DecryptRunStep.receive rfl
  -- from `d₂`, the honest replies would reach the threshold
  have hhonestRun := foldlM_handlePrompt_threshold S hD d₂ hcs hpart hT honest hhonest hnodup
  refine ⟨⟨d₂, .received false, true, true⟩, ?_, rfl, rfl, rfl, ⟨_, hhonestRun, rfl⟩,
    no_reply_step_of_done S rfl⟩
  rw [List.replicate_succ', List.map_append, List.map_singleton]
  exact Transition.Run.cons hreceive (hfirstRun.append (Transition.Run.cons hlastStep (Transition.Run.nil _)))

/-- In the suite on `ZMod 7`, on a roster of four with threshold three, with
the service in its receive: the conode at index `1` refuses twice, and the
service receives `false`; the replies of the conodes at `2` and `3` would
have made the root call `finish(true)`. -/
theorem handlePartials_repeated_refusal_zmod7 :
    ∃ st, Transition.Run (DecryptRunStep Suite.zmod7)
        (DecryptRun.start (⟨3, 0, 4, 0, 1, [⟨1, 2⟩], ∅, []⟩ : Decrypt (ZMod 7) (ZMod 7)))
        (.receive :: (List.replicate (1 + 1) (⟨⟨[], [], 0⟩, 1⟩ : MessageSendPartial (ZMod 7) (ZMod 7))).map .reply) st ∧
      st.root.finishes = [false] ∧ st.service = .received false ∧ st.done = true ∧
      (∃ d', ([((2 : ℕ), (5 : ZMod 7)), (3, 6)].map fun h =>
          (⟨handlePrompt Suite.zmod7 h.2 [⟨1, 2⟩], h.1⟩ : MessageSendPartial (ZMod 7) (ZMod 7))).foldlM
          (handlePartial Suite.zmod7) st.root = .ok d' ∧ d'.finishes = [false, true]) ∧
      ∀ msg st', ¬ DecryptRunStep Suite.zmod7 st (.reply msg) st' :=
  handlePartials_repeated_refusal_finishes_false Suite.zmod7 Suite.zmod7_dleqComplete _ ⟨rfl, rfl, rfl⟩
    (List.cons_ne_nil _ _) (by decide) 1 (by decide) _ rfl _ (by decide) (by decide)

end Decenarch
