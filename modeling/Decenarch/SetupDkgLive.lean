import Mathlib.Algebra.GroupWithZero.Nat
import Decenarch.SetupDkgSteps

/-!
# Every delivery order ends, with every node finished

Two halves of "no node blocks forever and nothing is left over".  First, no
run is infinite: a packet weighs more than all the packets that taking it
makes its node send (`netWeight_receive_lt`), whatever the state, so every
delivery lowers the weight of the network and a run from a state is no
longer than that weight.  Second, a reachable state from which no delivery
is possible is the end that `Dispatch` is written for: by the invariant,
a node that has not returned waits at a receive for which a packet is
pending, and a pending packet is in flight, so the network could deliver
it; hence every node has returned `nil` with a finished generator, and the
network is empty.
-/

namespace Decenarch

open RabinDkg RabinDkg.Record

variable {K : Type}

/-! ## A weight that every delivery lowers -/

section Weight

variable (n : ℕ)

/-- Secret commitments: the node that takes them sends at most the root's
`n - 1` packets of `WaitSetup`. -/
def commitWeight : ℕ := 2 * n + 1

/-- A response: its node may send its commitments to every node, and then
leave the loop. -/
def responseWeight : ℕ := n * commitWeight n + 2 * n + 1

/-- A deal: its node sends its response to every node. -/
def dealWeight : ℕ := n * responseWeight n + 2 * n + 1

/-- What a packet weighs: more than all the packets that its delivery makes
the node send, at whatever receive of `Dispatch` the node is. -/
def msgWeight : Msg K → ℕ
  | .startDeal ps _ => ps.length * dealWeight n + 2 * n + 1
  | .deal _ => dealWeight n
  | .response _ => responseWeight n
  | .secretCommit _ => commitWeight n
  | .waitSetup => 2
  | .waitReply _ => 1

/-- The weight of a list of packets in flight. -/
def netWeight (l : List (Packet K)) : ℕ := (l.map fun p => msgWeight n p.msg).sum

end Weight

section WeightLemmas

variable {n : ℕ}

@[simp] theorem netWeight_nil : netWeight n ([] : List (Packet K)) = 0 := rfl

@[simp] theorem netWeight_cons (p : Packet K) (l : List (Packet K)) :
    netWeight n (p :: l) = msgWeight n p.msg + netWeight n l := by
  simp [netWeight]

@[simp] theorem netWeight_append (l l' : List (Packet K)) :
    netWeight n (l ++ l') = netWeight n l + netWeight n l' := by
  simp [netWeight]

theorem netWeight_erase [DecidableEq K] {l : List (Packet K)} {p : Packet K} (hp : p ∈ l) :
    netWeight n (l.erase p) + msgWeight n p.msg = netWeight n l := by
  have h := ((List.perm_cons_erase hp).map fun p => msgWeight n p.msg).sum_eq
  unfold netWeight
  rw [h, List.map_cons, List.sum_cons]
  omega

theorem netWeight_fullBroadcast (hn : 0 < n) (m : Msg K) :
    netWeight n (fullBroadcast n m) = n * msgWeight n m := by
  rw [fullBroadcast, dkgNodes_eq hn, netWeight, List.map_map]
  show (List.map (fun _ => msgWeight n m) (List.range n)).sum = _
  rw [List.map_const', List.sum_replicate, List.length_range, Nat.nsmul_eq_mul]

theorem netWeight_waitSetups (l : List ℕ) :
    netWeight n (l.map fun c => (⟨c, .waitSetup⟩ : Packet K)) = 2 * l.length := by
  induction l with
  | nil => rfl
  | cons c l ih =>
      rw [List.map_cons, netWeight_cons, ih, List.length_cons]
      simp only [msgWeight]
      omega

end WeightLemmas

/-! ## What a delivery sends, by weight -/

section Sends

variable {n me : ℕ} {Gen : Type} (M : Methods K Gen)

/-- Leaving the loops of `Dispatch` sends at most the root's `WaitSetup`s. -/
theorem netWeight_afterSecretCommits (nd : DkgNode K Gen) :
    netWeight n (afterSecretCommits n M me nd).2 ≤ 2 * (n - 1) := by
  unfold afterSecretCommits
  split_ifs
  · rw [netWeight_waitSetups, length_childIndices]
  · simp
  · simp

theorem netWeight_enterSecretCommits (nd : DkgNode K Gen) (k : ℕ) :
    netWeight n (enterSecretCommits n M me nd k).2 ≤ 2 * (n - 1) := by
  unfold enterSecretCommits
  split_ifs
  · simp
  · exact netWeight_afterSecretCommits M nd

theorem netWeight_enterResponses (nd : DkgNode K Gen) (k : ℕ) :
    netWeight n (enterResponses n M me nd k).2 ≤ 2 * (n - 1) := by
  unfold enterResponses
  split_ifs
  · simp
  · exact netWeight_enterSecretCommits M nd 0

theorem netWeight_enterDeals (nd : DkgNode K Gen) (k : ℕ) :
    netWeight n (enterDeals n M me nd k).2 ≤ 2 * (n - 1) := by
  unfold enterDeals
  split_ifs
  · simp
  · exact netWeight_enterResponses M nd 0

/-- `allStartDeal`'s loop sends one deal per deal it is given, or fewer when
it panics. -/
theorem netWeight_sendDeals : ∀ l : List (ℕ × Deal),
    netWeight n (sendDeals n l : List (Packet K) × Bool).1 ≤ l.length * dealWeight n
  | [] => by simp [sendDeals]
  | (i, dd) :: rest => by
      have ih : netWeight n (sendDeals n rest : List (Packet K) × Bool).1 ≤ rest.length * dealWeight n :=
        netWeight_sendDeals rest
      rw [sendDeals]
      split
      · simp
      · rw [netWeight_cons, List.length_cons, Nat.succ_mul]
        simp only [msgWeight]
        omega

theorem netWeight_allDeal (hn : 0 < n) (nd : DkgNode K Gen) (D : Gen) (dd : Deal) :
    netWeight n (allDeal n M nd D dd).2.1 ≤ n * responseWeight n := by
  unfold allDeal
  rcases M.processDeal D dd with ⟨D', e | resp⟩
  · simp
  · rw [netWeight_fullBroadcast hn]
    rfl

theorem netWeight_allResponse (hn : 0 < n) (nd : DkgNode K Gen) (D : Gen) (resp : Response) :
    netWeight n (allResponse n M nd D resp).2.1 ≤ n * commitWeight n := by
  unfold allResponse
  rcases M.processResponse D resp with ⟨D', e | _ | j⟩
  · simp
  · dsimp only
    rcases M.secretCommits D' with ⟨D'', e | sc⟩
    · simp
    · dsimp only
      split_ifs
      · rw [netWeight_fullBroadcast hn]
        rfl
      · simp
  · simp

end Sends

section SendsRecord

variable [DecidableEq K] {n : ℕ} {key : ℕ → K} {me : ℕ}

/-- `allStartDeal` sends at most one deal per participant. -/
theorem netWeight_allStartDeal (nd : DkgNode K Record) (ps : List (Option K)) (t : ℕ) :
    netWeight n (allStartDeal n key Record.methods me nd ps t).2.1 ≤ ps.length * dealWeight n := by
  unfold allStartDeal
  rcases hD : (Record.methods : Methods K Record).newDistKeyGenerator (key me) ps t with e | D
  · simp
  · have hpart : D.participants = ps.length := by
      change Record.new (key me) ps t = .ok D at hD
      unfold Record.new at hD
      split_ifs at hD
      cases hD
      rfl
    have hsend := (netWeight_sendDeals (K := K) (n := n) D.dealList).trans
      (Nat.mul_le_mul_right _ ((length_dealList_le D).trans hpart.le))
    dsimp only [Record.methods, deals]
    rcases hs : sendDeals n D.dealList with ⟨out, _ | _⟩ <;> rw [hs] at hsend <;> exact hsend

/-- **A delivery sends less weight than it takes**, at whatever receive
the node is and whatever its state. -/
theorem netWeight_receive_lt (hn : 0 < n) {nd nd' : DkgNode K Record} {m : Msg K} {out : List (Packet K)}
    (h : receive n key Record.methods me nd m = some (nd', out)) : netWeight n out < msgWeight n m := by
  cases m with
  | startDeal ps t =>
      have hall : netWeight n (allStartDeal n key Record.methods me nd ps t).2.1 ≤ ps.length * dealWeight n :=
        netWeight_allStartDeal nd ps t
      rw [receive] at h
      split_ifs at h
      rcases hs : allStartDeal n key Record.methods me nd ps t with ⟨nd1, out1, r⟩
      rw [hs] at h hall
      dsimp only at hall
      have hd : netWeight n (enterDeals n Record.methods me nd1 0).2 ≤ 2 * (n - 1) := netWeight_enterDeals Record.methods nd1 0
      simp only [msgWeight]
      -- the deals, and what `Dispatch` sends as it goes on
      rcases r with (_ | e) | _ | _ <;> simp only [Option.some.injEq, Prod.mk.injEq] at h
      · split_ifs at h <;> obtain ⟨-, rfl⟩ := Prod.mk.inj h
        · omega
        · rw [netWeight_append]
          omega
      all_goals (obtain ⟨-, rfl⟩ := h; omega)
  | deal dd =>
      rw [receive] at h
      simp only [msgWeight]
      split at h
      · obtain ⟨-, rfl⟩ := Prod.mk.inj (Option.some.inj h)
        simp [dealWeight]
      · rename_i k D _ _
        have hall := netWeight_allDeal Record.methods hn nd D dd
        rcases hs : allDeal n Record.methods nd D dd with ⟨nd1, out1, r⟩
        rw [hs] at h hall
        dsimp only at hall
        have hd : netWeight n (enterDeals n Record.methods me nd1 (k + 1)).2 ≤ 2 * (n - 1) := netWeight_enterDeals Record.methods nd1 (k + 1)
        unfold dealWeight
        rcases r with _ | e <;> simp only [Option.some.injEq, Prod.mk.injEq] at h <;> obtain ⟨-, rfl⟩ := h
        · rw [netWeight_append]
          omega
        · omega
      · cases h
  | response r =>
      rw [receive] at h
      simp only [msgWeight]
      split at h
      · obtain ⟨-, rfl⟩ := Prod.mk.inj (Option.some.inj h)
        simp [responseWeight]
      · rename_i k D _ _
        have hall := netWeight_allResponse Record.methods hn nd D r
        rcases hs : allResponse n Record.methods nd D r with ⟨nd1, out1, res⟩
        rw [hs] at h hall
        dsimp only at hall
        have hd : netWeight n (enterResponses n Record.methods me nd1 (k + 1)).2 ≤ 2 * (n - 1) :=
          netWeight_enterResponses Record.methods nd1 (k + 1)
        unfold responseWeight
        rcases res with _ | e <;> simp only [Option.some.injEq] at h
        · obtain ⟨-, rfl⟩ := Prod.mk.inj h
          rw [netWeight_append]
          omega
        · split_ifs at h <;> obtain ⟨-, rfl⟩ := Prod.mk.inj h
          · rw [netWeight_append]
            omega
          · omega
      · cases h
  | secretCommit sc =>
      rw [receive] at h
      simp only [msgWeight]
      split at h
      · obtain ⟨-, rfl⟩ := Prod.mk.inj (Option.some.inj h)
        simp [commitWeight]
      · rename_i k D _ _
        rcases hs : allSecretCommit Record.methods nd D sc with ⟨nd1, res⟩
        rw [hs] at h
        unfold commitWeight
        rcases res with _ | e <;> simp only [Option.some.injEq] at h
        · have hd : netWeight n out ≤ 2 * (n - 1) := by
            have h' : netWeight n (enterSecretCommits n Record.methods me nd1 (k + 1)).2 ≤ 2 * (n - 1) :=
              netWeight_enterSecretCommits Record.methods nd1 (k + 1)
            rwa [h] at h'
          omega
        · obtain ⟨-, rfl⟩ := Prod.mk.inj h
          simp
      · cases h
  | waitSetup =>
      rw [receive] at h
      split_ifs at h
      obtain ⟨-, rfl⟩ := Prod.mk.inj (Option.some.inj h)
      simp [msgWeight]
  | waitReply c =>
      rw [receive] at h
      split_ifs at h <;> obtain ⟨-, rfl⟩ := Prod.mk.inj (Option.some.inj h) <;> simp [msgWeight]

end SendsRecord

/-! ## No infinite run -/

section Termination

variable [DecidableEq K] {n : ℕ} {key : ℕ → K} {W : Bool}

/-- **Every delivery lowers the weight of the network**, in any state. -/
theorem netWeight_step_lt (hn : 0 < n) {s s' : DkgSys K Record} {p : Packet K} (h : DkgStep n key Record.methods s p s') :
    netWeight n s'.net < netWeight n s.net := by
  obtain ⟨hp, hdel⟩ := h
  obtain ⟨nd', out, hr, rfl⟩ := deliver_eq_some.mp hdel
  have hlt := netWeight_receive_lt hn hr
  have herase := netWeight_erase (n := n) hp
  dsimp only
  rw [netWeight_append]
  omega

/-- A run from any state is no longer than the weight of its network. -/
theorem run_length_le (hn : 0 < n) {s s' : DkgSys K Record} {ls : List (Packet K)}
    (h : Transition.Run (DkgStep n key Record.methods) s ls s') : ls.length ≤ netWeight n s.net := by
  have hμ : ∀ t l t', DkgStep n key Record.methods t l t' → (fun u : DkgSys K Record => netWeight n u.net) t' <
      (fun u : DkgSys K Record => netWeight n u.net) t := fun _ _ _ hst => netWeight_step_lt hn hst
  have h' := Transition.Run.length_add_le hμ h
  omega

omit [DecidableEq K] in
/-- The weight of the network at the start: `StartDeal` to every node. -/
theorem netWeight_of_dkgInit (hn : 0 < n) {s : DkgSys K Record} (hs : DkgInit n key W s) :
    netWeight n s.net = n * (n * dealWeight n + 2 * n + 1) := by
  rw [net_of_dkgInit hn hs, netWeight_fullBroadcast hn]
  simp only [msgWeight, length_fullPublics]

end Termination

/-! ## A state with no possible delivery is the end -/

/-- The end the service waits for: nothing is in flight, and every node has
returned `nil` from `Dispatch` with a generator that holds every deal, every
response and every commitment, and reports `Finished()`. -/
def DkgDone {Gen : Type} (n : ℕ) (M : Methods K Gen) (view : Gen → Record) (s : DkgSys K Gen) : Prop :=
  s.net = [] ∧ ∀ q < n, (s.node q).pc = .returned none ∧ ∃ D, (s.node q).dkg = some D ∧
    (view D).received = Finset.range n ∧ Complete n (view D) ∧ (view D).commitments = Finset.range n ∧
    M.finished D = true

section Accept

variable {n : ℕ} {key : ℕ → K} {me : ℕ} {Gen : Type} {M : Methods K Gen} {nd : DkgNode K Gen}

/-- A packet in flight that its node takes gives a step. -/
theorem not_stuck_of_receive [DecidableEq K] {s : DkgSys K Gen} {p : Packet K} (hp : p ∈ s.net)
    {r : DkgNode K Gen × List (Packet K)} (hr : receive n key M p.dest (s.node p.dest) p.msg = some r) :
    ¬ Transition.Stuck (DkgStep n key M) s :=
  fun hstuck => hstuck p _ ⟨hp, by rw [deliver, hr]; rfl⟩

/-! Each receive of `Dispatch` takes any message of its kind. -/

theorem exists_receive_startDeal (hpc : nd.pc = .startDeal) (ps : List (Option K)) (t : ℕ) :
    ∃ r, receive n key M me nd (.startDeal ps t) = some r := by
  rw [receive, if_pos hpc]
  exact ⟨_, rfl⟩

theorem exists_receive_deal {k : ℕ} {D : Gen} (hpc : nd.pc = .deal k) (hD : nd.dkg = some D)
    (dd : Deal) : ∃ r, receive n key M me nd (.deal dd) = some r := by
  rw [receive, hpc, hD]
  exact ⟨_, rfl⟩

theorem exists_receive_response {k : ℕ} {D : Gen} (hpc : nd.pc = .response k)
    (hD : nd.dkg = some D) (r : Response) : ∃ r', receive n key M me nd (.response r) = some r' := by
  rw [receive, hpc, hD]
  exact ⟨_, rfl⟩

theorem exists_receive_secretCommit {k : ℕ} {D : Gen} (hpc : nd.pc = .secretCommit k)
    (hD : nd.dkg = some D) (sc : SecretCommits) : ∃ r, receive n key M me nd (.secretCommit sc) = some r := by
  rw [receive, hpc, hD]
  exact ⟨_, rfl⟩

theorem exists_receive_waitSetup (hpc : nd.pc = .waitSetup) : ∃ r, receive n key M me nd .waitSetup = some r := by
  rw [receive, if_pos hpc]
  exact ⟨_, rfl⟩

theorem exists_receive_waitReply (hpc : nd.pc = .waitReply) (c : ℕ) :
    ∃ r, receive n key M me nd (.waitReply c) = some r := by
  rw [receive, if_pos hpc]
  split_ifs
  · exact ⟨_, rfl⟩
  · exact ⟨_, rfl⟩

end Accept

section Past

variable {n : ℕ} {W : Bool} {q : ℕ} {nd : DkgNode K Record} {D : Record} {pc : DispatchPc}

/-- Past the loop over the deals, the generator holds every deal. -/
theorem StageFacts.received (hst : StageFacts n W q nd D pc) (hdeal : ∀ k, pc ≠ .deal k) :
    D.received = Finset.range n := by
  cases pc with
  | startDeal | panicked => exact hst.elim
  | deal k => exact absurd rfl (hdeal k)
  | response k | secretCommit k | returned err => exact hst.2.1
  | waitSetup | waitReply => exact hst.2.2.1

/-- Past the loop over the responses, the generator holds every response. -/
theorem StageFacts.complete (hst : StageFacts n W q nd D pc) (hdeal : ∀ k, pc ≠ .deal k)
    (hresp : ∀ k, pc ≠ .response k) : Complete n D := by
  cases pc with
  | startDeal | panicked => exact hst.elim
  | deal k => exact absurd rfl (hdeal k)
  | response k => exact absurd rfl (hresp k)
  | secretCommit k | returned err => exact hst.2.2.1
  | waitSetup | waitReply => exact hst.2.2.2.1

end Past

section Stuck

variable [DecidableEq K] {n : ℕ} {key : ℕ → K} {W : Bool} {s : DkgSys K Record}
  (h : DkgInv n key W s) (hstuck : Transition.Stuck (DkgStep n key Record.methods) s)
include h hstuck

/-- In a stuck state a pending packet, other than an own response, is in
flight and so not taken by its node. -/
theorem stuck_not_receive {p : Packet K} (hp : Pending n key W s.node p) (hown : p.isOwnResponse = false) :
    ¬ ∃ r, receive n key Record.methods p.dest (s.node p.dest) p.msg = some r :=
  fun ⟨_, hr⟩ => not_stuck_of_receive (h.net.mem p hp hown) hr hstuck

theorem stuck_started {q : ℕ} (hq : q < n) : (s.node q).pc ≠ .startDeal := fun hpc => by
  exact stuck_not_receive h hstuck (p := ⟨q, .startDeal (fullPublics n key) (dkgThreshold n)⟩)
    ⟨hq, rfl, rfl, hpc⟩ rfl (exists_receive_startDeal hpc _ _)

/-- No node waits for a deal: the deal it lacks is in flight. -/
theorem stuck_not_deal {q : ℕ} (hq : q < n) (k : ℕ) : (s.node q).pc ≠ .deal k := fun hpc => by
  obtain ⟨D, hD, hgen, -, hst, -⟩ := (h.node q hq).gen (stuck_started h hstuck hq)
  rw [hpc] at hst
  obtain ⟨hk, hcard, -, -⟩ := hst
  obtain ⟨j, hj, hjr⟩ := Finset.exists_mem_notMem_of_card_lt_card
    (show D.received.card < (Finset.range n).card by rw [Finset.card_range, hcard]; omega)
  have hjq : j ≠ q := fun hjq => hjr (hjq ▸ hgen.self_mem)
  have hjn := Finset.mem_range.mp hj
  refine stuck_not_receive h hstuck (p := ⟨q, .deal ⟨j, q⟩⟩)
    ⟨hq, rfl, hjn, hjq, stuck_started h hstuck hjn, ?_⟩ rfl (exists_receive_deal hpc hD _)
  rw [DkgNode.dealt_of_dkg hD]
  simpa using hjr

theorem stuck_received {q : ℕ} (hq : q < n) {D : Record} (hD : (s.node q).dkg = some D) :
    D.received = Finset.range n := by
  obtain ⟨D', hD', -, -, hst, -⟩ := (h.node q hq).gen (stuck_started h hstuck hq)
  rw [hD, Option.some.injEq] at hD'
  subst hD'
  exact hst.received (stuck_not_deal h hstuck hq)

/-- Every node has processed every deal, so every response has been sent. -/
theorem stuck_sent : sentResponses n s.node = (Finset.range n).offDiag := by
  refine Finset.filter_true_of_mem fun dv hdv => ?_
  obtain ⟨hd, hv, -⟩ := Finset.mem_offDiag.mp hdv
  have hv' := Finset.mem_range.mp hv
  obtain ⟨D, hD, -⟩ := (h.node dv.2 hv').gen (stuck_started h hstuck hv')
  rw [DkgNode.dealt_of_dkg hD, stuck_received h hstuck hv' hD]
  simpa using hd

/-- No node waits for a response: the count leaves one in flight to it. -/
theorem stuck_not_response {q : ℕ} (hq : q < n) (k : ℕ) : (s.node q).pc ≠ .response k := fun hpc => by
  obtain ⟨D, hD, -, -, hst, -⟩ := (h.node q hq).gen (stuck_started h hstuck hq)
  rw [hpc] at hst
  have hk : k < n * (n - 1) := hst.1
  have hcount := h.net.count q hq
  rw [hpc, stuck_sent h hstuck, Finset.offDiag_card, Finset.card_range, ← Nat.mul_sub_one] at hcount
  have hpos : 0 < s.net.countP (Packet.isResponseTo q) := by
    simp only [respConsumed] at hcount
    omega
  obtain ⟨⟨q', m⟩, hp, hpr⟩ := List.countP_pos_iff.mp hpos
  cases m <;> simp only [Packet.isResponseTo, Bool.false_eq_true, decide_eq_true_eq] at hpr
  subst hpr
  rename_i r
  obtain ⟨r', hr'⟩ : ∃ r', receive n key Record.methods q' (s.node q') (.response r) = some r' :=
    exists_receive_response hpc hD r
  exact not_stuck_of_receive hp hr' hstuck

theorem stuck_complete {q : ℕ} (hq : q < n) {D : Record} (hD : (s.node q).dkg = some D) :
    Complete n D := by
  obtain ⟨D', hD', -, -, hst, -⟩ := (h.node q hq).gen (stuck_started h hstuck hq)
  rw [hD, Option.some.injEq] at hD'
  subst hD'
  exact hst.complete (stuck_not_deal h hstuck hq) (stuck_not_response h hstuck hq)

/-- Every node's own deal is certified, so it has sent its commitments. -/
theorem stuck_commit {q : ℕ} (hq : q < n) : (s.node q).commit = true := by
  obtain ⟨D, hD, hgen, -, -, hcert⟩ := (h.node q hq).gen (stuck_started h hstuck hq)
  exact hcert.mpr fun v hv => stuck_complete h hstuck hq hD q hq v (hgen.participants ▸ hv)

/-- No node waits for commitments: those it lacks are in flight. -/
theorem stuck_not_secretCommit {q : ℕ} (hq : q < n) (k : ℕ) : (s.node q).pc ≠ .secretCommit k := fun hpc => by
  obtain ⟨D, hD, -, -, hst, -⟩ := (h.node q hq).gen (stuck_started h hstuck hq)
  rw [hpc] at hst
  obtain ⟨hk, -, -, hcard⟩ := hst
  obtain ⟨j, hj, hjc⟩ := Finset.exists_mem_notMem_of_card_lt_card
    (show D.commitments.card < (Finset.range n).card by rw [Finset.card_range, hcard]; exact hk)
  have hjn := Finset.mem_range.mp hj
  refine stuck_not_receive h hstuck (p := ⟨q, .secretCommit ⟨j⟩⟩)
    ⟨hq, hjn, stuck_commit h hstuck hjn, ?_⟩ rfl (exists_receive_secretCommit hpc hD _)
  rw [DkgNode.committed_of_dkg hD]
  simpa using hjc

/-- Every node is past the loops of `Dispatch`. -/
theorem stuck_past {q : ℕ} (hq : q < n) :
    (s.node q).pc = .waitSetup ∨ (s.node q).pc = .waitReply ∨ (s.node q).pc = .returned none := by
  obtain ⟨D, -, -, -, hst, -⟩ := (h.node q hq).gen (stuck_started h hstuck hq)
  rcases hpc : (s.node q).pc with _ | k | k | k | _ | _ | err | _ <;> rw [hpc] at hst
  · exact hst.elim
  · exact absurd hpc (stuck_not_deal h hstuck hq k)
  · exact absurd hpc (stuck_not_response h hstuck hq k)
  · exact absurd hpc (stuck_not_secretCommit h hstuck hq k)
  · exact Or.inl rfl
  · exact Or.inr (Or.inl rfl)
  · rw [hst.1]
    exact Or.inr (Or.inr rfl)
  · exact hst.elim

/-- No child waits for `WaitSetup`: the root is past its loops, so it has
sent it. -/
theorem stuck_not_waitSetup {q : ℕ} (hq : q < n) : (s.node q).pc ≠ .waitSetup := fun hpc => by
  obtain ⟨D, -, -, -, hst, -⟩ := (h.node q hq).gen (stuck_started h hstuck hq)
  rw [hpc] at hst
  obtain ⟨hW, hq0, -⟩ := hst
  have h0 : 0 < n := by omega
  have hroot : RootPastCommits s.node := by
    rcases stuck_past h hstuck h0 with h' | h' | h'
    · obtain ⟨D0, -, -, -, hst0, -⟩ := (h.node 0 h0).gen (stuck_started h hstuck h0)
      rw [h'] at hst0
      exact absurd rfl hst0.2.1
    · exact Or.inl h'
    · exact Or.inr h'
  exact stuck_not_receive h hstuck (p := ⟨q, .waitSetup⟩)
    ⟨hW, hq0, hq, hroot, by rw [hpc]; exact DispatchPc.noConfusion⟩ rfl (exists_receive_waitSetup hpc)

theorem stuck_child_returned {c : ℕ} (hc0 : c ≠ 0) (hcn : c < n) : (s.node c).pc = .returned none := by
  rcases stuck_past h hstuck hcn with h' | h' | h'
  · exact absurd h' (stuck_not_waitSetup h hstuck hcn)
  · obtain ⟨D, -, -, -, hst, -⟩ := (h.node c hcn).gen (stuck_started h hstuck hcn)
    rw [h'] at hst
    exact absurd hst.2.1 hc0
  · exact h'

/-- The root does not wait for a `WaitReply`: a child it has not heard from
has returned and its reply is in flight. -/
theorem stuck_root_not_waitReply (hn : 0 < n) : (s.node 0).pc ≠ .waitReply := fun hpc => by
  obtain ⟨D, -, -, -, hst, -⟩ := (h.node 0 hn).gen (stuck_started h hstuck hn)
  rw [hpc] at hst
  obtain ⟨hW, -, -, -, -, hlen⟩ := hst
  obtain ⟨c, hc, hcq⟩ := Finset.exists_mem_notMem_of_card_lt_card
    (show (s.node 0).waitReplies.toFinset.card < ((Finset.range n).erase 0).card by
      rw [Finset.card_erase_of_mem (Finset.mem_range.mpr hn), Finset.card_range]
      exact (List.toFinset_card_le _).trans_lt hlen)
  obtain ⟨hc0, hcn⟩ := Finset.mem_erase.mp hc
  have hcn' := Finset.mem_range.mp hcn
  exact stuck_not_receive h hstuck (p := ⟨0, .waitReply c⟩)
    ⟨rfl, hW, hc0, hcn', stuck_child_returned h hstuck hc0 hcn', by simpa using hcq,
      by rw [hpc]; exact DispatchPc.noConfusion⟩ rfl (exists_receive_waitReply hpc c)

/-- **Every node has returned `nil` from `Dispatch`.** -/
theorem stuck_returned {q : ℕ} (hq : q < n) : (s.node q).pc = .returned none := by
  rcases stuck_past h hstuck hq with h' | h' | h'
  · exact absurd h' (stuck_not_waitSetup h hstuck hq)
  · obtain ⟨D, -, -, -, hst, -⟩ := (h.node q hq).gen (stuck_started h hstuck hq)
    rw [h'] at hst
    obtain rfl := hst.2.1
    exact absurd h' (stuck_root_not_waitReply h hstuck hq)
  · exact h'

/-- **Nothing is left in flight**: every pending packet has been taken. -/
theorem stuck_net_nil : s.net = [] := by
  refine List.eq_nil_iff_forall_not_mem.mpr fun p hp => ?_
  have hpend := h.net.pending p hp
  obtain ⟨q, m⟩ := p
  cases m with
  | startDeal ps t => exact stuck_started h hstuck hpend.1 hpend.2.2.2
  | deal dd =>
      obtain ⟨hq, -, hd, -, -, hdl⟩ := hpend
      obtain ⟨D, hD, -⟩ := (h.node q hq).gen (stuck_started h hstuck hq)
      rw [DkgNode.dealt_of_dkg hD, stuck_received h hstuck hq hD] at hdl
      simp [hd] at hdl
  | response r =>
      -- every response to `q` has been taken: the count leaves none in flight
      have hq := hpend.1
      have hcount := h.net.count q hq
      rw [stuck_returned h hstuck hq] at hcount
      have hle := card_sentResponses_le (n := n) s.node
      have hpos : 0 < s.net.countP (Packet.isResponseTo q) :=
        List.countP_pos_iff.mpr ⟨_, hp, by simp [Packet.isResponseTo]⟩
      simp only [respConsumed] at hcount
      omega
  | secretCommit sc =>
      obtain ⟨hq, hj, -, hcm⟩ := hpend
      obtain ⟨D, hD, -, -, hst, -⟩ := (h.node q hq).gen (stuck_started h hstuck hq)
      rw [stuck_returned h hstuck hq] at hst
      rw [DkgNode.committed_of_dkg hD, hst.2.2.2] at hcm
      simp [hj] at hcm
  | waitSetup => exact hpend.2.2.2.2 (stuck_returned h hstuck hpend.2.2.1)
  | waitReply c =>
      obtain ⟨rfl, -, -, hcn, -, -, hrd⟩ := hpend
      exact hrd (stuck_returned h hstuck (by omega))

/-- **A stuck state is the end.** -/
theorem dkgDone_of_stuck : DkgDone n Record.methods id s := by
  refine ⟨stuck_net_nil h hstuck, fun q hq => ⟨stuck_returned h hstuck hq, ?_⟩⟩
  obtain ⟨D, hD, hgen, -, hst, -⟩ := (h.node q hq).gen (stuck_started h hstuck hq)
  rw [stuck_returned h hstuck hq] at hst
  obtain ⟨-, hrecv, hcompl, hcomm⟩ := hst
  exact ⟨D, hD, hrecv, hcompl, hcomm, finished_of_stage hgen hcompl hcomm⟩

end Stuck

/-! ## Every order of delivery -/

section Protocol

variable [DecidableEq K] {n : ℕ} {key : ℕ → K} {W : Bool}

omit [DecidableEq K] in
/-- A deal in flight goes to the participant it was produced for. -/
theorem recipient_of_deal {s : DkgSys K Record} (h : DkgInv n key W s) {p : Packet K} (hp : p ∈ s.net)
    {dd : Deal} (hm : p.msg = .deal dd) : dd.recipient = p.dest := by
  obtain ⟨q, m⟩ := p
  dsimp only at hm
  subst hm
  exact (h.net.pending _ hp).2.1

/-- From every reachable state some order of delivery reaches the end. -/
theorem exists_run_dkgDone (hn : 2 ≤ n) (hkey : ∀ i < n, ∀ j < n, key i = key j → i = j) {s : DkgSys K Record}
    (hs : Transition.Reachable (DkgInit n key W) (DkgStep n key Record.methods) s) :
    ∃ ls s', Transition.Run (DkgStep n key Record.methods) s ls s' ∧ DkgDone n Record.methods id s' := by
  obtain ⟨ls, s', hr, hstuck⟩ := Transition.exists_run_stuck
    (fun t l t' (hst : DkgStep n key Record.methods t l t') => netWeight_step_lt (by omega) hst) s
  exact ⟨ls, s', hr, dkgDone_of_stuck (dkgInv_of_reachable hn hkey (hr.reachable hs)) hstuck⟩

end Protocol

end Decenarch
