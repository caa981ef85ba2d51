import Decenarch.SetupDkgRun

/-!
# Every step of a DKG setup run keeps the invariant

For each kind of message, what `receive` does with it at the receive of
`Dispatch` that waits for it (`receive_startDeal` and the others), given what
the invariant says of the node: which handler succeeds, what the generator
records, where the loops of `Dispatch` go next and what is sent.  From these,
one lemma per kind shows that delivering a packet of that kind keeps
`DkgInv`: the pending packets change exactly by the packet taken and the
packets sent, and the node that took it moves one receive on.
-/

namespace Decenarch

open RabinDkg RabinDkg.Record

variable {K : Type}

/-! ## The loops of `Dispatch` -/

section Enter

variable {Gen : Type} {M : Methods K Gen} {n me : ℕ} {nd : DkgNode K Gen} (hlen : nd.publics.length = n)
include hlen

theorem enterSecretCommits_eq (k : ℕ) :
    enterSecretCommits n M me nd k =
      if k < n then ({ nd with pc := .secretCommit k }, []) else afterSecretCommits n M me nd := by
  rw [enterSecretCommits, hlen]

theorem enterResponses_eq (hn : 0 < n) (k : ℕ) :
    enterResponses n M me nd k =
      ({ nd with pc := if k < n * (n - 1) then .response k else .secretCommit 0 }, []) := by
  rw [enterResponses, hlen]
  split_ifs with hk
  · rfl
  · rw [enterSecretCommits_eq hlen, if_pos hn]

theorem enterDeals_eq (hn : 2 ≤ n) (k : ℕ) :
    enterDeals n M me nd k = ({ nd with pc := if k < n - 1 then .deal k else .response 0 }, []) := by
  rw [enterDeals, hlen]
  split_ifs with hk
  · rfl
  · rw [enterResponses_eq hlen (by omega), if_pos (Nat.mul_pos (by omega) (by omega))]

end Enter

theorem finishDispatch_of_finished {Gen : Type} {M : Methods K Gen} {nd : DkgNode K Gen} {D : Gen}
    (hD : nd.dkg = some D) (hf : M.finished D = true) : finishDispatch M nd = { nd with pc := .returned none } := by
  rw [finishDispatch, hD]
  dsimp only
  rw [if_pos hf]

/-- Where `Dispatch` goes after the `k + 1`-th secret commitments, and what
it sends: on to the next, or, after the last, to `WaitReply` at the root,
which sends `WaitSetup` to its children, and to `WaitSetup` at a child when
`o.Wait`, and to the end otherwise. -/
inductive CommitExit (n me k : ℕ) (wait : Bool) (pc : DispatchPc) (out : List (Packet K)) : Prop
  | next : k + 1 < n → pc = .secretCommit (k + 1) → out = [] → CommitExit n me k wait pc out
  | root : k + 1 = n → wait = true → me = 0 → pc = .waitReply →
      out = (oneLevelRosterTree n).childIndices.map (fun c => ⟨c, .waitSetup⟩) → CommitExit n me k wait pc out
  | child : k + 1 = n → wait = true → me ≠ 0 → pc = .waitSetup → out = [] → CommitExit n me k wait pc out
  | done : k + 1 = n → wait = false → pc = .returned none → out = [] → CommitExit n me k wait pc out

namespace CommitExit

variable {n me k : ℕ} {wait : Bool} {pc : DispatchPc} {out : List (Packet K)}

theorem pc_ne_startDeal (h : CommitExit n me k wait pc out) : pc ≠ .startDeal := by
  rcases h with ⟨-, rfl, -⟩ | ⟨-, -, -, rfl, -⟩ | ⟨-, -, -, rfl, -⟩ | ⟨-, -, rfl, -⟩ <;>
    exact DispatchPc.noConfusion

/-- Only without `o.Wait` does the node return after its commitments. -/
theorem pc_ne_returned (h : CommitExit n me k wait pc out) (hw : wait = true) : pc ≠ .returned none := by
  rcases h with ⟨-, rfl, -⟩ | ⟨-, -, -, rfl, -⟩ | ⟨-, -, -, rfl, -⟩ | ⟨-, hw', -, -⟩
  · exact DispatchPc.noConfusion
  · exact DispatchPc.noConfusion
  · exact DispatchPc.noConfusion
  · rw [hw] at hw'
    cases hw'

/-- Every way out of the loop has taken every response. -/
theorem respConsumed_eq (h : CommitExit n me k wait pc out) :
    respConsumed n pc = respConsumed n (.secretCommit k) := by
  rcases h with ⟨-, rfl, -⟩ | ⟨-, -, -, rfl, -⟩ | ⟨-, -, -, rfl, -⟩ | ⟨-, -, rfl, -⟩ <;> rfl

/-- The packets sent: the root's `WaitSetup` to each child, after the last
commitments and with `o.Wait`. -/
theorem mem_out (h : CommitExit n me k wait pc out) {p : Packet K} (hp : p ∈ out) :
    me = 0 ∧ wait = true ∧ pc = .waitReply ∧ ∃ c, c ≠ 0 ∧ c < n ∧ p = ⟨c, .waitSetup⟩ := by
  rcases h with ⟨-, -, rfl⟩ | ⟨-, hw, hme, hpc, rfl⟩ | ⟨-, -, -, -, rfl⟩ | ⟨-, -, -, rfl⟩
  · cases hp
  · obtain ⟨c, hc, rfl⟩ := List.mem_map.mp hp
    obtain ⟨hc0, hcn⟩ := mem_childIndices.mp hc
    exact ⟨hme, hw, hpc, c, hc0, hcn, rfl⟩
  · cases hp
  · cases hp

theorem nodup_out (h : CommitExit n me k wait pc out) : out.Nodup := by
  rcases h with ⟨-, -, rfl⟩ | ⟨-, -, -, -, rfl⟩ | ⟨-, -, -, -, rfl⟩ | ⟨-, -, -, rfl⟩
  · exact List.nodup_nil
  · rw [childIndices_oneLevelTree, List.map_map]
    exact List.nodup_range.map fun a b hab => by simpa using hab
  · exact List.nodup_nil
  · exact List.nodup_nil

theorem countP_isResponseTo (h : CommitExit n me k wait pc out) (q : ℕ) :
    out.countP (Packet.isResponseTo q) = 0 := by
  rw [List.countP_eq_zero]
  intro p hp
  obtain ⟨-, -, -, c, -, -, rfl⟩ := h.mem_out hp
  simp [Packet.isResponseTo]

/-- The exit is fixed by where the loop is, the node and `o.Wait`. -/
theorem unique {pc' : DispatchPc} {out' : List (Packet K)} (h : CommitExit n me k wait pc out)
    (h' : CommitExit n me k wait pc' out') : pc = pc' ∧ out = out' := by
  rcases h with ⟨hk, rfl, rfl⟩ | ⟨hk, hw, hme, rfl, rfl⟩ | ⟨hk, hw, hme, rfl, rfl⟩ | ⟨hk, hw, rfl, rfl⟩ <;>
    rcases h' with ⟨hk', rfl, rfl⟩ | ⟨hk', hw', hme', rfl, rfl⟩ | ⟨hk', hw', hme', rfl, rfl⟩ | ⟨hk', hw', rfl, rfl⟩ <;>
    first
      | exact ⟨rfl, rfl⟩
      | omega
      | exact absurd hme hme'
      | exact absurd hme' hme
      | (rw [hw] at hw'; cases hw')

end CommitExit

/-- `enterSecretCommits` after the `k + 1`-th secret commitments: only the
place of `Dispatch` changes, to one of the exits of `CommitExit`. -/
theorem enterSecretCommits_cases {Gen : Type} {M : Methods K Gen} {n me k : ℕ} {nd nd' : DkgNode K Gen}
    {out : List (Packet K)} {D : Gen} (hlen : nd.publics.length = n) (hD : nd.dkg = some D) (hk : k < n)
    (hfin : k + 1 = n → M.finished D = true) (h : enterSecretCommits n M me nd (k + 1) = (nd', out)) :
    nd' = { nd with pc := nd'.pc } ∧ CommitExit n me k nd.wait nd'.pc out := by
  rw [enterSecretCommits_eq hlen] at h
  split_ifs at h with hk1
  · obtain ⟨rfl, rfl⟩ := Prod.mk.inj h
    exact ⟨rfl, .next hk1 rfl rfl⟩
  have hkn : k + 1 = n := by omega
  rw [afterSecretCommits, rosterIndex_oneLevelTree] at h
  split_ifs at h with hw hme
  · obtain ⟨rfl, rfl⟩ := Prod.mk.inj h
    exact ⟨rfl, .root hkn hw hme rfl rfl⟩
  · obtain ⟨rfl, rfl⟩ := Prod.mk.inj h
    exact ⟨rfl, .child hkn hw hme rfl rfl⟩
  · obtain ⟨rfl, rfl⟩ := Prod.mk.inj h
    rw [finishDispatch_of_finished hD (hfin hkn)]
    exact ⟨rfl, .done hkn (by simpa using hw) rfl rfl⟩

/-! ## What `receive` does with each kind of message

First for any library, from what its methods return; then on the bookkeeping
machine, from what the invariant says of the node. -/

section Receive

variable {n : ℕ} {key : ℕ → K} {me : ℕ} {Gen : Type} {M : Methods K Gen} {nd : DkgNode K Gen}

/-- `allStartDeal`'s loop sends the deal for participant `i` to `o.nodes[i]`,
which on the one-level tree is the server at roster index `i`. -/
theorem sendDeals_of_lt (hn : 0 < n) :
    ∀ l : List (ℕ × Deal), (∀ x ∈ l, x.1 < n) → sendDeals n l = (l.map fun x => (⟨x.1, .deal x.2⟩ : Packet K), true)
  | [], _ => rfl
  | (i, dd) :: l, hl => by
      rw [List.map_cons, sendDeals, dkgNodes_eq hn, List.getElem?_range (hl (i, dd) List.mem_cons_self)]
      dsimp only
      rw [sendDeals_of_lt hn l (fun x hx => hl x (List.mem_cons_of_mem _ hx))]

/-- `StartDeal` at the first receive, when `NewDistKeyGenerator` and `Deals`
succeed with deals for nodes of the tree: the deals are sent and `Dispatch`
waits for the first deal. -/
theorem receive_startDeal_of_deals (hn : 2 ≤ n) (hpc : nd.pc = .startDeal) {ps : List (Option K)} {t : ℕ}
    (hps : ps.length = n) {D D' : Gen} {l : List (ℕ × Deal)}
    (hnew : M.newDistKeyGenerator (key me) ps t = .ok D) (hdeals : M.deals D = (D', .ok l))
    (hl : ∀ x ∈ l, x.1 < n) :
    receive n key M me nd (.startDeal ps t) =
      some ({ nd with pc := .deal 0, dkg := some D', publics := ps }, l.map fun x => ⟨x.1, .deal x.2⟩) := by
  have hall : allStartDeal n key M me nd ps t =
      ({ nd with dkg := some D', publics := ps }, l.map fun x => ⟨x.1, .deal x.2⟩, .ok none) := by
    rw [allStartDeal, hnew]
    dsimp only
    rw [hdeals]
    dsimp only
    rw [sendDeals_of_lt (by omega) l hl]
  have hne : ps ≠ [] := by
    rw [← List.length_pos_iff, hps]
    omega
  rw [receive, if_pos hpc, hall]
  dsimp only
  rw [if_neg hne, enterDeals, if_pos (by rw [hps]; omega)]
  dsimp only
  rw [List.append_nil]

/-- A deal that `ProcessDeal` accepts: the response is broadcast, and the
loop goes on. -/
theorem receive_deal_of_processDeal {k : ℕ} {D D' : Gen} {dd : Deal} {resp : Response} (hn : 2 ≤ n)
    (hpc : nd.pc = .deal k) (hD : nd.dkg = some D) (hlen : nd.publics.length = n)
    (hM : M.processDeal D dd = (D', .ok resp)) :
    receive n key M me nd (.deal dd) =
      some ({ nd with pc := if k + 1 < n - 1 then .deal (k + 1) else .response 0, dkg := some D' },
        fullBroadcast n (.response resp)) := by
  rw [receive, hpc, hD]
  dsimp only
  rw [allDeal, hM]
  dsimp only
  rw [enterDeals_eq _ hn, List.append_nil]
  exact hlen

/-- A response that `ProcessResponse` refuses with an error `Dispatch` lets
pass: the loop goes on. -/
theorem receive_response_of_tolerated {k : ℕ} {D D' : Gen} {r : Response} {e : String} (hn : 0 < n)
    (hpc : nd.pc = .response k) (hD : nd.dkg = some D) (hlen : nd.publics.length = n)
    (hM : M.processResponse D r = (D', .error e)) (htol : toleratedError e) :
    receive n key M me nd (.response r) =
      some ({ nd with pc := if k + 1 < n * (n - 1) then .response (k + 1) else .secretCommit 0, dkg := some D' },
        []) := by
  rw [receive, hpc, hD]
  dsimp only
  rw [allResponse, hM]
  dsimp only
  rw [if_pos htol, enterResponses_eq _ hn, List.append_nil]
  exact hlen

/-- A response that `ProcessResponse` accepts, after which `SecretCommits`
succeeds: the commitments are broadcast unless `o.commit` is set already. -/
theorem receive_response_of_secretCommits {k : ℕ} {D D' D'' : Gen} {r : Response} {sc : SecretCommits}
    (hn : 0 < n) (hpc : nd.pc = .response k) (hD : nd.dkg = some D) (hlen : nd.publics.length = n)
    (hM : M.processResponse D r = (D', .ok none)) (hsc : M.secretCommits D' = (D'', .ok sc)) :
    receive n key M me nd (.response r) =
      some ({ nd with
          pc := if k + 1 < n * (n - 1) then .response (k + 1) else .secretCommit 0
          dkg := some D''
          commit := true },
        if nd.commit = false then fullBroadcast n (.secretCommit sc) else []) := by
  obtain ⟨pc, dkg, publics, commit, wait, replies⟩ := nd
  cases hpc
  cases hD
  rw [receive]
  dsimp only
  rw [allResponse, hM]
  dsimp only
  rw [hsc]
  dsimp only
  -- `o.commit` is set, and the commitments sent, once
  cases commit
  · rw [if_pos rfl]
    dsimp only
    rw [enterResponses_eq _ hn, if_pos rfl, List.append_nil]
    exact hlen
  · rw [if_neg (show true ≠ false by decide)]
    dsimp only
    rw [enterResponses_eq _ hn, if_neg (show true ≠ false by decide), List.append_nil]
    exact hlen

/-- A response that `ProcessResponse` accepts while the own deal is not
certified: `SecretCommits` fails with an error `Dispatch` lets pass. -/
theorem receive_response_of_uncertified {k : ℕ} {D D' D'' : Gen} {r : Response} (hn : 0 < n)
    (hpc : nd.pc = .response k) (hD : nd.dkg = some D) (hlen : nd.publics.length = n)
    (hM : M.processResponse D r = (D', .ok none))
    (hsc : M.secretCommits D' = (D'', .error "dkg: can't give SecretCommits if deal not certified")) :
    receive n key M me nd (.response r) =
      some ({ nd with pc := if k + 1 < n * (n - 1) then .response (k + 1) else .secretCommit 0, dkg := some D'' },
        []) := by
  have htol : toleratedError "dkg: can't give SecretCommits if deal not certified" := Or.inr rfl
  rw [receive, hpc, hD]
  dsimp only
  rw [allResponse, hM]
  dsimp only
  rw [hsc]
  dsimp only
  rw [if_pos htol, enterResponses_eq _ hn, List.append_nil]
  exact hlen

/-- Secret commitments that `ProcessSecretCommits` accepts: the loop goes on. -/
theorem receive_secretCommit_of_process {k : ℕ} {D D' : Gen} {sc : SecretCommits}
    {c : Option ComplaintCommits} (hpc : nd.pc = .secretCommit k) (hD : nd.dkg = some D)
    (hM : M.processSecretCommits D sc = (D', .ok c)) :
    receive n key M me nd (.secretCommit sc) =
      some (enterSecretCommits n M me { nd with dkg := some D' } (k + 1)) := by
  rw [receive, hpc, hD]
  dsimp only
  rw [allSecretCommit, hM]
  rfl

theorem receive_waitSetup (hpc : nd.pc = .waitSetup) :
    receive n key M me nd .waitSetup = some (finishDispatch M nd, [⟨0, .waitReply me⟩]) := by
  rw [receive, if_pos hpc, rosterIndex_oneLevelTree]

theorem receive_waitReply {c : ℕ} (hpc : nd.pc = .waitReply) :
    receive n key M me nd (.waitReply c) =
      some (if nd.waitReplies.length + 1 = n - 1 then (finishDispatch M { nd with waitReplies := [] }, [])
        else ({ nd with waitReplies := c :: nd.waitReplies }, [])) := by
  rw [receive, if_pos hpc, length_childIndices]
  split_ifs <;> rfl

/-! A message is taken only at the receive that waits for it. -/

theorem pc_of_receive_deal {dd : Deal} {r : DkgNode K Gen × List (Packet K)}
    (h : receive n key M me nd (.deal dd) = some r) : ∃ k, nd.pc = .deal k := by
  cases hpc : nd.pc <;> simp [receive, hpc] at h ⊢

theorem pc_of_receive_response {resp : Response} {r : DkgNode K Gen × List (Packet K)}
    (h : receive n key M me nd (.response resp) = some r) : ∃ k, nd.pc = .response k := by
  cases hpc : nd.pc <;> simp [receive, hpc] at h ⊢

theorem pc_of_receive_secretCommit {sc : SecretCommits} {r : DkgNode K Gen × List (Packet K)}
    (h : receive n key M me nd (.secretCommit sc) = some r) : ∃ k, nd.pc = .secretCommit k := by
  cases hpc : nd.pc <;> simp [receive, hpc] at h ⊢

theorem pc_of_receive_waitSetup {r : DkgNode K Gen × List (Packet K)}
    (h : receive n key M me nd .waitSetup = some r) : nd.pc = .waitSetup := by
  by_contra hpc
  rw [receive, if_neg hpc] at h
  cases h

theorem pc_of_receive_waitReply {c : ℕ} {r : DkgNode K Gen × List (Packet K)}
    (h : receive n key M me nd (.waitReply c) = some r) : nd.pc = .waitReply := by
  by_contra hpc
  rw [receive, if_neg hpc] at h
  cases h

end Receive

section ReceiveRecord

variable [DecidableEq K] {n : ℕ} {key : ℕ → K} {me : ℕ} {nd : DkgNode K Record}

/-- `StartDeal` at the first receive: the generator of `me` is made, its own
deal processed, a deal sent to every other node, and `Dispatch` waits for
the first deal. -/
theorem receive_startDeal (hn : 2 ≤ n) (hkey : ∀ i < n, ∀ j < n, key i = key j → i = j) (hme : me < n)
    (hpc : nd.pc = .startDeal) :
    receive n key Record.methods me nd (.startDeal (fullPublics n key) (dkgThreshold n)) =
      some ({ nd with
          pc := .deal 0
          dkg := some ⟨n, me, dkgThreshold n, insert me ∅, insert (me, me) ∅, ∅⟩
          publics := fullPublics n key },
        ((List.range n).filter (· ≠ me)).map fun i => ⟨i, .deal ⟨me, i⟩⟩) := by
  have hl : ∀ x ∈ (⟨n, me, dkgThreshold n, ∅, ∅, ∅⟩ : Record).dealList, x.1 < n := by
    intro x hx
    obtain ⟨i, hi, rfl⟩ := List.mem_map.mp hx
    exact List.mem_range.mp (List.mem_filter.mp hi).1
  rw [receive_startDeal_of_deals hn hpc length_fullPublics (new_fullPublics hkey hme _) rfl hl, dealList,
    List.map_map]
  rfl

/-- A deal for `me` from a dealer it has no deal of: recorded with the
node's own response and the dealer's approval, and the response broadcast. -/
theorem receive_deal {k : ℕ} {D : Record} {dd : Deal} (hn : 2 ≤ n)
    (hpc : nd.pc = .deal k) (hD : nd.dkg = some D) (hlen : nd.publics.length = n)
    (hto : dd.recipient = D.index) (hnew : dd.dealer ∉ D.received) :
    receive n key Record.methods me nd (.deal dd) =
      some ({ nd with
          pc := if k + 1 < n - 1 then .deal (k + 1) else .response 0
          dkg := some { D with
            received := insert dd.dealer D.received
            responses := insert (dd.dealer, D.index) (insert (dd.dealer, dd.dealer) D.responses) } },
        fullBroadcast n (.response ⟨dd.dealer, D.index⟩)) :=
  receive_deal_of_processDeal hn hpc hD hlen (processDeal_eq_ok hto hnew)

/-- A response the generator holds already, such as the node's own: the
error is one `Dispatch` lets pass, and the loop goes on. -/
theorem receive_response_of_mem {k : ℕ} {D : Record} {r : Response} (hn : 0 < n)
    (hpc : nd.pc = .response k) (hD : nd.dkg = some D) (hlen : nd.publics.length = n)
    (hd : r.dealer ∈ D.received) (hr : (r.dealer, r.verifier) ∈ D.responses) :
    receive n key Record.methods me nd (.response r) =
      some ({ nd with pc := if k + 1 < n * (n - 1) then .response (k + 1) else .secretCommit 0 }, []) := by
  rw [receive_response_of_tolerated hn hpc hD hlen (processResponse_of_mem hd hr) (Or.inl rfl), ← hD]

/-- A new response: recorded, and the commitments broadcast the first time
the node's own deal is certified. -/
theorem receive_response_of_notMem {k : ℕ} {D : Record} {r : Response} (hn : 0 < n)
    (hpc : nd.pc = .response k) (hD : nd.dkg = some D) (hlen : nd.publics.length = n)
    (hd : r.dealer ∈ D.received) (hr : (r.dealer, r.verifier) ∉ D.responses) :
    receive n key Record.methods me nd (.response r) =
      some ({ nd with
          pc := if k + 1 < n * (n - 1) then .response (k + 1) else .secretCommit 0
          dkg := some { D with responses := insert (r.dealer, r.verifier) D.responses }
          commit := nd.commit ||
            decide (Certified { D with responses := insert (r.dealer, r.verifier) D.responses } D.index) },
        if Certified { D with responses := insert (r.dealer, r.verifier) D.responses } D.index ∧ nd.commit = false
        then fullBroadcast n (.secretCommit ⟨D.index⟩) else []) := by
  by_cases hc : Certified { D with responses := insert (r.dealer, r.verifier) D.responses } D.index
  · rw [receive_response_of_secretCommits hn hpc hD hlen (processResponse_of_notMem hd hr)
      (secretCommits_of_certified hc)]
    simp [hc]
  · rw [receive_response_of_uncertified hn hpc hD hlen (processResponse_of_notMem hd hr)
      (secretCommits_of_not_certified hc)]
    simp [hc]

/-- The commitments of a certified dealer: recorded, and the loop goes on. -/
theorem receive_secretCommit {k : ℕ} {D : Record} {sc : SecretCommits}
    (hpc : nd.pc = .secretCommit k) (hD : nd.dkg = some D) (hd : sc.dealer ∈ D.received)
    (hc : D.Certified sc.dealer) :
    receive n key Record.methods me nd (.secretCommit sc) =
      some (enterSecretCommits n Record.methods me
        { nd with dkg := some { D with commitments := insert sc.dealer D.commitments } } (k + 1)) :=
  receive_secretCommit_of_process hpc hD (processSecretCommits_of_certified hd hc)

end ReceiveRecord

/-! ## What the generator holds after each handler -/

namespace GenFacts

variable {n q : ℕ} {D : Record}

theorem start (hq : q < n) : GenFacts n q ⟨n, q, dkgThreshold n, insert q ∅, insert (q, q) ∅, ∅⟩ where
  participants := rfl
  index := rfl
  threshold := rfl
  received_sub := by simpa using hq
  self_mem := Finset.mem_insert_self _ _
  responses_lt d v h := by
    obtain ⟨rfl, rfl⟩ : d = q ∧ v = q := by simpa using h
    exact ⟨hq, hq⟩
  responses_of_received d h := by
    obtain rfl : d = q := by simpa using h
    exact ⟨Finset.mem_insert_self _ _, Finset.mem_insert_self _ _⟩
  commitments_sub := Finset.empty_subset _

theorem deal (h : GenFacts n q D) {j : ℕ} (hj : j < n) :
    GenFacts n q { D with
      received := insert j D.received
      responses := insert (j, q) (insert (j, j) D.responses) } where
  participants := h.participants
  index := h.index
  threshold := h.threshold
  received_sub := Finset.insert_subset (Finset.mem_range.mpr hj) h.received_sub
  self_mem := Finset.mem_insert_of_mem h.self_mem
  responses_lt d v hdv := by
    rcases Finset.mem_insert.mp hdv with hdv | hdv
    · obtain ⟨rfl, rfl⟩ := Prod.mk.inj hdv
      exact ⟨hj, Finset.mem_range.mp (h.received_sub h.self_mem)⟩
    rcases Finset.mem_insert.mp hdv with hdv | hdv
    · obtain ⟨rfl, rfl⟩ := Prod.mk.inj hdv
      exact ⟨hj, hj⟩
    · exact h.responses_lt d v hdv
  responses_of_received d hd := by
    rcases Finset.mem_insert.mp hd with rfl | hd
    · exact ⟨Finset.mem_insert_self _ _, Finset.mem_insert_of_mem (Finset.mem_insert_self _ _)⟩
    · obtain ⟨h1, h2⟩ := h.responses_of_received d hd
      exact ⟨Finset.mem_insert_of_mem (Finset.mem_insert_of_mem h1),
        Finset.mem_insert_of_mem (Finset.mem_insert_of_mem h2)⟩
  commitments_sub := h.commitments_sub

theorem response (h : GenFacts n q D) {d v : ℕ} (hd : d < n) (hv : v < n) :
    GenFacts n q { D with responses := insert (d, v) D.responses } where
  participants := h.participants
  index := h.index
  threshold := h.threshold
  received_sub := h.received_sub
  self_mem := h.self_mem
  responses_lt d' v' h' := by
    rcases Finset.mem_insert.mp h' with h' | h'
    · obtain ⟨rfl, rfl⟩ := Prod.mk.inj h'
      exact ⟨hd, hv⟩
    · exact h.responses_lt d' v' h'
  responses_of_received d' hd' := by
    obtain ⟨h1, h2⟩ := h.responses_of_received d' hd'
    exact ⟨Finset.mem_insert_of_mem h1, Finset.mem_insert_of_mem h2⟩
  commitments_sub := h.commitments_sub

theorem commit (h : GenFacts n q D) {j : ℕ} (hj : j < n) :
    GenFacts n q { D with commitments := insert j D.commitments } where
  participants := h.participants
  index := h.index
  threshold := h.threshold
  received_sub := h.received_sub
  self_mem := h.self_mem
  responses_lt := h.responses_lt
  responses_of_received := h.responses_of_received
  commitments_sub := Finset.insert_subset (Finset.mem_range.mpr hj) h.commitments_sub

end GenFacts

/-- A generator that has processed one deal, its own, when there are two
participants or more, has not certified it. -/
theorem not_certified_start {n q : ℕ} (hn : 2 ≤ n) :
    ¬ Certified ⟨n, q, dkgThreshold n, insert q ∅, insert (q, q) ∅, ∅⟩ q := by
  intro hc
  have hv : (if q = 0 then 1 else 0) < n := by split_ifs <;> omega
  have := hc _ hv
  simp only [Finset.insert_empty, Finset.mem_singleton, Prod.mk.injEq, true_and] at this
  split_ifs at this with hq <;> omega

section Finished

variable {n : ℕ}

/-- A node past the secret commitments holds a finished generator. -/
theorem finished_of_stage {q : ℕ} {D : Record} (hgen : GenFacts n q D) (hcompl : Complete n D)
    (hcomm : D.commitments = Finset.range n) : D.finished = true :=
  finished_of_complete (fun d hd v hv => hcompl d (hgen.participants ▸ hd) v (hgen.participants ▸ hv))
    (fun d hd => by rw [hcomm]; exact Finset.mem_range.mpr (hgen.participants ▸ hd))
    (by rw [hgen.threshold, hgen.participants, dkgThreshold]; omega)

/-- The `n`-th secret commitments, recorded by a generator that holds every
response, finish it. -/
theorem finished_recordCommits {q k j : ℕ} {D : Record} (hgen : GenFacts n q D) (hcompl : Complete n D)
    (hcard : D.commitments.card = k) (hjn : j < n) (hjnew : j ∉ D.commitments) (hkn : k + 1 = n) :
    (D.recordCommits j).finished = true := by
  have hgen' : GenFacts n q (D.recordCommits j) := hgen.commit hjn
  have hall : (D.recordCommits j).commitments = Finset.range n := by
    refine Finset.eq_of_subset_of_card_le hgen'.commitments_sub ?_
    rw [Finset.card_range, recordCommits, Finset.card_insert_of_notMem hjnew, hcard, hkn]
  exact finished_of_stage hgen' hcompl hall

end Finished

/-! ## How a step changes what the others see -/

section Update

variable {node : ℕ → DkgNode K Record} {q0 : ℕ} {nd' : DkgNode K Record}

theorem update_view_eq {β : Type*} (f : DkgNode K Record → β) (h : f nd' = f (node q0)) (j : ℕ) :
    f (Function.update node q0 nd' j) = f (node j) := by
  rcases eq_or_ne j q0 with rfl | hj
  · rw [Function.update_self, h]
  · rw [Function.update_of_ne hj]

theorem update_view_iff (P : DkgNode K Record → Prop) (h : P nd' ↔ P (node q0)) (j : ℕ) :
    P (Function.update node q0 nd' j) ↔ P (node j) := by
  rcases eq_or_ne j q0 with rfl | hj
  · rw [Function.update_self, h]
  · rw [Function.update_of_ne hj]

/-- A view that the step extends by `Q` at the stepping node alone. -/
theorem update_view_iff_or (P : DkgNode K Record → Prop) {Q : Prop} (h : P nd' ↔ P (node q0) ∨ Q) (j : ℕ) :
    P (Function.update node q0 nd' j) ↔ P (node j) ∨ (j = q0 ∧ Q) := by
  rcases eq_or_ne j q0 with rfl | hj
  · rw [Function.update_self, h]
    simp
  · rw [Function.update_of_ne hj]
    simp [hj]

/-- A step that leaves the stepping node's generator and `commit` as they
were changes nothing the others read of it: the deals, responses and
commitments it holds, and so the responses sent. -/
theorem views_of_same_dkg {n : ℕ} (hdkg : nd'.dkg = (node q0).dkg) (hcommit : nd'.commit = (node q0).commit) :
    (∀ q i, (Function.update node q0 nd' q).dealt i = (node q).dealt i) ∧
    (∀ q d v, (Function.update node q0 nd' q).recorded d v = (node q).recorded d v) ∧
    sentResponses n (Function.update node q0 nd') = sentResponses n node ∧
    (∀ i, (Function.update node q0 nd' i).commit = (node i).commit) ∧
    (∀ q i, (Function.update node q0 nd' q).committed i = (node q).committed i) := by
  have hdealt : ∀ q i, (Function.update node q0 nd' q).dealt i = (node q).dealt i := fun q =>
    congrFun (update_view_eq DkgNode.dealt (by unfold DkgNode.dealt; rw [hdkg]) q)
  refine ⟨hdealt, fun q d => ?_, sentResponses_congr fun v d _ => hdealt v d,
    update_view_eq DkgNode.commit hcommit, fun q => ?_⟩
  · exact congrFun (congrFun (update_view_eq DkgNode.recorded (by unfold DkgNode.recorded; rw [hdkg]) q) d)
  · exact congrFun (update_view_eq DkgNode.committed (by unfold DkgNode.committed; rw [hdkg]) q)

end Update

/-- The facts of `q`'s invariant that tie what it holds to the others carry
over a step that changes neither. -/
theorem NodeInv.records_of_views {n : ℕ} {key : ℕ → K} {W : Bool} {s : DkgSys K Record} {q : ℕ}
    {node' : ℕ → DkgNode K Record} (h : NodeInv n key W s q)
    (hsent : sentResponses n node' = sentResponses n s.node)
    (hrec : ∀ d v, (node' q).recorded d v = (s.node q).recorded d v)
    (hstart : ∀ j, (node' j).pc = .startDeal ↔ (s.node j).pc = .startDeal)
    (hdealt : ∀ j, (node' q).dealt j = (s.node q).dealt j)
    (hcm : ∀ j, (node' j).commit = (s.node j).commit)
    (hcmd : ∀ j, (node' q).committed j = (s.node q).committed j) :
    (∀ d v, (node' q).recorded d v = true → v ≠ q → v ≠ d → (d, v) ∈ sentResponses n node') ∧
    (∀ j, (node' q).dealt j = true → j ≠ q → (node' j).pc ≠ .startDeal) ∧
    (∀ j, (node' q).committed j = true → (node' j).commit = true) := by
  refine ⟨fun d v hrd hvq hvd => ?_, fun j hj hjq => ?_, fun j hj => ?_⟩
  · rw [hsent]
    rw [hrec] at hrd
    exact h.recorded_sent d v hrd hvq hvd
  · rw [Ne, hstart]
    rw [hdealt] at hj
    exact h.dealt_started j hj hjq
  · rw [hcm]
    rw [hcmd] at hj
    exact h.committed_commit j hj

theorem countP_step [DecidableEq K] {net : List (Packet K)} {p0 : Packet K} (hp : p0 ∈ net)
    (out : List (Packet K)) (f : Packet K → Bool) :
    (net.erase p0 ++ out).countP f + (if f p0 then 1 else 0) = net.countP f + out.countP f := by
  rw [List.countP_append, ← countP_erase_add hp f]
  omega

theorem countP_isResponseTo_fullBroadcast [DecidableEq K] {n q : ℕ} (hn : 0 < n) (hq : q < n) (r : Response) :
    (fullBroadcast n (.response r) : List (Packet K)).countP (Packet.isResponseTo q) = 1 := by
  have hf : (Packet.isResponseTo q ∘ fun i => (⟨i, .response r⟩ : Packet K)) = fun i => i == q := by
    funext i
    simp only [Function.comp_apply, Packet.isResponseTo]
    exact (Bool.beq_eq_decide_eq i q).symm
  rw [fullBroadcast, dkgNodes_eq hn, List.countP_map, hf]
  exact List.count_eq_one_of_mem List.nodup_range (List.mem_range.mpr hq)

/-- A step that takes no response to `q` and sends none, and leaves the
responses sent and those `q` took as they were, keeps the count at `q`. -/
theorem count_step_quiet [DecidableEq K] {n : ℕ} {key : ℕ → K} {W : Bool} {s : DkgSys K Record}
    (h : NetInv n key W s) {p0 : Packet K} (hp : p0 ∈ s.net) {q : ℕ} (hq : q < n)
    (hp0 : p0.isResponseTo q = false) {node' : ℕ → DkgNode K Record} {out : List (Packet K)}
    (hout : out.countP (Packet.isResponseTo q) = 0) (hsent : sentResponses n node' = sentResponses n s.node)
    (hcons : respConsumed n (node' q).pc = respConsumed n (s.node q).pc) :
    (s.net.erase p0 ++ out).countP (Packet.isResponseTo q) + respConsumed n (node' q).pc =
      (sentResponses n node').card := by
  have hc := countP_step hp out (Packet.isResponseTo q)
  rw [hout, hp0, if_neg Bool.false_ne_true] at hc
  rw [hsent, hcons, ← h.count q hq]
  omega

/-- A step at `q0` that takes a response, one further in the loop over the
responses, and sends none to `q`, keeps the count at `q`. -/
theorem count_step_take [DecidableEq K] {n : ℕ} {key : ℕ → K} {W : Bool} {s : DkgSys K Record}
    (h : NetInv n key W s) {q0 : ℕ} {r : Response} (hp : ⟨q0, .response r⟩ ∈ s.net) {k : ℕ}
    (hpc : (s.node q0).pc = .response k) {nd' : DkgNode K Record} (hpc' : respConsumed n nd'.pc = k + 1)
    {q : ℕ} (hq : q < n) {out : List (Packet K)} (hout : out.countP (Packet.isResponseTo q) = 0)
    (hsent : sentResponses n (Function.update s.node q0 nd') = sentResponses n s.node) :
    (s.net.erase ⟨q0, .response r⟩ ++ out).countP (Packet.isResponseTo q) +
      respConsumed n (Function.update s.node q0 nd' q).pc = (sentResponses n (Function.update s.node q0 nd')).card := by
  have hc := countP_step hp out (Packet.isResponseTo q)
  rw [hout] at hc
  rw [hsent, ← h.count q hq]
  rcases eq_or_ne q q0 with rfl | hq'
  · -- the response taken is one more consumed
    rw [Function.update_self, hpc', hpc]
    simp only [Packet.isResponseTo, decide_true, if_true] at hc
    show _ + (k + 1) = _ + k
    omega
  · rw [Function.update_of_ne hq']
    simp only [Packet.isResponseTo, decide_eq_true_eq, Ne.symm hq', if_false] at hc
    omega

/-! ## A node that has taken every response -/

section Consumed

variable {n : ℕ} {key : ℕ → K} {W : Bool}

theorem card_sentResponses_le (node : ℕ → DkgNode K Record) : (sentResponses n node).card ≤ n * (n - 1) := by
  have h := Finset.card_le_card (Finset.filter_subset (fun dv => (node dv.2).dealt dv.1 = true)
    (Finset.range n).offDiag)
  rwa [Finset.offDiag_card, Finset.card_range, ← Nat.mul_sub_one] at h

/-- **Once a node has taken `n(n - 1)` responses, every pair has been
answered and it holds each response sent to it**: the count of
`NetInv` leaves no response to it in flight, and an answer it has not
recorded would be one. -/
theorem recorded_of_consumed {s : DkgSys K Record} (h : NetInv n key W s) {q : ℕ} (hq : q < n)
    (hc : respConsumed n (s.node q).pc = n * (n - 1)) :
    sentResponses n s.node = (Finset.range n).offDiag ∧
      ∀ d v, d < n → v < n → d ≠ v → v ≠ q → (s.node q).recorded d v = true := by
  have hcount := h.count q hq
  have hle := card_sentResponses_le (n := n) s.node
  have hnone : s.net.countP (Packet.isResponseTo q) = 0 := by omega
  have hall : sentResponses n s.node = (Finset.range n).offDiag := by
    refine Finset.eq_of_subset_of_card_le (Finset.filter_subset _ _) ?_
    rw [Finset.offDiag_card, Finset.card_range, ← Nat.mul_sub_one]
    omega
  refine ⟨hall, fun d v hd hv hdv hvq => ?_⟩
  by_contra hnr
  have hpend : Pending n key W s.node ⟨q, .response ⟨d, v⟩⟩ :=
    ⟨hq, by rw [hall]; simp [hd, hv, hdv], fun _ => by simpa using hnr⟩
  have hin := h.mem _ hpend (by simp [Packet.isOwnResponse, hvq])
  have hpos : 0 < s.net.countP (Packet.isResponseTo q) :=
    List.countP_pos_iff.mpr ⟨_, hin, by simp [Packet.isResponseTo]⟩
  omega

/-- A generator that holds every deal and every response to it from another
verifier holds every response. -/
theorem complete_of_recorded {q : ℕ} {D : Record} (hgen : GenFacts n q D)
    (hrecv : D.received = Finset.range n)
    (hall : ∀ d v, d < n → v < n → d ≠ v → v ≠ q → (d, v) ∈ D.responses) : Complete n D := by
  intro d hd v hv
  have hdr : d ∈ D.received := by
    rw [hrecv]
    exact Finset.mem_range.mpr hd
  by_cases hvq : v = q
  · rw [hvq]
    exact (hgen.responses_of_received d hdr).1
  by_cases hdv : d = v
  · rw [← hdv]
    exact (hgen.responses_of_received d hdr).2
  exact hall d v hd hv hdv hvq

end Consumed

/-! ## `StartDeal` -/

section StartDealStep

variable [DecidableEq K] {n : ℕ} {key : ℕ → K} {W : Bool}

theorem dkgInv_startDeal (hn : 2 ≤ n) (hkey : ∀ i < n, ∀ j < n, key i = key j → i = j) {s : DkgSys K Record}
    (h : DkgInv n key W s) {q0 : ℕ} {ps : List (Option K)} {t : ℕ} (hp : ⟨q0, .startDeal ps t⟩ ∈ s.net)
    {nd' : DkgNode K Record} {out : List (Packet K)}
    (hr : receive n key Record.methods q0 (s.node q0) (.startDeal ps t) = some (nd', out)) :
    DkgInv n key W ⟨Function.update s.node q0 nd', s.net.erase ⟨q0, .startDeal ps t⟩ ++ out⟩ := by
  obtain ⟨hq0, rfl, rfl, hpc⟩ := h.net.pending _ hp
  have hinv := h.node q0 hq0
  obtain ⟨hdkg, hcommit⟩ := hinv.fresh hpc
  rw [receive_startDeal hn hkey hq0 hpc, Option.some.injEq, Prod.mk.injEq] at hr
  obtain ⟨hnd, hout⟩ := hr
  have hpc' : nd'.pc = .deal 0 := by rw [← hnd]
  have hdkg' : nd'.dkg = some ⟨n, q0, dkgThreshold n, insert q0 ∅, insert (q0, q0) ∅, ∅⟩ := by rw [← hnd]
  -- what the step changes: node `q0` leaves its first receive and holds its own deal
  have hstart : ∀ j, (Function.update s.node q0 nd' j).pc = .startDeal ↔ (s.node j).pc = .startDeal ∧ j ≠ q0 := by
    intro j
    rcases eq_or_ne j q0 with rfl | hj
    · simp [hpc']
    · simp [hj]
  have hdealt : ∀ q d, d ≠ q → (Function.update s.node q0 nd' q).dealt d = (s.node q).dealt d := by
    intro q d hdq
    rcases eq_or_ne q q0 with rfl | hq
    · rw [Function.update_self, DkgNode.dealt_of_none hdkg, DkgNode.dealt_of_dkg hdkg']
      simpa using hdq
    · rw [Function.update_of_ne hq]
  have hrec : ∀ q d v, v ≠ q → (Function.update s.node q0 nd' q).recorded d v = (s.node q).recorded d v := by
    intro q d v hvq
    rcases eq_or_ne q q0 with rfl | hq
    · rw [Function.update_self, DkgNode.recorded_of_none hdkg, DkgNode.recorded_of_dkg hdkg']
      simp [hvq]
    · rw [Function.update_of_ne hq]
  have hsent := sentResponses_congr (n := n) hdealt
  have hcm : ∀ j, (Function.update s.node q0 nd' j).commit = (s.node j).commit :=
    update_view_eq DkgNode.commit (by rw [← hnd])
  have hcmd : ∀ q j, (Function.update s.node q0 nd' q).committed j = (s.node q).committed j := fun q =>
    congrFun (update_view_eq DkgNode.committed
      (funext fun j => by rw [DkgNode.committed_of_dkg hdkg', DkgNode.committed_of_none hdkg]; rfl) q)
  have hdone : ∀ c, (Function.update s.node q0 nd' c).pc = .returned none ↔ (s.node c).pc = .returned none :=
    update_view_iff (fun nd => nd.pc = .returned none) (by simp [hpc, hpc'])
  have hroot : (Function.update s.node q0 nd' 0).pc = .waitReply ↔ (s.node 0).pc = .waitReply :=
    update_view_iff (fun nd => nd.pc = .waitReply) (by simp [hpc, hpc']) 0
  have hqueue : (Function.update s.node q0 nd' 0).waitReplies = (s.node 0).waitReplies :=
    update_view_eq DkgNode.waitReplies (by rw [← hnd]) 0
  have hnet : NetInv n key W ⟨Function.update s.node q0 nd', s.net.erase ⟨q0, .startDeal (fullPublics n key) (dkgThreshold n)⟩ ++ out⟩ := by
    refine netInv_step h.net ?_ ?_ ?_ ?_ ?_
    · rintro ⟨q, m⟩ hpend hne
      cases m with
      | startDeal ps t =>
          obtain ⟨hq, rfl, rfl, hqs⟩ := hpend
          exact ⟨hq, rfl, rfl, (hstart q).mpr ⟨hqs, fun hq' => hne (by rw [hq'])⟩⟩
      | deal dd =>
          obtain ⟨hq, hto, hd, hdq, hds, hdl⟩ := hpend
          exact ⟨hq, hto, hd, hdq, fun h' => hds ((hstart _).mp h').1, by rw [hdealt _ _ hdq, hdl]⟩
      | response r => exact (pending_response_congr hsent hrec q r).mpr hpend
      | secretCommit sc => exact (pending_secretCommit_congr hcm hcmd q sc).mpr hpend
      | waitSetup => exact (pending_waitSetup_congr hdone hroot q).mpr hpend
      | waitReply c => exact (pending_waitReply_congr hdone hqueue q c).mpr hpend
    · rintro ⟨q, m⟩ hpend hown
      cases m with
      | startDeal ps t =>
          obtain ⟨hq, rfl, rfl, hqs⟩ := hpend
          obtain ⟨hqs, hq'⟩ := (hstart q).mp hqs
          exact Or.inl ⟨⟨hq, rfl, rfl, hqs⟩, by simp [hq']⟩
      | deal dd =>
          obtain ⟨hq, hto, hd, hdq, hds, hdl⟩ := hpend
          by_cases hd0 : dd.dealer = q0
          · -- a deal of `q0`, sent in this step
            right
            rw [← hout, List.mem_map]
            refine ⟨q, List.mem_filter.mpr ⟨List.mem_range.mpr hq, by simpa [← hd0] using hdq.symm⟩, ?_⟩
            obtain ⟨j, i⟩ := dd
            dsimp only at hto hd0
            rw [hto, hd0]
          · left
            refine ⟨⟨hq, hto, hd, hdq, fun h' => hds ((hstart _).mpr ⟨h', hd0⟩), ?_⟩, by simp⟩
            rw [← hdealt _ _ hdq, hdl]
      | response r => exact Or.inl ⟨(pending_response_congr hsent hrec q r).mp hpend, by simp⟩
      | secretCommit sc => exact Or.inl ⟨(pending_secretCommit_congr hcm hcmd q sc).mp hpend, by simp⟩
      | waitSetup => exact Or.inl ⟨(pending_waitSetup_congr hdone hroot q).mp hpend, by simp⟩
      | waitReply c => exact Or.inl ⟨(pending_waitReply_congr hdone hqueue q c).mp hpend, by simp⟩
    · intro p hp'
      rw [← hout, List.mem_map] at hp'
      obtain ⟨i, hi, rfl⟩ := hp'
      obtain ⟨hin, hiq⟩ : i < n ∧ i ≠ q0 := by simpa using hi
      refine ⟨⟨hin, rfl, hq0, Ne.symm hiq, fun h' => ((hstart q0).mp h').2 rfl, ?_⟩,
        fun hpend => hpend.2.2.2.2.1 hpc⟩
      -- `i` holds no deal of a dealer that has not started
      rw [hdealt i q0 (Ne.symm hiq)]
      cases hdi : (s.node i).dealt q0
      · rfl
      · exact absurd hpc ((h.node i hin).dealt_started q0 hdi (Ne.symm hiq))
    · rw [← hout]
      refine (List.nodup_range.filter _).map fun i j hij => ?_
      simpa using hij
    · intro q hq
      have hout0 : out.countP (Packet.isResponseTo q) = 0 := by
        rw [← hout, List.countP_eq_zero]
        intro p hp'
        obtain ⟨i, -, rfl⟩ := List.mem_map.mp hp'
        simp [Packet.isResponseTo]
      exact count_step_quiet h.net hp hq rfl hout0 hsent
        (update_view_eq (fun nd => respConsumed n nd.pc) (by rw [hpc', hpc]; rfl) q)
  refine ⟨hnet, fun q hq => ?_⟩
  rcases eq_or_ne q q0 with rfl | hq'
  · -- the node that took `StartDeal`
    have hself : Function.update s.node q nd' q = nd' := Function.update_self _ _ _
    refine ⟨?_, ?_, ?_, ?_, ?_, ?_, ?_, ?_, ?_⟩ <;> dsimp only <;> rw [hself]
    · rw [← hnd]
      exact hinv.wait
    · intro h'
      rw [hpc'] at h'
      cases h'
    · intro _
      refine ⟨_, hdkg', GenFacts.start hq, by rw [← hnd], ?_, ?_⟩
      · rw [hpc']
        refine ⟨by omega, by simp, fun d v hdv => ?_, rfl⟩
        simp only [Finset.insert_empty, Finset.mem_singleton, Prod.mk.injEq] at hdv
        exact Or.inl hdv.2
      · rw [← hnd]
        dsimp only
        rw [hcommit]
        simpa using not_certified_start hn
    · intro d v hrd hvq _
      rw [DkgNode.recorded_of_dkg hdkg'] at hrd
      simp only [Finset.insert_empty, Finset.mem_singleton, Prod.mk.injEq, decide_eq_true_eq] at hrd
      exact absurd hrd.2 hvq
    · intro j hj hjq
      rw [DkgNode.dealt_of_dkg hdkg'] at hj
      simp only [Finset.insert_empty, Finset.mem_singleton, decide_eq_true_eq] at hj
      exact absurd hj hjq
    · intro j hj
      rw [DkgNode.committed_of_dkg hdkg'] at hj
      simp at hj
    · intro hq0'
      obtain ⟨-, -, hnw⟩ := hinv.queue hq0'
      rw [← hnd]
      dsimp only
      rw [hnw (by rw [hpc]; exact DispatchPc.noConfusion)]
      exact ⟨fun c hc => absurd hc List.not_mem_nil, List.nodup_nil, fun _ => rfl⟩
    · intro _ _ h'
      rw [hpc'] at h'
      cases h'
    · intro _ _ h'
      rw [hpc'] at h'
      cases h'
  · -- a node that did not move, against a node that only left its first receive
    refine nodeInv_other _ (h.node q hq) hq' ⟨fun h' => absurd hpc h', fun j hj => ?_, fun h' => ?_,
      fun h' => ?_, fun h' => ?_⟩
    · rw [DkgNode.dealt_of_none hdkg] at hj
      cases hj
    · rw [hcommit] at h'
      cases h'
    · rw [hpc] at h'
      cases h'
    · rw [hpc] at h'
      simp at h'

end StartDealStep

/-! ## A deal -/

section DealStep

variable [DecidableEq K] {n : ℕ} {key : ℕ → K} {W : Bool}

theorem dkgInv_deal (hn : 2 ≤ n) {s : DkgSys K Record} (h : DkgInv n key W s) {q0 : ℕ} {dd : Deal}
    (hp : ⟨q0, .deal dd⟩ ∈ s.net) {nd' : DkgNode K Record} {out : List (Packet K)}
    (hr : receive n key Record.methods q0 (s.node q0) (.deal dd) = some (nd', out)) :
    DkgInv n key W ⟨Function.update s.node q0 nd', s.net.erase ⟨q0, .deal dd⟩ ++ out⟩ := by
  obtain ⟨hq0, hto, hj, hjq, hjs, hdl⟩ := h.net.pending _ hp
  obtain ⟨k, hpc⟩ := pc_of_receive_deal hr
  have hinv := h.node q0 hq0
  obtain ⟨D, hD, hgen, hpub, hstage, hcert⟩ := hinv.gen (by rw [hpc]; exact DispatchPc.noConfusion)
  rw [hpc] at hstage
  obtain ⟨hk, hcard, hresp, hcomm⟩ := hstage
  have hnew : dd.dealer ∉ D.received := by
    rw [DkgNode.dealt_of_dkg hD] at hdl
    simpa using hdl
  rw [receive_deal hn hpc hD (by rw [hpub, length_fullPublics]) (by rw [hto, hgen.index]) hnew,
    Option.some.injEq, Prod.mk.injEq, hgen.index] at hr
  obtain ⟨hnd, hout⟩ := hr
  set j := dd.dealer with hjdef
  set D' : Record :=
    ⟨D.participants, q0, D.t, insert j D.received, insert (j, q0) (insert (j, j) D.responses), D.commitments⟩
    with hD'def
  have hpc' : nd'.pc = if k + 1 < n - 1 then .deal (k + 1) else .response 0 := by rw [← hnd]
  have hdkg' : nd'.dkg = some D' := by rw [← hnd]
  have hjsent : (j, q0) ∉ sentResponses n s.node := fun h' => by
    rw [(mem_sentResponses.mp h').2.2.2] at hdl
    cases hdl
  -- what the step changes: `q0` holds the deal of `j`, its response to it and `j`'s approval
  have hstart : ∀ i, (Function.update s.node q0 nd' i).pc = .startDeal ↔ (s.node i).pc = .startDeal :=
    update_view_iff (fun nd => nd.pc = .startDeal) (by rw [hpc', hpc]; split_ifs <;> simp)
  have hdealt : ∀ q d, (Function.update s.node q0 nd' q).dealt d = true ↔
      (s.node q).dealt d = true ∨ (q = q0 ∧ d = j) := by
    intro q d
    refine update_view_iff_or (fun nd => nd.dealt d = true) ?_ q
    rw [DkgNode.dealt_of_dkg hdkg', DkgNode.dealt_of_dkg hD]
    simp [D', or_comm]
  have hrec : ∀ q d v, (Function.update s.node q0 nd' q).recorded d v = true ↔
      (s.node q).recorded d v = true ∨ (q = q0 ∧ d = j ∧ (v = q0 ∨ v = j)) := by
    intro q d v
    refine update_view_iff_or (fun nd => nd.recorded d v = true) ?_ q
    rw [DkgNode.recorded_of_dkg hdkg', DkgNode.recorded_of_dkg hD]
    simp only [D', decide_eq_true_eq, Finset.mem_insert, Prod.mk.injEq]
    tauto
  have hsent : sentResponses n (Function.update s.node q0 nd') = insert (j, q0) (sentResponses n s.node) := by
    ext ⟨d, v⟩
    rw [Finset.mem_insert, mem_sentResponses, mem_sentResponses, hdealt, Prod.mk.injEq]
    constructor
    · rintro ⟨hd, hv, hdv, hold | ⟨rfl, rfl⟩⟩
      · exact Or.inr ⟨hd, hv, hdv, hold⟩
      · exact Or.inl ⟨rfl, rfl⟩
    · rintro (⟨rfl, rfl⟩ | ⟨hd, hv, hdv, hold⟩)
      · exact ⟨hj, hq0, hjq, Or.inr ⟨rfl, rfl⟩⟩
      · exact ⟨hd, hv, hdv, Or.inl hold⟩
  have hcm : ∀ i, (Function.update s.node q0 nd' i).commit = (s.node i).commit :=
    update_view_eq DkgNode.commit (by rw [← hnd])
  have hcmd : ∀ q i, (Function.update s.node q0 nd' q).committed i = (s.node q).committed i := fun q =>
    congrFun (update_view_eq DkgNode.committed
      (funext fun i => by rw [DkgNode.committed_of_dkg hdkg', DkgNode.committed_of_dkg hD]) q)
  have hdone : ∀ c, (Function.update s.node q0 nd' c).pc = .returned none ↔ (s.node c).pc = .returned none :=
    update_view_iff (fun nd => nd.pc = .returned none) (by rw [hpc', hpc]; split_ifs <;> simp)
  have hroot : (Function.update s.node q0 nd' 0).pc = .waitReply ↔ (s.node 0).pc = .waitReply :=
    update_view_iff (fun nd => nd.pc = .waitReply) (by rw [hpc', hpc]; split_ifs <;> simp) 0
  have hqueue : (Function.update s.node q0 nd' 0).waitReplies = (s.node 0).waitReplies :=
    update_view_eq DkgNode.waitReplies (by rw [← hnd]) 0
  have hself : ∀ dd' : Deal, dd'.dealer = j → dd'.recipient = q0 → dd' = dd := fun dd' h1 h2 => by
    show (⟨dd'.dealer, dd'.recipient⟩ : Deal) = ⟨dd.dealer, dd.recipient⟩
    rw [h1, h2, hto]
  have hnet : NetInv n key W ⟨Function.update s.node q0 nd', s.net.erase ⟨q0, .deal dd⟩ ++ out⟩ := by
    refine netInv_step h.net ?_ ?_ ?_ ?_ ?_
    · rintro ⟨q, m⟩ hpend hne
      cases m with
      | startDeal ps t => exact (pending_startDeal_congr hstart q ps t).mpr hpend
      | deal dd' =>
          obtain ⟨hq, hto', hd', hdq', hds', hdl'⟩ := hpend
          refine ⟨hq, hto', hd', hdq', fun h' => hds' ((hstart _).mp h'), Bool.eq_false_iff.mpr fun h' => ?_⟩
          rcases (hdealt q dd'.dealer).mp h' with h' | ⟨rfl, h2⟩
          · rw [hdl'] at h'
            cases h'
          · exact hne (by rw [hself dd' h2 hto'])
      | response r =>
          obtain ⟨hq, hs, hrv⟩ := hpend
          refine ⟨hq, by rw [hsent]; exact Finset.mem_insert_of_mem hs, fun hv => Bool.eq_false_iff.mpr fun h' => ?_⟩
          rcases (hrec q r.dealer r.verifier).mp h' with h' | ⟨rfl, hd, hv' | hv'⟩
          · rw [hrv hv] at h'
            cases h'
          · exact hv hv'
          · -- `j`'s approval of its own deal is never sent
            exact (mem_sentResponses.mp hs).2.2.1 (hd.trans hv'.symm)
      | secretCommit sc => exact (pending_secretCommit_congr hcm hcmd q sc).mpr hpend
      | waitSetup => exact (pending_waitSetup_congr hdone hroot q).mpr hpend
      | waitReply c => exact (pending_waitReply_congr hdone hqueue q c).mpr hpend
    · rintro ⟨q, m⟩ hpend hown
      cases m with
      | startDeal ps t => exact Or.inl ⟨(pending_startDeal_congr hstart q ps t).mp hpend, by simp⟩
      | deal dd' =>
          obtain ⟨hq, hto', hd', hdq', hds', hdl'⟩ := hpend
          refine Or.inl ⟨⟨hq, hto', hd', hdq', fun h' => hds' ((hstart _).mpr h'),
            Bool.eq_false_iff.mpr fun h' => ?_⟩, fun heq => ?_⟩
          · have h'' := (hdealt q dd'.dealer).mpr (Or.inl h')
            rw [hdl'] at h''
            cases h''
          · simp only [Packet.mk.injEq, Msg.deal.injEq] at heq
            obtain ⟨rfl, rfl⟩ := heq
            have h'' := (hdealt q dd'.dealer).mpr (Or.inr ⟨rfl, rfl⟩)
            rw [hdl'] at h''
            cases h''
      | response r =>
          obtain ⟨hq, hs, hrv⟩ := hpend
          have hv : r.verifier ≠ q := by simpa [Packet.isOwnResponse] using hown
          rw [hsent, Finset.mem_insert] at hs
          rcases hs with hs | hs
          · -- the response of `q0` to `j`'s deal, sent in this step
            right
            rw [← hout, mem_fullBroadcast (by omega)]
            refine ⟨hq, ?_⟩
            obtain ⟨a, b⟩ := r
            obtain ⟨rfl, rfl⟩ := Prod.mk.inj hs
            rfl
          · refine Or.inl ⟨⟨hq, hs, fun _ => Bool.eq_false_iff.mpr fun h' => ?_⟩, by simp⟩
            have h'' := (hrec q _ _).mpr (Or.inl h')
            rw [hrv hv] at h''
            cases h''
      | secretCommit sc => exact Or.inl ⟨(pending_secretCommit_congr hcm hcmd q sc).mp hpend, by simp⟩
      | waitSetup => exact Or.inl ⟨(pending_waitSetup_congr hdone hroot q).mp hpend, by simp⟩
      | waitReply c => exact Or.inl ⟨(pending_waitReply_congr hdone hqueue q c).mp hpend, by simp⟩
    · intro p hp'
      rw [← hout, mem_fullBroadcast (by omega)] at hp'
      obtain ⟨q, m⟩ := p
      obtain ⟨hq, rfl⟩ := hp'
      refine ⟨⟨hq, by rw [hsent]; exact Finset.mem_insert_self _ _, fun hqq => ?_⟩, fun hpend => hjsent hpend.2.1⟩
      -- no other node has recorded a response that was not sent
      rw [Function.update_of_ne (Ne.symm hqq)]
      cases hrq : (s.node q).recorded j q0
      · rfl
      · exact absurd ((h.node q hq).recorded_sent j q0 hrq hqq (Ne.symm hjq)) hjsent
    · rw [← hout]
      exact nodup_fullBroadcast (by omega) _
    · intro q hq
      have hc := countP_step hp out (Packet.isResponseTo q)
      have hout1 : out.countP (Packet.isResponseTo q) = 1 := by
        rw [← hout]
        exact countP_isResponseTo_fullBroadcast (by omega) hq _
      have hcons : respConsumed n (Function.update s.node q0 nd' q).pc = respConsumed n (s.node q).pc := by
        rcases eq_or_ne q q0 with rfl | hq'
        · rw [Function.update_self, hpc', hpc]
          split_ifs <;> rfl
        · rw [Function.update_of_ne hq']
      rw [hsent, Finset.card_insert_of_notMem hjsent, hcons, ← h.net.count q hq]
      simp only [Packet.isResponseTo, hout1, Bool.false_eq_true, if_false] at hc
      omega
  have hgen' : GenFacts n q0 D' := by
    have h' := hgen.deal hj
    rwa [hgen.index] at h'
  refine ⟨hnet, fun q hq => ?_⟩
  rcases eq_or_ne q q0 with rfl | hq'
  · -- the node that took the deal
    have hself : Function.update s.node q nd' q = nd' := Function.update_self _ _ _
    refine ⟨?_, ?_, ?_, ?_, ?_, ?_, ?_, ?_, ?_⟩ <;> dsimp only
    · rw [hself, ← hnd]
      exact hinv.wait
    · intro h'
      rw [hself, hpc'] at h'
      split_ifs at h'
    · intro _
      refine ⟨D', by rw [hself, hdkg'], hgen', by rw [hself, ← hnd]; exact hpub, ?_, ?_⟩
      · rw [hself, hpc']
        split_ifs with hk1
        · refine ⟨hk1, by rw [Finset.card_insert_of_notMem hnew, hcard], fun d v hdv => ?_, hcomm⟩
          simp only [D', Finset.mem_insert, Prod.mk.injEq] at hdv
          rcases hdv with ⟨-, rfl⟩ | ⟨rfl, rfl⟩ | hdv
          · exact Or.inl rfl
          · exact Or.inr rfl
          · exact hresp d v hdv
        · -- the last deal: every participant's deal is held
          refine ⟨Nat.mul_pos (by omega) (by omega), Finset.eq_of_subset_of_card_le hgen'.received_sub ?_, hcomm⟩
          rw [Finset.card_range, Finset.card_insert_of_notMem hnew, hcard]
          omega
      · rw [hself, ← hnd]
        dsimp only
        rw [hcert]
        -- the deal of `j` adds no response to the deal of `q0`
        simp only [Certified, D', Finset.mem_insert, Prod.mk.injEq, hgen.participants]
        constructor
        · exact fun hc v hv => Or.inr (Or.inr (hc v hv))
        · intro hc v hv
          rcases hc v hv with ⟨h1, -⟩ | ⟨h1, -⟩ | h1
          · exact absurd h1.symm hjq
          · exact absurd h1.symm hjq
          · exact h1
    · intro d v hrd hvq hvd
      rw [hsent]
      rcases (hrec q d v).mp hrd with hrd | ⟨-, hd, hv | hv⟩
      · exact Finset.mem_insert_of_mem (hinv.recorded_sent d v hrd hvq hvd)
      · exact absurd hv hvq
      · exact absurd (hv.trans hd.symm) hvd
    · intro i hi hiq
      rw [Ne, hstart]
      rcases (hdealt q i).mp hi with hi | ⟨-, rfl⟩
      · exact hinv.dealt_started i hi hiq
      · exact hjs
    · intro i hi
      rw [hcm]
      rw [hcmd] at hi
      exact hinv.committed_commit i hi
    · intro hq0'
      obtain ⟨-, -, hnw⟩ := hinv.queue hq0'
      rw [hself, ← hnd]
      dsimp only
      rw [hnw (by rw [hpc]; exact DispatchPc.noConfusion)]
      exact ⟨fun c hc => absurd hc List.not_mem_nil, List.nodup_nil, fun _ => rfl⟩
    · intro _ _ h'
      rw [hself, hpc'] at h'
      split_ifs at h'
    · intro _ _ h'
      rw [hself, hpc'] at h'
      split_ifs at h'
  · refine nodeInv_other _ (h.node q hq) hq' ⟨fun _ => ?_, fun i hi => ?_, fun h' => ?_, fun h' => ?_, fun h' => ?_⟩
    · rw [hpc']
      split_ifs <;> exact DispatchPc.noConfusion
    · have h'' := (hdealt q0 i).mpr (Or.inl hi)
      rwa [Function.update_self] at h''
    · rwa [← hnd]
    · rw [hpc] at h'
      cases h'
    · rw [hpc] at h'
      simp at h'

end DealStep

/-! ## A response -/

/-- Recording more responses keeps a deal certified. -/
theorem certified_of_subset {D D' : Record} {d : ℕ} (h : Certified D d)
    (hp : D'.participants = D.participants) (hs : D.responses ⊆ D'.responses) : Certified D' d :=
  fun v hv => hs (h v (hp ▸ hv))

theorem respConsumed_next {n k : ℕ} (hk : k < n * (n - 1)) :
    respConsumed n (if k + 1 < n * (n - 1) then .response (k + 1) else .secretCommit 0) = k + 1 := by
  split_ifs with hk1
  · rfl
  · show n * (n - 1) = k + 1
    omega

section ResponseStep

variable [DecidableEq K] {n : ℕ} {key : ℕ → K} {W : Bool}

/-- The node's own response: refused by the generator, it only moves the
loop on. -/
theorem dkgInv_ownResponse (hn : 2 ≤ n) {s : DkgSys K Record} (h : DkgInv n key W s) {q0 : ℕ} {r : Response}
    (hp : ⟨q0, .response r⟩ ∈ s.net) (hv : r.verifier = q0) {nd' : DkgNode K Record} {out : List (Packet K)}
    (hr : receive n key Record.methods q0 (s.node q0) (.response r) = some (nd', out)) :
    DkgInv n key W ⟨Function.update s.node q0 nd', s.net.erase ⟨q0, .response r⟩ ++ out⟩ := by
  obtain ⟨hq0, hs, -⟩ := h.net.pending _ hp
  obtain ⟨k, hpc⟩ := pc_of_receive_response hr
  have hinv := h.node q0 hq0
  obtain ⟨D, hD, hgen, hpub, hstage, hcert⟩ := hinv.gen (by rw [hpc]; exact DispatchPc.noConfusion)
  rw [hpc] at hstage
  obtain ⟨hk, hrecv, hcomm⟩ := hstage
  have hd : r.dealer ∈ D.received := by
    rw [hrecv]
    exact Finset.mem_range.mpr (mem_sentResponses.mp hs).1
  have hheld : (r.dealer, r.verifier) ∈ D.responses := by
    rw [hv]
    exact (hgen.responses_of_received _ hd).1
  rw [receive_response_of_mem (by omega) hpc hD (by rw [hpub, length_fullPublics]) hd hheld,
    Option.some.injEq, Prod.mk.injEq] at hr
  obtain ⟨hnd, rfl⟩ := hr
  have hpc' : nd'.pc = if k + 1 < n * (n - 1) then .response (k + 1) else .secretCommit 0 := by rw [← hnd]
  have hdkg' : nd'.dkg = some D := by rw [← hnd, hD]
  -- only the place of `q0` in `Dispatch` changes
  have hclass : ∀ c : DispatchPc, c = .startDeal ∨ c = .returned none ∨ c = .waitReply →
      (nd'.pc = c ↔ (s.node q0).pc = c) := by
    rintro c (rfl | rfl | rfl) <;> rw [hpc', hpc] <;> split_ifs <;> simp
  have hstart : ∀ i, (Function.update s.node q0 nd' i).pc = .startDeal ↔ (s.node i).pc = .startDeal :=
    update_view_iff (fun nd => nd.pc = .startDeal) (hclass _ (Or.inl rfl))
  have hdone : ∀ c, (Function.update s.node q0 nd' c).pc = .returned none ↔ (s.node c).pc = .returned none :=
    update_view_iff (fun nd => nd.pc = .returned none) (hclass _ (Or.inr (Or.inl rfl)))
  have hroot : (Function.update s.node q0 nd' 0).pc = .waitReply ↔ (s.node 0).pc = .waitReply :=
    update_view_iff (fun nd => nd.pc = .waitReply) (hclass _ (Or.inr (Or.inr rfl))) 0
  obtain ⟨hdealt, hrec, hsent, hcm, hcmd⟩ := views_of_same_dkg (n := n)
    (show nd'.dkg = (s.node q0).dkg by rw [← hnd]) (show nd'.commit = (s.node q0).commit by rw [← hnd])
  have hqueue : (Function.update s.node q0 nd' 0).waitReplies = (s.node 0).waitReplies :=
    update_view_eq DkgNode.waitReplies (by rw [← hnd]) 0
  have hkeep : ∀ p, Pending n key W (Function.update s.node q0 nd') p ↔ Pending n key W s.node p := by
    rintro ⟨q, m⟩
    cases m with
    | startDeal ps t => exact pending_startDeal_congr hstart q ps t
    | deal dd => exact pending_deal_congr hstart hdealt q dd
    | response r' => exact pending_response_congr hsent (fun q d v _ => hrec q d v) q r'
    | secretCommit sc => exact pending_secretCommit_congr hcm hcmd q sc
    | waitSetup => exact pending_waitSetup_congr hdone hroot q
    | waitReply c => exact pending_waitReply_congr hdone hqueue q c
  have hnet : NetInv n key W ⟨Function.update s.node q0 nd', s.net.erase ⟨q0, .response r⟩ ++ []⟩ := by
    refine netInv_step h.net (fun p hpend _ => (hkeep p).mpr hpend) (fun p hpend hown => ?_) ?_ ?_ ?_
    · -- an own response is not the packet of another kind
      refine Or.inl ⟨(hkeep p).mp hpend, fun heq => ?_⟩
      rw [heq] at hown
      simp [Packet.isOwnResponse, hv] at hown
    · intro p hp'
      cases hp'
    · exact List.nodup_nil
    · intro q hq
      exact count_step_take h.net hp hpc (by rw [hpc']; exact respConsumed_next hk) hq List.countP_nil hsent
  refine ⟨hnet, fun q hq => ?_⟩
  rcases eq_or_ne q q0 with rfl | hq'
  · -- the node that took its own response
    have hself : Function.update s.node q nd' q = nd' := Function.update_self _ _ _
    obtain ⟨hrs, hds, hcc⟩ := hinv.records_of_views hsent (hrec q) hstart (hdealt q) hcm (hcmd q)
    refine ⟨?_, ?_, ?_, ?_, ?_, ?_, ?_, ?_, ?_⟩ <;> dsimp only
    · rw [hself, ← hnd]
      exact hinv.wait
    · intro h'
      rw [hself, hpc'] at h'
      split_ifs at h'
    · intro _
      refine ⟨D, by rw [hself, hdkg'], hgen, by rw [hself, ← hnd]; exact hpub, ?_, by rw [hself, ← hnd]; exact hcert⟩
      rw [hself, hpc']
      split_ifs with hk1
      · exact ⟨hk1, hrecv, hcomm⟩
      · -- the last response: the node holds every response
        have hcons : respConsumed n (Function.update s.node q nd' q).pc = n * (n - 1) := by
          rw [hself, hpc', respConsumed_next hk]
          omega
        obtain ⟨-, hall⟩ := recorded_of_consumed hnet hq hcons
        refine ⟨by omega, hrecv, complete_of_recorded hgen hrecv fun d v hd hv hdv hvq => ?_, by rw [hcomm]; rfl⟩
        have h' := hall d v hd hv hdv hvq
        dsimp only at h'
        rwa [hself, DkgNode.recorded_of_dkg hdkg', decide_eq_true_eq] at h'
    · exact hrs
    · exact hds
    · exact hcc
    · intro hq0'
      obtain ⟨-, -, hnw⟩ := hinv.queue hq0'
      rw [hself, ← hnd]
      dsimp only
      rw [hnw (by rw [hpc]; exact DispatchPc.noConfusion)]
      exact ⟨fun c hc => absurd hc List.not_mem_nil, List.nodup_nil, fun _ => rfl⟩
    · intro _ _ h'
      rw [hself, hpc'] at h'
      split_ifs at h'
    · intro _ _ h'
      rw [hself, hpc'] at h'
      split_ifs at h'
  · refine nodeInv_other _ (h.node q hq) hq' ⟨fun _ => ?_, fun i hi => ?_, fun h' => ?_, fun h' => ?_, fun h' => ?_⟩
    · rw [hpc']
      split_ifs <;> exact DispatchPc.noConfusion
    · have h'' := hdealt q0 i
      rwa [Function.update_self, hi] at h''
    · rwa [← hnd]
    · rw [hpc] at h'
      cases h'
    · rw [hpc] at h'
      simp at h'

end ResponseStep

section ForeignResponseStep

variable [DecidableEq K] {n : ℕ} {key : ℕ → K} {W : Bool}

/-- The response of another verifier: recorded, and once the node's own deal
is certified, its commitments sent to every node, the first time only. -/
theorem dkgInv_response (hn : 2 ≤ n) {s : DkgSys K Record} (h : DkgInv n key W s) {q0 : ℕ} {r : Response}
    (hp : ⟨q0, .response r⟩ ∈ s.net) (hv : r.verifier ≠ q0) {nd' : DkgNode K Record} {out : List (Packet K)}
    (hr : receive n key Record.methods q0 (s.node q0) (.response r) = some (nd', out)) :
    DkgInv n key W ⟨Function.update s.node q0 nd', s.net.erase ⟨q0, .response r⟩ ++ out⟩ := by
  obtain ⟨hq0, hs, hrv⟩ := h.net.pending _ hp
  obtain ⟨k, hpc⟩ := pc_of_receive_response hr
  have hinv := h.node q0 hq0
  obtain ⟨D, hD, hgen, hpub, hstage, hcert⟩ := hinv.gen (by rw [hpc]; exact DispatchPc.noConfusion)
  rw [hpc] at hstage
  obtain ⟨hk, hrecv, hcomm⟩ := hstage
  obtain ⟨hdn, hvn, -, -⟩ := mem_sentResponses.mp hs
  have hd : r.dealer ∈ D.received := by
    rw [hrecv]
    exact Finset.mem_range.mpr hdn
  have hnew : (r.dealer, r.verifier) ∉ D.responses := by
    have h' := hrv hv
    rw [DkgNode.recorded_of_dkg hD] at h'
    simpa using h'
  rw [receive_response_of_notMem (by omega) hpc hD (by rw [hpub, length_fullPublics]) hd hnew,
    Option.some.injEq, Prod.mk.injEq, hgen.index] at hr
  obtain ⟨hnd, hout⟩ := hr
  set D' : Record :=
    ⟨D.participants, q0, D.t, D.received, insert (r.dealer, r.verifier) D.responses, D.commitments⟩ with hD'def
  have hpc' : nd'.pc = if k + 1 < n * (n - 1) then .response (k + 1) else .secretCommit 0 := by rw [← hnd]
  have hdkg' : nd'.dkg = some D' := by rw [← hnd]
  have hcommit' : nd'.commit = ((s.node q0).commit || decide (Certified D' q0)) := by rw [← hnd]
  -- what the step changes: `q0` records the response, and its commitment flag may be set
  have hclass : ∀ c : DispatchPc, c = .startDeal ∨ c = .returned none ∨ c = .waitReply →
      (nd'.pc = c ↔ (s.node q0).pc = c) := by
    rintro c (rfl | rfl | rfl) <;> rw [hpc', hpc] <;> split_ifs <;> simp
  have hstart : ∀ i, (Function.update s.node q0 nd' i).pc = .startDeal ↔ (s.node i).pc = .startDeal :=
    update_view_iff (fun nd => nd.pc = .startDeal) (hclass _ (Or.inl rfl))
  have hdone : ∀ c, (Function.update s.node q0 nd' c).pc = .returned none ↔ (s.node c).pc = .returned none :=
    update_view_iff (fun nd => nd.pc = .returned none) (hclass _ (Or.inr (Or.inl rfl)))
  have hroot : (Function.update s.node q0 nd' 0).pc = .waitReply ↔ (s.node 0).pc = .waitReply :=
    update_view_iff (fun nd => nd.pc = .waitReply) (hclass _ (Or.inr (Or.inr rfl))) 0
  have hdealt : ∀ q i, (Function.update s.node q0 nd' q).dealt i = (s.node q).dealt i := fun q =>
    congrFun (update_view_eq DkgNode.dealt
      (funext fun i => by rw [DkgNode.dealt_of_dkg hdkg', DkgNode.dealt_of_dkg hD]) q)
  have hsent : sentResponses n (Function.update s.node q0 nd') = sentResponses n s.node :=
    sentResponses_congr fun v d _ => hdealt v d
  have hrec : ∀ q d v, (Function.update s.node q0 nd' q).recorded d v = true ↔
      (s.node q).recorded d v = true ∨ (q = q0 ∧ d = r.dealer ∧ v = r.verifier) := by
    intro q d v
    refine update_view_iff_or (fun nd => nd.recorded d v = true) ?_ q
    rw [DkgNode.recorded_of_dkg hdkg', DkgNode.recorded_of_dkg hD]
    simp only [D', decide_eq_true_eq, Finset.mem_insert, Prod.mk.injEq]
    tauto
  have hcm : ∀ i, (Function.update s.node q0 nd' i).commit = true ↔
      (s.node i).commit = true ∨ (i = q0 ∧ Certified D' q0) :=
    update_view_iff_or (fun nd => nd.commit = true) (by rw [hcommit']; simp)
  have hcmd : ∀ q i, (Function.update s.node q0 nd' q).committed i = (s.node q).committed i := fun q =>
    congrFun (update_view_eq DkgNode.committed
      (funext fun i => by rw [DkgNode.committed_of_dkg hdkg', DkgNode.committed_of_dkg hD]) q)
  have hqueue : (Function.update s.node q0 nd' 0).waitReplies = (s.node 0).waitReplies :=
    update_view_eq DkgNode.waitReplies (by rw [← hnd]) 0
  have hnet : NetInv n key W ⟨Function.update s.node q0 nd', s.net.erase ⟨q0, .response r⟩ ++ out⟩ := by
    refine netInv_step h.net ?_ ?_ ?_ ?_ ?_
    · rintro ⟨q, m⟩ hpend hne
      cases m with
      | startDeal ps t => exact (pending_startDeal_congr hstart q ps t).mpr hpend
      | deal dd => exact (pending_deal_congr hstart hdealt q dd).mpr hpend
      | response r' =>
          obtain ⟨hq, hs', hrv'⟩ := hpend
          refine ⟨hq, by rw [hsent]; exact hs', fun hv' => Bool.eq_false_iff.mpr fun h' => ?_⟩
          rcases (hrec q r'.dealer r'.verifier).mp h' with h' | ⟨rfl, hd', hv''⟩
          · rw [hrv' hv'] at h'
            cases h'
          · apply hne
            show (⟨q, .response ⟨r'.dealer, r'.verifier⟩⟩ : Packet K) = ⟨q, .response ⟨r.dealer, r.verifier⟩⟩
            rw [hd', hv'']
      | secretCommit sc =>
          obtain ⟨hq, hsc, hcsc, hcmsc⟩ := hpend
          exact ⟨hq, hsc, (hcm _).mpr (Or.inl hcsc), by rw [hcmd]; exact hcmsc⟩
      | waitSetup => exact (pending_waitSetup_congr hdone hroot q).mpr hpend
      | waitReply c => exact (pending_waitReply_congr hdone hqueue q c).mpr hpend
    · rintro ⟨q, m⟩ hpend hown
      cases m with
      | startDeal ps t => exact Or.inl ⟨(pending_startDeal_congr hstart q ps t).mp hpend, by simp⟩
      | deal dd => exact Or.inl ⟨(pending_deal_congr hstart hdealt q dd).mp hpend, by simp⟩
      | response r' =>
          obtain ⟨hq, hs', hrv'⟩ := hpend
          rw [hsent] at hs'
          refine Or.inl ⟨⟨hq, hs', fun hv' => Bool.eq_false_iff.mpr fun h' => ?_⟩, fun heq => ?_⟩
          · have h'' := (hrec q _ _).mpr (Or.inl h')
            rw [hrv' hv'] at h''
            cases h''
          · -- the response taken is recorded now
            simp only [Packet.mk.injEq, Msg.response.injEq] at heq
            obtain ⟨rfl, rfl⟩ := heq
            have h'' := (hrec q r'.dealer r'.verifier).mpr (Or.inr ⟨rfl, rfl, rfl⟩)
            rw [hrv' hv] at h''
            cases h''
      | secretCommit sc =>
          obtain ⟨hq, hsc, hcsc, hcmsc⟩ := hpend
          rw [hcmd] at hcmsc
          rcases (hcm _).mp hcsc with hcsc | ⟨rfl, hc⟩
          · exact Or.inl ⟨⟨hq, hsc, hcsc, hcmsc⟩, by simp⟩
          · -- the commitments of `q0`, sent in this step unless they were before
            cases hold : (s.node sc.dealer).commit
            · right
              rw [← hout, if_pos ⟨hc, hold⟩, mem_fullBroadcast (by omega)]
              exact ⟨hq, rfl⟩
            · exact Or.inl ⟨⟨hq, hsc, hold, hcmsc⟩, by simp⟩
      | waitSetup => exact Or.inl ⟨(pending_waitSetup_congr hdone hroot q).mp hpend, by simp⟩
      | waitReply c => exact Or.inl ⟨(pending_waitReply_congr hdone hqueue q c).mp hpend, by simp⟩
    · intro p hp'
      rw [← hout] at hp'
      split_ifs at hp' with hflip
      · rw [mem_fullBroadcast (by omega)] at hp'
        obtain ⟨q, m⟩ := p
        obtain ⟨hq, rfl⟩ := hp'
        refine ⟨⟨hq, hq0, (hcm q0).mpr (Or.inr ⟨rfl, hflip.1⟩), ?_⟩, fun hpend => ?_⟩
        · -- no node holds commitments that were not sent
          rw [hcmd]
          cases hcq : (s.node q).committed q0
          · rfl
          · have h' := (h.node q hq).committed_commit q0 hcq
            rw [hflip.2] at h'
            cases h'
        · have h' := hpend.2.2.1
          dsimp only at h'
          rw [hflip.2] at h'
          cases h'
      · cases hp'
    · rw [← hout]
      split_ifs
      · exact nodup_fullBroadcast (by omega) _
      · exact List.nodup_nil
    · intro q hq
      have hout0 : out.countP (Packet.isResponseTo q) = 0 := by
        rw [← hout, List.countP_eq_zero]
        intro p hp'
        split_ifs at hp'
        · rw [mem_fullBroadcast (by omega)] at hp'
          obtain ⟨q', m⟩ := p
          obtain ⟨-, rfl⟩ := hp'
          simp [Packet.isResponseTo]
        · cases hp'
      exact count_step_take h.net hp hpc (by rw [hpc']; exact respConsumed_next hk) hq hout0 hsent
  have hgen' : GenFacts n q0 D' := by
    have h' := hgen.response hdn hvn
    rwa [hgen.index] at h'
  refine ⟨hnet, fun q hq => ?_⟩
  rcases eq_or_ne q q0 with rfl | hq'
  · -- the node that took the response
    have hself : Function.update s.node q nd' q = nd' := Function.update_self _ _ _
    refine ⟨?_, ?_, ?_, ?_, ?_, ?_, ?_, ?_, ?_⟩ <;> dsimp only
    · rw [hself, ← hnd]
      exact hinv.wait
    · intro h'
      rw [hself, hpc'] at h'
      split_ifs at h'
    · intro _
      refine ⟨D', by rw [hself, hdkg'], hgen', by rw [hself, ← hnd]; exact hpub, ?_, ?_⟩
      · rw [hself, hpc']
        split_ifs with hk1
        · exact ⟨hk1, hrecv, hcomm⟩
        · -- the last response: the node holds every response
          have hcons : respConsumed n (Function.update s.node q nd' q).pc = n * (n - 1) := by
            rw [hself, hpc', respConsumed_next hk]
            omega
          obtain ⟨-, hall⟩ := recorded_of_consumed hnet hq hcons
          refine ⟨by omega, hrecv, complete_of_recorded hgen' hrecv fun d v hd hv hdv hvq => ?_,
            by rw [hcomm]; rfl⟩
          have h' := hall d v hd hv hdv hvq
          dsimp only at h'
          rwa [hself, DkgNode.recorded_of_dkg hdkg', decide_eq_true_eq] at h'
      · -- the flag is set exactly when the own deal is certified
        rw [hself, hcommit', Bool.or_eq_true, decide_eq_true_eq, hcert]
        exact ⟨fun hc => hc.elim (fun hc => certified_of_subset hc rfl (Finset.subset_insert _ _)) id, Or.inr⟩
    · intro d v hrd hvq hvd
      rw [hsent]
      rcases (hrec q d v).mp hrd with hrd | ⟨-, rfl, rfl⟩
      · exact hinv.recorded_sent _ _ hrd hvq hvd
      · exact hs
    · intro i hi hiq
      rw [Ne, hstart]
      rw [hdealt] at hi
      exact hinv.dealt_started i hi hiq
    · intro i hi
      rw [hcmd] at hi
      exact (hcm i).mpr (Or.inl (hinv.committed_commit i hi))
    · intro hq0'
      obtain ⟨-, -, hnw⟩ := hinv.queue hq0'
      rw [hself, ← hnd]
      dsimp only
      rw [hnw (by rw [hpc]; exact DispatchPc.noConfusion)]
      exact ⟨fun c hc => absurd hc List.not_mem_nil, List.nodup_nil, fun _ => rfl⟩
    · intro _ _ h'
      rw [hself, hpc'] at h'
      split_ifs at h'
    · intro _ _ h'
      rw [hself, hpc'] at h'
      split_ifs at h'
  · refine nodeInv_other _ (h.node q hq) hq' ⟨fun _ => ?_, fun i hi => ?_, fun h' => ?_, fun h' => ?_, fun h' => ?_⟩
    · rw [hpc']
      split_ifs <;> exact DispatchPc.noConfusion
    · have h'' := hdealt q0 i
      rwa [Function.update_self, hi] at h''
    · rw [hcommit', h']
      rfl
    · rw [hpc] at h'
      cases h'
    · rw [hpc] at h'
      simp at h'

end ForeignResponseStep

/-! ## Secret commitments -/

section SecretCommitStep

variable [DecidableEq K] {n : ℕ} {key : ℕ → K} {W : Bool}

omit [DecidableEq K] in
/-- Without `o.Wait` no `WaitSetup` or `WaitReply` is ever pending. -/
theorem not_pending_wait (hW : W = false) (node : ℕ → DkgNode K Record) (q : ℕ) :
    ¬ Pending n key W node ⟨q, .waitSetup⟩ ∧ ∀ c, ¬ Pending n key W node ⟨q, .waitReply c⟩ := by
  subst hW
  exact ⟨fun h => Bool.noConfusion h.1, fun c h => Bool.noConfusion h.2.1⟩

/-- The commitments of a certified dealer: recorded; after the last, the
root sends `WaitSetup` to its children when `o.Wait`. -/
theorem dkgInv_secretCommit (hn : 2 ≤ n) {s : DkgSys K Record} (h : DkgInv n key W s) {q0 : ℕ}
    {sc : SecretCommits} (hp : ⟨q0, .secretCommit sc⟩ ∈ s.net) {nd' : DkgNode K Record} {out : List (Packet K)}
    (hr : receive n key Record.methods q0 (s.node q0) (.secretCommit sc) = some (nd', out)) :
    DkgInv n key W ⟨Function.update s.node q0 nd', s.net.erase ⟨q0, .secretCommit sc⟩ ++ out⟩ := by
  obtain ⟨hq0, hjn, hcj, hcmj⟩ := h.net.pending _ hp
  obtain ⟨k, hpc⟩ := pc_of_receive_secretCommit hr
  have hinv := h.node q0 hq0
  obtain ⟨D, hD, hgen, hpub, hstage, hcert⟩ := hinv.gen (by rw [hpc]; exact DispatchPc.noConfusion)
  rw [hpc] at hstage
  obtain ⟨hk, hrecv, hcompl, hcard⟩ := hstage
  have hjr : sc.dealer ∈ D.received := by
    rw [hrecv]
    exact Finset.mem_range.mpr hjn
  have hjnew : sc.dealer ∉ D.commitments := by
    rw [DkgNode.committed_of_dkg hD] at hcmj
    simpa using hcmj
  rw [receive_secretCommit hpc hD hjr (fun v hv => hcompl _ hjn v (hgen.participants ▸ hv)),
    Option.some.injEq] at hr
  set j := sc.dealer with hjdef
  set D' : Record := { D with commitments := insert j D.commitments } with hD'def
  have hgen' : GenFacts n q0 D' := hgen.commit hjn
  have hcompl' : Complete n D' := hcompl
  have hcard' : D'.commitments.card = k + 1 := by rw [Finset.card_insert_of_notMem hjnew, hcard]
  have hall : k + 1 = n → D'.commitments = Finset.range n := fun hkn =>
    Finset.eq_of_subset_of_card_le hgen'.commitments_sub (by rw [Finset.card_range, hcard', hkn])
  have hfin : k + 1 = n → D'.finished = true := finished_recordCommits hgen hcompl hcard hjn hjnew
  obtain ⟨hnd, hexit⟩ := enterSecretCommits_cases
    (by exact (congrArg List.length hpub).trans length_fullPublics) rfl hk hfin hr
  have hdkg' : nd'.dkg = some D' := by rw [hnd]
  have hcommit' : nd'.commit = (s.node q0).commit := by rw [hnd]
  have hwait' : nd'.wait = (s.node q0).wait := by rw [hnd]
  have hqueue' : nd'.waitReplies = (s.node q0).waitReplies := by rw [hnd]
  have hpub' : nd'.publics = (s.node q0).publics := by rw [hnd]
  have hnotstart : nd'.pc ≠ .startDeal := hexit.pc_ne_startDeal
  -- what the step changes: `q0` records the commitments of `j`, and may leave the loop
  have hstart : ∀ i, (Function.update s.node q0 nd' i).pc = .startDeal ↔ (s.node i).pc = .startDeal :=
    update_view_iff (fun nd => nd.pc = .startDeal) (by rw [hpc]; simp [hnotstart])
  have hdealt : ∀ q i, (Function.update s.node q0 nd' q).dealt i = (s.node q).dealt i := fun q =>
    congrFun (update_view_eq DkgNode.dealt
      (funext fun i => by rw [DkgNode.dealt_of_dkg hdkg', DkgNode.dealt_of_dkg hD]) q)
  have hrec : ∀ q d v, (Function.update s.node q0 nd' q).recorded d v = (s.node q).recorded d v :=
    fun q d => congrFun (congrFun (update_view_eq DkgNode.recorded
      (funext fun d => funext fun v => by rw [DkgNode.recorded_of_dkg hdkg', DkgNode.recorded_of_dkg hD]) q) d)
  have hsent : sentResponses n (Function.update s.node q0 nd') = sentResponses n s.node :=
    sentResponses_congr fun v d _ => hdealt v d
  have hcm : ∀ i, (Function.update s.node q0 nd' i).commit = (s.node i).commit :=
    update_view_eq DkgNode.commit hcommit'
  have hcmd : ∀ q i, (Function.update s.node q0 nd' q).committed i = true ↔
      (s.node q).committed i = true ∨ (q = q0 ∧ i = j) := by
    intro q i
    refine update_view_iff_or (fun nd => nd.committed i = true) ?_ q
    rw [DkgNode.committed_of_dkg hdkg', DkgNode.committed_of_dkg hD]
    simp [D', or_comm]
  have hqueue : (Function.update s.node q0 nd' 0).waitReplies = (s.node 0).waitReplies :=
    update_view_eq DkgNode.waitReplies hqueue' 0
  have hdone_of : nd'.pc ≠ .returned none →
      ∀ c, (Function.update s.node q0 nd' c).pc = .returned none ↔ (s.node c).pc = .returned none :=
    fun h' => update_view_iff (fun nd => nd.pc = .returned none) (by rw [hpc]; simp [h'])
  have hroot_of : nd'.pc ≠ .waitReply →
      ((Function.update s.node q0 nd' 0).pc = .waitReply ↔ (s.node 0).pc = .waitReply) :=
    fun h' => update_view_iff (fun nd => nd.pc = .waitReply) (by rw [hpc]; simp [h']) 0
  have hWfalse : (s.node q0).wait = false → W = false := fun hw => by rw [← hinv.wait, hw]
  -- the `WaitSetup`s: sent by the root as it leaves the loop
  have hwsc : nd'.pc ≠ .returned none → nd'.pc ≠ .waitReply → ∀ q,
      Pending n key W (Function.update s.node q0 nd') ⟨q, .waitSetup⟩ ↔ Pending n key W s.node ⟨q, .waitSetup⟩ :=
    fun h1 h2 => pending_waitSetup_congr (hdone_of h1) (hroot_of h2)
  have hws : ∀ q, (Pending n key W s.node ⟨q, .waitSetup⟩ →
        Pending n key W (Function.update s.node q0 nd') ⟨q, .waitSetup⟩) ∧
      (Pending n key W (Function.update s.node q0 nd') ⟨q, .waitSetup⟩ →
        Pending n key W s.node ⟨q, .waitSetup⟩ ∨ (⟨q, .waitSetup⟩ : Packet K) ∈ out) := by
    intro q
    rcases hexit with ⟨-, h', -⟩ | ⟨-, -, rfl, -, rfl⟩ | ⟨-, -, -, h', -⟩ | ⟨-, hw, -, -⟩
    · have hc := hwsc (by rw [h']; exact DispatchPc.noConfusion) (by rw [h']; exact DispatchPc.noConfusion) q
      exact ⟨hc.mpr, fun hp' => Or.inl (hc.mp hp')⟩
    · refine ⟨fun hp' => absurd hp'.2.2.2.1 (by simp [RootPastCommits, hpc]), fun hp' => Or.inr ?_⟩
      obtain ⟨-, hq', hqn, -, -⟩ := hp'
      exact List.mem_map.mpr ⟨q, mem_childIndices.mpr ⟨hq', hqn⟩, rfl⟩
    · have hc := hwsc (by rw [h']; exact DispatchPc.noConfusion) (by rw [h']; exact DispatchPc.noConfusion) q
      exact ⟨hc.mpr, fun hp' => Or.inl (hc.mp hp')⟩
    · exact ⟨fun hp' => absurd hp' (not_pending_wait (hWfalse hw) _ q).1,
        fun hp' => absurd hp' (not_pending_wait (hWfalse hw) _ q).1⟩
  have hwr : ∀ q c, Pending n key W (Function.update s.node q0 nd') ⟨q, .waitReply c⟩ ↔
      Pending n key W s.node ⟨q, .waitReply c⟩ := by
    intro q c
    cases hw : (s.node q0).wait
    · -- without `o.Wait` no `WaitReply` is ever pending
      exact iff_of_false ((not_pending_wait (hWfalse hw) _ q).2 c) ((not_pending_wait (hWfalse hw) _ q).2 c)
    · exact pending_waitReply_congr (hdone_of (hexit.pc_ne_returned hw)) hqueue q c
  have hnet : NetInv n key W ⟨Function.update s.node q0 nd', s.net.erase ⟨q0, .secretCommit sc⟩ ++ out⟩ := by
    refine netInv_step h.net ?_ ?_ ?_ ?_ ?_
    · rintro ⟨q, m⟩ hpend hne
      cases m with
      | startDeal ps t => exact (pending_startDeal_congr hstart q ps t).mpr hpend
      | deal dd => exact (pending_deal_congr hstart hdealt q dd).mpr hpend
      | response r => exact (pending_response_congr hsent (fun q d v _ => hrec q d v) q r).mpr hpend
      | secretCommit sc' =>
          obtain ⟨hq, hsc, hcsc, hcmsc⟩ := hpend
          refine ⟨hq, hsc, by rw [hcm]; exact hcsc, Bool.eq_false_iff.mpr fun h' => ?_⟩
          rcases (hcmd q sc'.dealer).mp h' with h' | ⟨rfl, h2⟩
          · rw [hcmsc] at h'
            cases h'
          · apply hne
            show (⟨q, .secretCommit ⟨sc'.dealer⟩⟩ : Packet K) = ⟨q, .secretCommit ⟨sc.dealer⟩⟩
            rw [h2]
      | waitSetup => exact (hws q).1 hpend
      | waitReply c => exact (hwr q c).mpr hpend
    · rintro ⟨q, m⟩ hpend hown
      cases m with
      | startDeal ps t => exact Or.inl ⟨(pending_startDeal_congr hstart q ps t).mp hpend, by simp⟩
      | deal dd => exact Or.inl ⟨(pending_deal_congr hstart hdealt q dd).mp hpend, by simp⟩
      | response r =>
          exact Or.inl ⟨(pending_response_congr hsent (fun q d v _ => hrec q d v) q r).mp hpend, by simp⟩
      | secretCommit sc' =>
          obtain ⟨hq, hsc, hcsc, hcmsc⟩ := hpend
          refine Or.inl ⟨⟨hq, hsc, by rw [← hcm]; exact hcsc, Bool.eq_false_iff.mpr fun h' => ?_⟩, fun heq => ?_⟩
          · have h'' := (hcmd q _).mpr (Or.inl h')
            rw [hcmsc] at h''
            cases h''
          · simp only [Packet.mk.injEq, Msg.secretCommit.injEq] at heq
            have h'' := (hcmd q sc'.dealer).mpr (Or.inr ⟨heq.1, by rw [heq.2]⟩)
            rw [hcmsc] at h''
            cases h''
      | waitSetup => exact ((hws q).2 hpend).imp (fun hp' => ⟨hp', by simp⟩) id
      | waitReply c => exact Or.inl ⟨(hwr q c).mp hpend, by simp⟩
    · intro p hp'
      -- the root's `WaitSetup` to a child, which has not returned
      obtain ⟨rfl, hw, h', c, hc0, hcn, rfl⟩ := hexit.mem_out hp'
      have hW : W = true := by rw [← hinv.wait, hw]
      refine ⟨⟨hW, hc0, hcn, Or.inl (by rw [Function.update_self, h']), ?_⟩, fun hp'' => ?_⟩
      · rw [Function.update_of_ne hc0]
        intro hcd
        have h'' := (h.node c hcn).child_done hc0 hW hcd
        simp [RootPastCommits, hpc] at h''
      · have h'' := hp''.2.2.2.1
        simp [RootPastCommits, hpc] at h''
    · exact hexit.nodup_out
    · intro q hq
      have hcons : respConsumed n nd'.pc = respConsumed n (s.node q0).pc := by
        rw [hpc]
        exact hexit.respConsumed_eq
      exact count_step_quiet h.net hp hq rfl (hexit.countP_isResponseTo q) hsent
        (update_view_eq (fun nd => respConsumed n nd.pc) hcons q)
  refine ⟨hnet, fun q hq => ?_⟩
  rcases eq_or_ne q q0 with rfl | hq'
  · -- the node that took the commitments
    have hself : Function.update s.node q nd' q = nd' := Function.update_self _ _ _
    have hnw : q = 0 → (s.node q).waitReplies = [] := fun hq0' =>
      (hinv.queue hq0').2.2 (by rw [hpc]; exact DispatchPc.noConfusion)
    have hnotdone : W = true → nd'.pc ≠ .returned none := fun hW =>
      hexit.pc_ne_returned (hinv.wait.trans hW)
    refine ⟨?_, ?_, ?_, ?_, ?_, ?_, ?_, ?_, ?_⟩ <;> dsimp only
    · rw [hself, hwait']
      exact hinv.wait
    · intro h'
      rw [hself] at h'
      exact absurd h' hnotstart
    · intro _
      refine ⟨D', by rw [hself, hdkg'], hgen', by rw [hself, hpub']; exact hpub, ?_,
        by rw [hself, hcommit']; exact hcert⟩
      rw [hself]
      have hW : (s.node q).wait = W := hinv.wait
      rcases hexit with ⟨hk1, h', -⟩ | ⟨hkn, hw, rfl, h', -⟩ | ⟨hkn, hw, hq0', h', -⟩ | ⟨hkn, -, h', -⟩ <;>
        rw [h']
      · exact ⟨hk1, hrecv, hcompl', hcard'⟩
      · refine ⟨hW.symm.trans hw, rfl, hrecv, hcompl', hall hkn, ?_⟩
        rw [hqueue', hnw rfl, List.length_nil]
        omega
      · exact ⟨hW.symm.trans hw, hq0', hrecv, hcompl', hall hkn⟩
      · exact ⟨rfl, hrecv, hcompl', hall hkn⟩
    · intro d v hrd hvq hvd
      rw [hsent]
      rw [hrec] at hrd
      exact hinv.recorded_sent d v hrd hvq hvd
    · intro i hi hiq
      rw [Ne, hstart]
      rw [hdealt] at hi
      exact hinv.dealt_started i hi hiq
    · intro i hi
      rw [hcm]
      rcases (hcmd q i).mp hi with hi | ⟨-, rfl⟩
      · exact hinv.committed_commit i hi
      · exact hcj
    · intro hq0'
      rw [hself, hqueue', hnw hq0']
      exact ⟨fun c hc => absurd hc List.not_mem_nil, List.nodup_nil, fun _ => rfl⟩
    · intro _ hW h'
      rw [hself] at h'
      exact absurd h' (hnotdone hW)
    · intro _ hW h'
      rw [hself] at h'
      exact absurd h' (hnotdone hW)
  · refine nodeInv_other _ (h.node q hq) hq' ⟨fun _ => hnotstart, fun i hi => ?_, fun h' => ?_, fun h' => ?_,
      fun h' => ?_⟩
    · have h'' := hdealt q0 i
      rwa [Function.update_self, hi] at h''
    · rwa [hcommit']
    · rw [hpc] at h'
      cases h'
    · rw [hpc] at h'
      simp at h'

end SecretCommitStep

/-! ## `WaitSetup` and `WaitReply` -/

section WaitSteps

variable [DecidableEq K] {n : ℕ} {key : ℕ → K} {W : Bool}

/-- `WaitSetup` at a child: `Dispatch` ends and the child answers the root. -/
theorem dkgInv_waitSetup {s : DkgSys K Record} (h : DkgInv n key W s) {q0 : ℕ} (hp : ⟨q0, .waitSetup⟩ ∈ s.net)
    {nd' : DkgNode K Record} {out : List (Packet K)}
    (hr : receive n key Record.methods q0 (s.node q0) .waitSetup = some (nd', out)) :
    DkgInv n key W ⟨Function.update s.node q0 nd', s.net.erase ⟨q0, .waitSetup⟩ ++ out⟩ := by
  obtain ⟨hW, hq00, hq0, hpast, -⟩ := h.net.pending _ hp
  have hpc := pc_of_receive_waitSetup hr
  have hinv := h.node q0 hq0
  obtain ⟨D, hD, hgen, hpub, hstage, hcert⟩ := hinv.gen (by rw [hpc]; exact DispatchPc.noConfusion)
  rw [hpc] at hstage
  obtain ⟨-, -, hrecv, hcompl, hcomm⟩ := hstage
  rw [receive_waitSetup hpc, finishDispatch_of_finished hD (finished_of_stage hgen hcompl hcomm),
    Option.some.injEq, Prod.mk.injEq] at hr
  obtain ⟨hnd, rfl⟩ := hr
  have hpc' : nd'.pc = .returned none := by rw [← hnd]
  have hroot0 : Function.update s.node q0 nd' 0 = s.node 0 := Function.update_of_ne (Ne.symm hq00) _ _
  -- what the step changes: `q0` has returned
  have hstart : ∀ i, (Function.update s.node q0 nd' i).pc = .startDeal ↔ (s.node i).pc = .startDeal :=
    update_view_iff (fun nd => nd.pc = .startDeal) (by rw [hpc', hpc]; simp)
  obtain ⟨hdealt, hrec, hsent, hcm, hcmd⟩ := views_of_same_dkg (n := n)
    (show nd'.dkg = (s.node q0).dkg by rw [← hnd]) (show nd'.commit = (s.node q0).commit by rw [← hnd])
  have hdone : ∀ c, (Function.update s.node q0 nd' c).pc = .returned none ↔
      (s.node c).pc = .returned none ∨ c = q0 := by
    intro c
    rcases eq_or_ne c q0 with rfl | hc
    · simp [hpc']
    · simp [hc]
  have hpast' : RootPastCommits (Function.update s.node q0 nd') := by
    unfold RootPastCommits at hpast ⊢
    rwa [hroot0]
  have hnet : NetInv n key W ⟨Function.update s.node q0 nd', s.net.erase ⟨q0, .waitSetup⟩ ++
      [⟨0, .waitReply q0⟩]⟩ := by
    refine netInv_step h.net ?_ ?_ ?_ ?_ ?_
    · rintro ⟨q, m⟩ hpend hne
      cases m with
      | startDeal ps t => exact (pending_startDeal_congr hstart q ps t).mpr hpend
      | deal dd => exact (pending_deal_congr hstart hdealt q dd).mpr hpend
      | response r => exact (pending_response_congr hsent (fun q d v _ => hrec q d v) q r).mpr hpend
      | secretCommit sc => exact (pending_secretCommit_congr hcm (fun q j => hcmd q j) q sc).mpr hpend
      | waitSetup =>
          obtain ⟨hW', hq, hqn, -, hqd⟩ := hpend
          have hqq : q ≠ q0 := fun hqq => hne (by rw [hqq])
          exact ⟨hW', hq, hqn, hpast', by rw [Function.update_of_ne hqq]; exact hqd⟩
      | waitReply c =>
          obtain ⟨rfl, hW', hc0, hcn, hcd, hcq, hrd⟩ := hpend
          exact ⟨rfl, hW', hc0, hcn, (hdone c).mpr (Or.inl hcd), by rw [hroot0]; exact hcq,
            by rw [hroot0]; exact hrd⟩
    · rintro ⟨q, m⟩ hpend hown
      cases m with
      | startDeal ps t => exact Or.inl ⟨(pending_startDeal_congr hstart q ps t).mp hpend, by simp⟩
      | deal dd => exact Or.inl ⟨(pending_deal_congr hstart hdealt q dd).mp hpend, by simp⟩
      | response r =>
          exact Or.inl ⟨(pending_response_congr hsent (fun q d v _ => hrec q d v) q r).mp hpend, by simp⟩
      | secretCommit sc =>
          exact Or.inl ⟨(pending_secretCommit_congr hcm (fun q j => hcmd q j) q sc).mp hpend, by simp⟩
      | waitSetup =>
          obtain ⟨hW', hq, hqn, -, hqd⟩ := hpend
          have hqq : q ≠ q0 := by
            rintro rfl
            exact hqd (by rw [Function.update_self, hpc'])
          rw [Function.update_of_ne hqq] at hqd
          exact Or.inl ⟨⟨hW', hq, hqn, hpast, hqd⟩, by simp [hqq]⟩
      | waitReply c =>
          obtain ⟨rfl, hW', hc0, hcn, hcd, hcq, hrd⟩ := hpend
          rw [hroot0] at hcq hrd
          rcases (hdone c).mp hcd with hcd | rfl
          · exact Or.inl ⟨⟨rfl, hW', hc0, hcn, hcd, hcq, hrd⟩, by simp⟩
          · exact Or.inr (List.mem_singleton_self _)
    · intro p hp'
      rw [List.mem_singleton] at hp'
      subst hp'
      refine ⟨⟨rfl, hW, hq00, hq0, (hdone q0).mpr (Or.inr rfl), ?_, ?_⟩, fun hpend => ?_⟩
      · -- the root's queue holds only children that have returned
        rw [hroot0]
        intro hmem
        have h' := ((h.node 0 (by omega)).queue rfl).1 q0 hmem
        rw [hpc] at h'
        exact DispatchPc.noConfusion h'.2.2
      · -- the root has not returned while a child has not
        rw [hroot0]
        intro hrd
        have h' := (h.node 0 (by omega)).root_done rfl hW hrd q0 hq00 hq0
        rw [hpc] at h'
        exact DispatchPc.noConfusion h'
      · have h' := hpend.2.2.2.2.1
        rw [hpc] at h'
        exact DispatchPc.noConfusion h'
    · exact List.nodup_singleton _
    · intro q hq
      exact count_step_quiet h.net hp hq rfl (by simp [Packet.isResponseTo]) hsent
        (update_view_eq (fun nd => respConsumed n nd.pc) (by rw [hpc', hpc]; rfl) q)
  refine ⟨hnet, fun q hq => ?_⟩
  rcases eq_or_ne q q0 with rfl | hq'
  · -- the child that returned
    have hself : Function.update s.node q nd' q = nd' := Function.update_self _ _ _
    obtain ⟨hrs, hds, hcc⟩ := hinv.records_of_views hsent (hrec q) hstart (hdealt q) hcm (hcmd q)
    refine ⟨?_, ?_, ?_, ?_, ?_, ?_, ?_, ?_, ?_⟩ <;> dsimp only
    · rw [hself, ← hnd]
      exact hinv.wait
    · intro h'
      rw [hself, hpc'] at h'
      cases h'
    · intro _
      refine ⟨D, by rw [hself, ← hnd, hD], hgen, by rw [hself, ← hnd]; exact hpub, ?_,
        by rw [hself, ← hnd]; exact hcert⟩
      rw [hself, hpc']
      exact ⟨rfl, hrecv, hcompl, hcomm⟩
    · exact hrs
    · exact hds
    · exact hcc
    · intro hq0'
      exact absurd hq0' hq00
    · exact fun _ _ _ => hpast'
    · intro hq0'
      exact absurd hq0' hq00
  · refine nodeInv_other _ (h.node q hq) hq' ⟨fun _ => ?_, fun i hi => ?_, fun h' => ?_, fun h' => ?_,
      fun h' => ?_⟩
    · rw [hpc']
      exact DispatchPc.noConfusion
    · have h'' := hdealt q0 i
      rwa [Function.update_self, hi] at h''
    · rwa [← hnd]
    · rw [hpc] at h'
      cases h'
    · rw [hpc] at h'
      simp at h'

/-- A list without repeats of `n - 1` children of the root holds every
child: the root's queue, full, has heard from all of them. -/
theorem mem_of_children {l : List ℕ} (hnd : l.Nodup) (hsub : ∀ x ∈ l, x ≠ 0 ∧ x < n)
    (hlen : l.length = n - 1) {c : ℕ} (hc0 : c ≠ 0) (hcn : c < n) : c ∈ l := by
  have hs : l.toFinset ⊆ (Finset.range n).erase 0 := fun x hx => by
    obtain ⟨h0, hx⟩ := hsub x (List.mem_toFinset.mp hx)
    exact Finset.mem_erase.mpr ⟨h0, Finset.mem_range.mpr hx⟩
  have heq : l.toFinset = (Finset.range n).erase 0 := by
    refine Finset.eq_of_subset_of_card_le hs ?_
    rw [Finset.card_erase_of_mem (Finset.mem_range.mpr (by omega)), Finset.card_range,
      List.toFinset_card_of_nodup hnd, hlen]
  have hc : c ∈ (Finset.range n).erase 0 := Finset.mem_erase.mpr ⟨hc0, Finset.mem_range.mpr hcn⟩
  rw [← heq] at hc
  exact List.mem_toFinset.mp hc

/-- A child's `WaitReply` at the root: queued, and after the last the root
returns. -/
theorem dkgInv_waitReply {s : DkgSys K Record} (h : DkgInv n key W s) {q0 c : ℕ}
    (hp : ⟨q0, .waitReply c⟩ ∈ s.net) {nd' : DkgNode K Record} {out : List (Packet K)}
    (hr : receive n key Record.methods q0 (s.node q0) (.waitReply c) = some (nd', out)) :
    DkgInv n key W ⟨Function.update s.node q0 nd', s.net.erase ⟨q0, .waitReply c⟩ ++ out⟩ := by
  obtain ⟨rfl, hW, hc0, hcn, hcd, hcq, -⟩ := h.net.pending _ hp
  have hpc := pc_of_receive_waitReply hr
  have hinv := h.node 0 (by omega)
  obtain ⟨D, hD, hgen, hpub, hstage, hcert⟩ := hinv.gen (by rw [hpc]; exact DispatchPc.noConfusion)
  rw [hpc] at hstage
  obtain ⟨-, -, hrecv, hcompl, hcomm, hlen⟩ := hstage
  obtain ⟨hqmem, hqnd, -⟩ := hinv.queue rfl
  rw [receive_waitReply hpc, Option.some.injEq] at hr
  have hstart_of : nd'.pc ≠ .startDeal →
      ∀ i, (Function.update s.node 0 nd' i).pc = .startDeal ↔ (s.node i).pc = .startDeal :=
    fun h' => update_view_iff (fun nd => nd.pc = .startDeal) (by rw [hpc]; simp [h'])
  split_ifs at hr with hlast
  · -- the last reply: every child has returned, and so does the root
    rw [finishDispatch_of_finished (by exact hD) (finished_of_stage hgen hcompl hcomm), Prod.mk.injEq] at hr
    obtain ⟨hnd, rfl⟩ := hr
    have hpc' : nd'.pc = .returned none := by rw [← hnd]
    have hall : ∀ c', c' ≠ 0 → c' < n → c' = c ∨ c' ∈ (s.node 0).waitReplies := fun c' h0 hn' =>
      List.mem_cons.mp (mem_of_children (List.nodup_cons.mpr ⟨hcq, hqnd⟩)
        (fun x hx => (List.mem_cons.mp hx).elim (fun hx => hx ▸ ⟨hc0, hcn⟩)
          fun hx => ⟨(hqmem x hx).1, (hqmem x hx).2.1⟩)
        (by rw [List.length_cons, hlast]) h0 hn')
    have hdoneall : ∀ c', c' ≠ 0 → c' < n → (s.node c').pc = .returned none := fun c' h0 hn' =>
      (hall c' h0 hn').elim (fun h' => h' ▸ hcd) fun h' => (hqmem c' h').2.2
    have hstart := hstart_of (by rw [hpc']; exact DispatchPc.noConfusion)
    obtain ⟨hdealt, hrec, hsent, hcm, hcmd⟩ := views_of_same_dkg (n := n)
      (show nd'.dkg = (s.node 0).dkg by rw [← hnd]) (show nd'.commit = (s.node 0).commit by rw [← hnd])
    have hnet : NetInv n key W ⟨Function.update s.node 0 nd', s.net.erase ⟨0, .waitReply c⟩ ++ []⟩ := by
      refine netInv_step h.net ?_ ?_ ?_ List.nodup_nil ?_
      · rintro ⟨q, m⟩ hpend hne
        cases m with
        | startDeal ps t => exact (pending_startDeal_congr hstart q ps t).mpr hpend
        | deal dd => exact (pending_deal_congr hstart hdealt q dd).mpr hpend
        | response r => exact (pending_response_congr hsent (fun q d v _ => hrec q d v) q r).mpr hpend
        | secretCommit sc => exact (pending_secretCommit_congr hcm (fun q j => hcmd q j) q sc).mpr hpend
        | waitSetup =>
            obtain ⟨hW', hq, hqn, -, hqd⟩ := hpend
            exact ⟨hW', hq, hqn, Or.inr (by rw [Function.update_self, hpc']),
              by rw [Function.update_of_ne hq]; exact hqd⟩
        | waitReply c' =>
            -- no other reply can be in flight: every child is in the queue or is `c`
            obtain ⟨rfl, -, hc0', hcn', -, hcq', -⟩ := hpend
            rcases hall c' hc0' hcn' with rfl | hmem
            · exact absurd rfl hne
            · exact absurd hmem hcq'
      · rintro ⟨q, m⟩ hpend hown
        cases m with
        | startDeal ps t => exact Or.inl ⟨(pending_startDeal_congr hstart q ps t).mp hpend, by simp⟩
        | deal dd => exact Or.inl ⟨(pending_deal_congr hstart hdealt q dd).mp hpend, by simp⟩
        | response r =>
            exact Or.inl ⟨(pending_response_congr hsent (fun q d v _ => hrec q d v) q r).mp hpend, by simp⟩
        | secretCommit sc =>
            exact Or.inl ⟨(pending_secretCommit_congr hcm (fun q j => hcmd q j) q sc).mp hpend, by simp⟩
        | waitSetup =>
            obtain ⟨hW', hq, hqn, -, hqd⟩ := hpend
            rw [Function.update_of_ne hq] at hqd
            exact Or.inl ⟨⟨hW', hq, hqn, Or.inl hpc, hqd⟩, by simp⟩
        | waitReply c' =>
            obtain ⟨-, -, -, -, -, -, hrd'⟩ := hpend
            exact absurd (by rw [Function.update_self, hpc']) hrd'
      · intro p hp'
        cases hp'
      · intro q hq
        exact count_step_quiet h.net hp hq rfl List.countP_nil hsent
          (update_view_eq (fun nd => respConsumed n nd.pc) (by rw [hpc', hpc]; rfl) q)
    refine ⟨hnet, fun q hq => ?_⟩
    rcases eq_or_ne q 0 with rfl | hq'
    · -- the root that returned
      have hself : Function.update s.node 0 nd' 0 = nd' := Function.update_self _ _ _
      obtain ⟨hrs, hds, hcc⟩ := hinv.records_of_views hsent (hrec 0) hstart (hdealt 0) hcm (hcmd 0)
      refine ⟨?_, ?_, ?_, ?_, ?_, ?_, ?_, ?_, ?_⟩ <;> dsimp only
      · rw [hself, ← hnd]
        exact hinv.wait
      · intro h'
        rw [hself, hpc'] at h'
        cases h'
      · intro _
        refine ⟨D, by rw [hself, ← hnd, hD], hgen, by rw [hself, ← hnd]; exact hpub, ?_,
          by rw [hself, ← hnd]; exact hcert⟩
        rw [hself, hpc']
        exact ⟨rfl, hrecv, hcompl, hcomm⟩
      · exact hrs
      · exact hds
      · exact hcc
      · intro _
        rw [hself, ← hnd]
        exact ⟨fun c hc => absurd hc List.not_mem_nil, List.nodup_nil, fun _ => rfl⟩
      · intro h0
        exact absurd rfl h0
      · intro _ _ _ c' hc0' hcn'
        rw [Function.update_of_ne hc0']
        exact hdoneall c' hc0' hcn'
    · refine nodeInv_other _ (h.node q hq) hq' ⟨fun _ => ?_, fun i hi => ?_, fun h' => ?_, fun h' => ?_,
        fun _ => Or.inr hpc'⟩
      · rw [hpc']
        exact DispatchPc.noConfusion
      · have h'' := hdealt 0 i
        rwa [Function.update_self, hi] at h''
      · rwa [← hnd]
      · rw [hpc] at h'
        cases h'
  · -- a reply queued
    obtain ⟨hnd, rfl⟩ := Prod.mk.inj hr
    have hpc' : nd'.pc = .waitReply := by rw [← hnd, hpc]
    have hq' : nd'.waitReplies = c :: (s.node 0).waitReplies := by rw [← hnd]
    have hstart := hstart_of (by rw [hpc']; exact DispatchPc.noConfusion)
    obtain ⟨hdealt, hrec, hsent, hcm, hcmd⟩ := views_of_same_dkg (n := n)
      (show nd'.dkg = (s.node 0).dkg by rw [← hnd]) (show nd'.commit = (s.node 0).commit by rw [← hnd])
    have hdone : ∀ c', (Function.update s.node 0 nd' c').pc = .returned none ↔ (s.node c').pc = .returned none :=
      update_view_iff (fun nd => nd.pc = .returned none) (by rw [hpc', hpc])
    have hroot : (Function.update s.node 0 nd' 0).pc = .waitReply ↔ (s.node 0).pc = .waitReply :=
      update_view_iff (fun nd => nd.pc = .waitReply) (by rw [hpc', hpc]) 0
    have hnet : NetInv n key W ⟨Function.update s.node 0 nd', s.net.erase ⟨0, .waitReply c⟩ ++ []⟩ := by
      refine netInv_step h.net ?_ ?_ ?_ List.nodup_nil ?_
      · rintro ⟨q, m⟩ hpend hne
        cases m with
        | startDeal ps t => exact (pending_startDeal_congr hstart q ps t).mpr hpend
        | deal dd => exact (pending_deal_congr hstart hdealt q dd).mpr hpend
        | response r => exact (pending_response_congr hsent (fun q d v _ => hrec q d v) q r).mpr hpend
        | secretCommit sc => exact (pending_secretCommit_congr hcm (fun q j => hcmd q j) q sc).mpr hpend
        | waitSetup => exact (pending_waitSetup_congr hdone hroot q).mpr hpend
        | waitReply c' =>
            obtain ⟨rfl, hW', hc0', hcn', hcd', hcq', hrd'⟩ := hpend
            have hcc : c' ≠ c := fun hcc => hne (by rw [hcc])
            refine ⟨rfl, hW', hc0', hcn', (hdone c').mpr hcd', ?_, by rw [Function.update_self, hpc']; simp⟩
            rw [Function.update_self, hq', List.mem_cons]
            exact fun h' => h'.elim hcc hcq'
      · rintro ⟨q, m⟩ hpend hown
        cases m with
        | startDeal ps t => exact Or.inl ⟨(pending_startDeal_congr hstart q ps t).mp hpend, by simp⟩
        | deal dd => exact Or.inl ⟨(pending_deal_congr hstart hdealt q dd).mp hpend, by simp⟩
        | response r =>
            exact Or.inl ⟨(pending_response_congr hsent (fun q d v _ => hrec q d v) q r).mp hpend, by simp⟩
        | secretCommit sc =>
            exact Or.inl ⟨(pending_secretCommit_congr hcm (fun q j => hcmd q j) q sc).mp hpend, by simp⟩
        | waitSetup => exact Or.inl ⟨(pending_waitSetup_congr hdone hroot q).mp hpend, by simp⟩
        | waitReply c' =>
            obtain ⟨rfl, hW', hc0', hcn', hcd', hcq', -⟩ := hpend
            rw [Function.update_self, hq', List.mem_cons, not_or] at hcq'
            refine Or.inl ⟨⟨rfl, hW', hc0', hcn', (hdone c').mp hcd', hcq'.2, by rw [hpc]; simp⟩, ?_⟩
            simpa using hcq'.1
      · intro p hp'
        cases hp'
      · intro q hq
        exact count_step_quiet h.net hp hq rfl List.countP_nil hsent
          (update_view_eq (fun nd => respConsumed n nd.pc) (by rw [hpc', hpc]) q)
    refine ⟨hnet, fun q hq => ?_⟩
    rcases eq_or_ne q 0 with rfl | hq0
    · -- the root, one reply further
      have hself : Function.update s.node 0 nd' 0 = nd' := Function.update_self _ _ _
      obtain ⟨hrs, hds, hcc⟩ := hinv.records_of_views hsent (hrec 0) hstart (hdealt 0) hcm (hcmd 0)
      refine ⟨?_, ?_, ?_, ?_, ?_, ?_, ?_, ?_, ?_⟩ <;> dsimp only
      · rw [hself, ← hnd]
        exact hinv.wait
      · intro h'
        rw [hself, hpc'] at h'
        cases h'
      · intro _
        refine ⟨D, by rw [hself, ← hnd, hD], hgen, by rw [hself, ← hnd]; exact hpub, ?_,
          by rw [hself, ← hnd]; exact hcert⟩
        rw [hself, hpc']
        refine ⟨hW, rfl, hrecv, hcompl, hcomm, ?_⟩
        rw [hq', List.length_cons]
        omega
      · exact hrs
      · exact hds
      · exact hcc
      · intro _
        rw [hself, hq']
        refine ⟨fun c' hc' => ?_, List.nodup_cons.mpr ⟨hcq, hqnd⟩, fun h' => absurd hpc' h'⟩
        rcases List.mem_cons.mp hc' with rfl | hc'
        · exact ⟨hc0, hcn, by rw [Function.update_of_ne hc0]; exact hcd⟩
        · obtain ⟨h0, hn', hd'⟩ := hqmem c' hc'
          exact ⟨h0, hn', by rw [Function.update_of_ne h0]; exact hd'⟩
      · intro h0
        exact absurd rfl h0
      · intro _ _ h'
        rw [hself, hpc'] at h'
        cases h'
    · refine nodeInv_other _ (h.node q hq) hq0 ⟨fun _ => ?_, fun i hi => ?_, fun h' => ?_, fun h' => ?_,
        fun _ => Or.inl hpc'⟩
      · rw [hpc']
        exact DispatchPc.noConfusion
      · have h'' := hdealt 0 i
        rwa [Function.update_self, hi] at h''
      · rwa [← hnd]
      · rw [hpc] at h'
        cases h'

end WaitSteps

/-! ## Every step, every run -/

section Run

variable [DecidableEq K] {n : ℕ} {key : ℕ → K} {W : Bool}

/-- **Every delivery keeps the invariant**, whatever the packet. -/
theorem dkgInv_step (hn : 2 ≤ n) (hkey : ∀ i < n, ∀ j < n, key i = key j → i = j) {s s' : DkgSys K Record}
    {p : Packet K} (h : DkgInv n key W s) (hstep : DkgStep n key Record.methods s p s') : DkgInv n key W s' := by
  obtain ⟨hp, hdel⟩ := hstep
  obtain ⟨nd', out, hr, rfl⟩ := deliver_eq_some.mp hdel
  obtain ⟨q0, m⟩ := p
  cases m with
  | startDeal ps t => exact dkgInv_startDeal hn hkey h hp hr
  | deal dd => exact dkgInv_deal hn h hp hr
  | response r =>
      -- a node's own response goes through `Dispatch` without being recorded
      by_cases hv : r.verifier = q0
      · exact dkgInv_ownResponse hn h hp hv hr
      · exact dkgInv_response hn h hp hv hr
  | secretCommit sc => exact dkgInv_secretCommit hn h hp hr
  | waitSetup => exact dkgInv_waitSetup h hp hr
  | waitReply c => exact dkgInv_waitReply h hp hr

/-- The invariant holds in every state that some delivery order reaches. -/
theorem dkgInv_of_reachable (hn : 2 ≤ n) (hkey : ∀ i < n, ∀ j < n, key i = key j → i = j) {s : DkgSys K Record}
    (hs : Transition.Reachable (DkgInit n key W) (DkgStep n key Record.methods) s) : DkgInv n key W s :=
  hs.invariant (fun _ h0 => dkgInv_init (by omega) h0) fun _ _ _ h hst => dkgInv_step hn hkey h hst

end Run

end Decenarch
