import Decenarch.SetupDkg

/-!
# The invariant of a DKG setup run

A packet is *pending* when the state says it has been sent and not yet
taken: a `StartDeal` to a node still at its first receive, the deal of a
started dealer that the recipient has not processed, a response on a deal
that its verifier processed and the recipient has not recorded, the
commitments of a node that gave them and that the recipient has not
recorded, and `WaitSetup` and `WaitReply` by where the root and the child
are.  The invariant `DkgInv` says that the network holds exactly the pending
packets, each once, and that what each node's generator holds is what its
place in `Dispatch` says it has processed.

The one packet that the state does not record as taken is a node's own
response, which `Dispatch` takes and the generator refuses: for those the
invariant counts, `NetInv.count`, the responses in flight to a node and the
responses it has taken against the responses sent.
-/

namespace Decenarch

open RabinDkg RabinDkg.Record

variable {K : Type}

/-! ## The tree and the broadcasts -/

theorem listChildren_leaves (l : List ℕ) :
    RosterTreeNode.listChildren (l.map fun i => RosterTreeNode.mk (i + 1) []) = l.map (· + 1) := by
  induction l with
  | nil => rfl
  | cons i l ih =>
      rw [List.map_cons, RosterTreeNode.listChildren, ih, RosterTreeNode.list, RosterTreeNode.listChildren]
      rfl

theorem dkgNodes_eq {n : ℕ} (hn : 0 < n) : dkgNodes n = List.range n := by
  obtain ⟨m, rfl⟩ : ∃ m, n = m + 1 := ⟨n - 1, by omega⟩
  rw [dkgNodes, oneLevelRosterTree, RosterTreeNode.list, Nat.add_sub_cancel, listChildren_leaves,
    List.range_succ_eq_map]

theorem childIndices_oneLevelTree (n : ℕ) :
    (oneLevelRosterTree n).childIndices = (List.range (n - 1)).map (· + 1) := by
  rw [oneLevelRosterTree, RosterTreeNode.childIndices, List.map_map]
  rfl

theorem mem_childIndices {n c : ℕ} : c ∈ (oneLevelRosterTree n).childIndices ↔ c ≠ 0 ∧ c < n := by
  rw [childIndices_oneLevelTree, List.mem_map]
  constructor
  · rintro ⟨i, hi, rfl⟩
    rw [List.mem_range] at hi
    omega
  · rintro ⟨h0, hc⟩
    exact ⟨c - 1, List.mem_range.mpr (by omega), by omega⟩

theorem length_childIndices (n : ℕ) : (oneLevelRosterTree n).childIndices.length = n - 1 := by
  rw [childIndices_oneLevelTree, List.length_map, List.length_range]

@[simp] theorem rosterIndex_oneLevelTree (n : ℕ) : (oneLevelRosterTree n).rosterIndex = 0 := rfl

section Broadcast

variable {n : ℕ} (hn : 0 < n)
include hn

theorem mem_fullBroadcast {m : Msg K} {p : Packet K} : p ∈ fullBroadcast n m ↔ p.dest < n ∧ p.msg = m := by
  rw [fullBroadcast, dkgNodes_eq hn, List.mem_map]
  constructor
  · rintro ⟨i, hi, rfl⟩
    exact ⟨List.mem_range.mp hi, rfl⟩
  · rintro ⟨hd, hm⟩
    exact ⟨p.dest, List.mem_range.mpr hd, by rw [← hm]⟩

theorem nodup_fullBroadcast (m : Msg K) : (fullBroadcast n m).Nodup := by
  rw [fullBroadcast, dkgNodes_eq hn]
  exact (List.nodup_range).map fun i j h => congrArg Packet.dest h

end Broadcast

/-! ## The keys -/

/-- The keys of the roster in roster order, as `rootStartDeal` fills
`o.publics`. -/
def fullPublics (n : ℕ) (key : ℕ → K) : List (Option K) := (List.range n).map fun i => some (key i)

section Keys

variable {n : ℕ} {key : ℕ → K}

theorem length_fullPublics : (fullPublics n key).length = n := by
  rw [fullPublics, List.length_map, List.length_range]

theorem getElem?_fullPublics {i : ℕ} (hi : i < n) : (fullPublics n key)[i]? = some (some (key i)) := by
  rw [fullPublics, List.getElem?_map, List.getElem?_range hi]
  rfl

variable [DecidableEq K] (hkey : ∀ i < n, ∀ j < n, key i = key j → i = j)
include hkey

/-- A server's index among the participants is its roster index. -/
theorem idxOf_fullPublics {q : ℕ} (hq : q < n) : (fullPublics n key).idxOf (some (key q)) = q := by
  have hmem : some (key q) ∈ fullPublics n key := List.mem_of_getElem? (getElem?_fullPublics hq)
  have hget := List.getElem?_idxOf hmem
  have hlt : (fullPublics n key).idxOf (some (key q)) < n := by
    have h := List.idxOf_lt_length_of_mem hmem
    rwa [length_fullPublics] at h
  rw [getElem?_fullPublics hlt, Option.some_inj, Option.some_inj] at hget
  exact hkey _ hlt q hq hget

/-- The generator of the server at roster index `q`, as the bookkeeping
machine starts it. -/
theorem new_fullPublics {q : ℕ} (hq : q < n) (t : ℕ) :
    Record.new (key q) (fullPublics n key) t = .ok ⟨n, q, t, ∅, ∅, ∅⟩ := by
  rw [new_eq_ok (List.mem_of_getElem? (getElem?_fullPublics hq)), length_fullPublics, idxOf_fullPublics hkey hq]

end Keys

/-! ## What the state records -/

namespace DkgNode

/-- The node's generator holds the deal of `d`. -/
def dealt (nd : DkgNode K Record) (d : ℕ) : Bool := nd.dkg.any fun D => decide (d ∈ D.received)

/-- The node's generator holds the response of `v` to the deal of `d`. -/
def recorded (nd : DkgNode K Record) (d v : ℕ) : Bool := nd.dkg.any fun D => decide ((d, v) ∈ D.responses)

/-- The node's generator holds the commitments of `j`. -/
def committed (nd : DkgNode K Record) (j : ℕ) : Bool := nd.dkg.any fun D => decide (j ∈ D.commitments)

end DkgNode

section Records

variable (n : ℕ) (key : ℕ → K) (W : Bool)

/-- The responses sent so far, as pairs (dealer, verifier): one for each
deal of another node that a node has processed. -/
def sentResponses (node : ℕ → DkgNode K Record) : Finset (ℕ × ℕ) :=
  (Finset.range n).offDiag.filter fun dv => (node dv.2).dealt dv.1 = true

/-- How many responses `Dispatch` has taken at `pc`. -/
def respConsumed : DispatchPc → ℕ
  | .startDeal | .deal _ => 0
  | .response k => k
  | _ => n * (n - 1)

/-- The root has sent `WaitSetup`. -/
def RootPastCommits (node : ℕ → DkgNode K Record) : Prop :=
  (node 0).pc = .waitReply ∨ (node 0).pc = .returned none

/-- The packets sent and not yet taken. -/
def Pending (node : ℕ → DkgNode K Record) : Packet K → Prop
  | ⟨q, .startDeal ps t⟩ => q < n ∧ ps = fullPublics n key ∧ t = dkgThreshold n ∧ (node q).pc = .startDeal
  | ⟨q, .deal dd⟩ =>
      q < n ∧ dd.recipient = q ∧ dd.dealer < n ∧ dd.dealer ≠ q ∧ (node dd.dealer).pc ≠ .startDeal ∧
        (node q).dealt dd.dealer = false
  | ⟨q, .response r⟩ =>
      q < n ∧ (r.dealer, r.verifier) ∈ sentResponses n node ∧
        (r.verifier ≠ q → (node q).recorded r.dealer r.verifier = false)
  | ⟨q, .secretCommit sc⟩ =>
      q < n ∧ sc.dealer < n ∧ (node sc.dealer).commit = true ∧ (node q).committed sc.dealer = false
  | ⟨q, .waitSetup⟩ => W = true ∧ q ≠ 0 ∧ q < n ∧ RootPastCommits node ∧ (node q).pc ≠ .returned none
  | ⟨q, .waitReply c⟩ =>
      q = 0 ∧ W = true ∧ c ≠ 0 ∧ c < n ∧ (node c).pc = .returned none ∧ c ∉ (node 0).waitReplies ∧
        (node 0).pc ≠ .returned none

/-- A node's own response, which the state does not record as taken. -/
def Packet.isOwnResponse : Packet K → Bool
  | ⟨q, .response r⟩ => r.verifier = q
  | _ => false

/-- A response in flight to `q`. -/
def Packet.isResponseTo (q : ℕ) : Packet K → Bool
  | ⟨q', .response _⟩ => q' = q
  | _ => false

/-- The network holds exactly the pending packets, each once, and the
responses in flight to a node and those it took are the responses sent. -/
structure NetInv (s : DkgSys K Record) : Prop where
  pending : ∀ p ∈ s.net, Pending n key W s.node p
  mem : ∀ p, Pending n key W s.node p → p.isOwnResponse = false → p ∈ s.net
  nodup : s.net.Nodup
  count : ∀ q < n, s.net.countP (Packet.isResponseTo q) + respConsumed n (s.node q).pc =
    (sentResponses n s.node).card

/-- Every response on every deal. -/
def Complete (D : Record) : Prop := ∀ d < n, ∀ v < n, (d, v) ∈ D.responses

/-- What node `q`'s generator holds whatever it has processed. -/
structure GenFacts (q : ℕ) (D : Record) : Prop where
  participants : D.participants = n
  index : D.index = q
  threshold : D.t = dkgThreshold n
  received_sub : D.received ⊆ Finset.range n
  self_mem : q ∈ D.received
  responses_lt : ∀ d v, (d, v) ∈ D.responses → d < n ∧ v < n
  responses_of_received : ∀ d ∈ D.received, (d, q) ∈ D.responses ∧ (d, d) ∈ D.responses
  commitments_sub : D.commitments ⊆ Finset.range n

/-- What node `q`'s generator holds at each receive of `Dispatch`. -/
def StageFacts (q : ℕ) (nd : DkgNode K Record) (D : Record) : DispatchPc → Prop
  | .startDeal | .panicked => False
  | .deal k =>
      k < n - 1 ∧ D.received.card = k + 1 ∧ (∀ d v, (d, v) ∈ D.responses → v = q ∨ v = d) ∧
        D.commitments = ∅
  | .response k => k < n * (n - 1) ∧ D.received = Finset.range n ∧ D.commitments = ∅
  | .secretCommit k =>
      k < n ∧ D.received = Finset.range n ∧ Complete n D ∧ D.commitments.card = k
  | .waitSetup =>
      W = true ∧ q ≠ 0 ∧ D.received = Finset.range n ∧ Complete n D ∧ D.commitments = Finset.range n
  | .waitReply =>
      W = true ∧ q = 0 ∧ D.received = Finset.range n ∧ Complete n D ∧ D.commitments = Finset.range n ∧
        nd.waitReplies.length < n - 1
  | .returned err =>
      err = none ∧ D.received = Finset.range n ∧ Complete n D ∧ D.commitments = Finset.range n

/-- What holds of node `q`, alone and against the others. -/
structure NodeInv (s : DkgSys K Record) (q : ℕ) : Prop where
  wait : (s.node q).wait = W
  fresh : (s.node q).pc = .startDeal → (s.node q).dkg = none ∧ (s.node q).commit = false
  gen : (s.node q).pc ≠ .startDeal → ∃ D, (s.node q).dkg = some D ∧ GenFacts n q D ∧
    (s.node q).publics = fullPublics n key ∧ StageFacts n W q (s.node q) D (s.node q).pc ∧
    ((s.node q).commit = true ↔ D.Certified q)
  recorded_sent : ∀ d v, (s.node q).recorded d v = true → v ≠ q → v ≠ d → (d, v) ∈ sentResponses n s.node
  dealt_started : ∀ j, (s.node q).dealt j = true → j ≠ q → (s.node j).pc ≠ .startDeal
  committed_commit : ∀ j, (s.node q).committed j = true → (s.node j).commit = true
  queue : q = 0 → (∀ c ∈ (s.node q).waitReplies, c ≠ 0 ∧ c < n ∧ (s.node c).pc = .returned none) ∧
    (s.node q).waitReplies.Nodup ∧ ((s.node q).pc ≠ .waitReply → (s.node q).waitReplies = [])
  child_done : q ≠ 0 → W = true → (s.node q).pc = .returned none → RootPastCommits s.node
  root_done : q = 0 → W = true → (s.node q).pc = .returned none →
    ∀ c, c ≠ 0 → c < n → (s.node c).pc = .returned none

/-- The invariant of a run. -/
structure DkgInv (s : DkgSys K Record) : Prop where
  net : NetInv n key W s
  node : ∀ q < n, NodeInv n key W s q

end Records

/-! ## What a step keeps -/

section Views

variable {n : ℕ} {key : ℕ → K} {W : Bool}

namespace DkgNode

theorem dealt_of_dkg {nd : DkgNode K Record} {D : Record} (h : nd.dkg = some D) (j : ℕ) :
    nd.dealt j = decide (j ∈ D.received) := by
  rw [dealt, h]
  rfl

theorem recorded_of_dkg {nd : DkgNode K Record} {D : Record} (h : nd.dkg = some D) (d v : ℕ) :
    nd.recorded d v = decide ((d, v) ∈ D.responses) := by
  rw [recorded, h]
  rfl

theorem committed_of_dkg {nd : DkgNode K Record} {D : Record} (h : nd.dkg = some D) (j : ℕ) :
    nd.committed j = decide (j ∈ D.commitments) := by
  rw [committed, h]
  rfl

theorem dealt_of_none {nd : DkgNode K Record} (h : nd.dkg = none) (j : ℕ) : nd.dealt j = false := by
  rw [dealt, h]
  rfl

theorem recorded_of_none {nd : DkgNode K Record} (h : nd.dkg = none) (d v : ℕ) : nd.recorded d v = false := by
  rw [recorded, h]
  rfl

theorem committed_of_none {nd : DkgNode K Record} (h : nd.dkg = none) (j : ℕ) : nd.committed j = false := by
  rw [committed, h]
  rfl

end DkgNode

/-! Each kind of pending packet reads a few views of the nodes; a step that
keeps those views keeps the packets of that kind pending. -/

theorem sentResponses_congr {node node' : ℕ → DkgNode K Record}
    (h : ∀ v d, d ≠ v → (node' v).dealt d = (node v).dealt d) :
    sentResponses n node' = sentResponses n node :=
  Finset.filter_congr fun dv hdv => by rw [h dv.2 dv.1 (Finset.mem_offDiag.mp hdv).2.2]

theorem mem_sentResponses {node : ℕ → DkgNode K Record} {d v : ℕ} :
    (d, v) ∈ sentResponses n node ↔ d < n ∧ v < n ∧ d ≠ v ∧ (node v).dealt d = true := by
  simp only [sentResponses, Finset.mem_filter, Finset.mem_offDiag, Finset.mem_range, and_assoc]

theorem pending_startDeal_congr {node node' : ℕ → DkgNode K Record}
    (h : ∀ j, (node' j).pc = .startDeal ↔ (node j).pc = .startDeal) (q : ℕ) (ps : List (Option K)) (t : ℕ) :
    Pending n key W node' ⟨q, .startDeal ps t⟩ ↔ Pending n key W node ⟨q, .startDeal ps t⟩ := by
  simp only [Pending, h]

theorem pending_deal_congr {node node' : ℕ → DkgNode K Record}
    (hs : ∀ j, (node' j).pc = .startDeal ↔ (node j).pc = .startDeal)
    (hd : ∀ q j, (node' q).dealt j = (node q).dealt j) (q : ℕ) (dd : Deal) :
    Pending n key W node' ⟨q, .deal dd⟩ ↔ Pending n key W node ⟨q, .deal dd⟩ := by
  simp only [Pending, ne_eq, hs, hd]

theorem pending_response_congr {node node' : ℕ → DkgNode K Record}
    (hs : sentResponses n node' = sentResponses n node)
    (hr : ∀ q d v, v ≠ q → (node' q).recorded d v = (node q).recorded d v) (q : ℕ) (r : Response) :
    Pending n key W node' ⟨q, .response r⟩ ↔ Pending n key W node ⟨q, .response r⟩ := by
  simp only [Pending, hs]
  exact and_congr_right fun _ => and_congr_right fun _ => imp_congr_right fun hv => by rw [hr q _ _ hv]

theorem pending_secretCommit_congr {node node' : ℕ → DkgNode K Record}
    (hc : ∀ j, (node' j).commit = (node j).commit)
    (hm : ∀ q j, (node' q).committed j = (node q).committed j) (q : ℕ) (sc : SecretCommits) :
    Pending n key W node' ⟨q, .secretCommit sc⟩ ↔ Pending n key W node ⟨q, .secretCommit sc⟩ := by
  simp only [Pending, hc, hm]

theorem pending_waitSetup_congr {node node' : ℕ → DkgNode K Record}
    (hdone : ∀ c, (node' c).pc = .returned none ↔ (node c).pc = .returned none)
    (hroot : (node' 0).pc = .waitReply ↔ (node 0).pc = .waitReply) (q : ℕ) :
    Pending n key W node' ⟨q, .waitSetup⟩ ↔ Pending n key W node ⟨q, .waitSetup⟩ := by
  simp only [Pending, RootPastCommits, ne_eq, hdone, hroot]

theorem pending_waitReply_congr {node node' : ℕ → DkgNode K Record}
    (hdone : ∀ c, (node' c).pc = .returned none ↔ (node c).pc = .returned none)
    (hq : (node' 0).waitReplies = (node 0).waitReplies) (q c : ℕ) :
    Pending n key W node' ⟨q, .waitReply c⟩ ↔ Pending n key W node ⟨q, .waitReply c⟩ := by
  simp only [Pending, ne_eq, hdone, hq]

/-- What every step does to the node that takes it, as far as the others
can see: a started node stays started, what its generator holds stays, its
commitments once given stay given, and the root once past the secret
commitments stays past them. -/
structure StepMono (nd nd' : DkgNode K Record) : Prop where
  started : nd.pc ≠ .startDeal → nd'.pc ≠ .startDeal
  dealt : ∀ j, nd.dealt j = true → nd'.dealt j = true
  commit : nd.commit = true → nd'.commit = true
  done : nd.pc = .returned none → nd'.pc = .returned none
  past : nd.pc = .waitReply ∨ nd.pc = .returned none → nd'.pc = .waitReply ∨ nd'.pc = .returned none

theorem sentResponses_mono {node : ℕ → DkgNode K Record} {q0 : ℕ} {nd' : DkgNode K Record} (hm : StepMono (node q0) nd') :
    sentResponses n node ⊆ sentResponses n (Function.update node q0 nd') := by
  intro dv hdv
  rw [sentResponses, Finset.mem_filter] at hdv ⊢
  refine ⟨hdv.1, ?_⟩
  rw [Function.update_apply]
  split_ifs with h
  · subst h
    exact hm.dealt _ hdv.2
  · exact hdv.2

/-- **The other nodes' invariant across a step**: their own state is
unchanged, and what they know of the stepping node only grows. -/
theorem nodeInv_other {s : DkgSys K Record} {q q0 : ℕ} {nd' : DkgNode K Record} (net' : List (Packet K))
    (h : NodeInv n key W s q) (hq : q ≠ q0) (hm : StepMono (s.node q0) nd') :
    NodeInv n key W ⟨Function.update s.node q0 nd', net'⟩ q := by
  have hself : Function.update s.node q0 nd' q = s.node q := Function.update_of_ne hq _ _
  have hupd : ∀ j, Function.update s.node q0 nd' j = if j = q0 then nd' else s.node j :=
    fun j => Function.update_apply _ _ _ _
  refine ⟨?_, ?_, ?_, ?_, ?_, ?_, ?_, ?_, ?_⟩ <;> dsimp only <;> rw [hself]
  · exact h.wait
  · exact h.fresh
  · exact h.gen
  · exact fun d v hr hv hvd => sentResponses_mono hm (h.recorded_sent d v hr hv hvd)
  · intro j hj hjq
    rw [hupd]
    split_ifs with hj0
    · subst hj0
      exact hm.started (h.dealt_started _ hj hjq)
    · exact h.dealt_started j hj hjq
  · intro j hj
    rw [hupd]
    split_ifs with hj0
    · subst hj0
      exact hm.commit (h.committed_commit _ hj)
    · exact h.committed_commit j hj
  · intro hq0
    obtain ⟨hmem, hnd, hnw⟩ := h.queue hq0
    refine ⟨fun c hc => ?_, hnd, hnw⟩
    obtain ⟨hc0, hcn, hcd⟩ := hmem c hc
    refine ⟨hc0, hcn, ?_⟩
    rw [hupd]
    split_ifs with hcq
    · subst hcq
      exact hm.done hcd
    · exact hcd
  · intro hq0 hW hd
    have hpast := h.child_done hq0 hW hd
    unfold RootPastCommits at hpast ⊢
    rw [hupd]
    split_ifs with h0
    · subst h0
      exact hm.past hpast
    · exact hpast
  · intro hq0 hW hd c hc0 hcn
    rw [hupd]
    split_ifs with hcq
    · subst hcq
      exact hm.done (h.root_done hq0 hW hd _ hc0 hcn)
    · exact h.root_done hq0 hW hd c hc0 hcn

end Views

/-! ## Steps -/

section Step

variable [DecidableEq K] {n : ℕ} {key : ℕ → K} {W : Bool}

theorem deliver_eq_some {Gen : Type} {M : Methods K Gen} {s s' : DkgSys K Gen} {p : Packet K} :
    deliver n key M s p = some s' ↔ ∃ nd' out, receive n key M p.dest (s.node p.dest) p.msg = some (nd', out) ∧
      s' = ⟨Function.update s.node p.dest nd', s.net.erase p ++ out⟩ := by
  rw [deliver, Option.map_eq_some_iff]
  constructor
  · rintro ⟨⟨nd', out⟩, h, rfl⟩
    exact ⟨nd', out, h, rfl⟩
  · rintro ⟨nd', out, h, rfl⟩
    exact ⟨(nd', out), h, rfl⟩

theorem countP_erase_add {α : Type*} [DecidableEq α] {l : List α} {a : α} (ha : a ∈ l) (f : α → Bool) :
    (l.erase a).countP f + (if f a then 1 else 0) = l.countP f := by
  rw [(List.perm_cons_erase ha).countP_eq f, List.countP_cons]

/-- **The network invariant across a step**, from what the step does to the
pending packets: the packet taken is no longer pending (unless it is an own
response), the packets sent become pending and were not before, nothing else
changes, and the responses are counted. -/
theorem netInv_step {s : DkgSys K Record} {p0 : Packet K} {node' : ℕ → DkgNode K Record} {out : List (Packet K)}
    (h : NetInv n key W s)
    (hkeep : ∀ p, Pending n key W s.node p → p ≠ p0 → Pending n key W node' p)
    (hnew : ∀ p, Pending n key W node' p → p.isOwnResponse = false →
      (Pending n key W s.node p ∧ p ≠ p0) ∨ p ∈ out)
    (hout : ∀ p ∈ out, Pending n key W node' p ∧ ¬ Pending n key W s.node p) (hnodup : out.Nodup)
    (hcount : ∀ q < n, (s.net.erase p0 ++ out).countP (Packet.isResponseTo q) + respConsumed n (node' q).pc =
      (sentResponses n node').card) :
    NetInv n key W ⟨node', s.net.erase p0 ++ out⟩ where
  pending p hp := by
    rcases List.mem_append.mp hp with hp | hp
    · obtain ⟨hne, hmem⟩ := h.nodup.mem_erase_iff.mp hp
      exact hkeep p (h.pending p hmem) hne
    · exact (hout p hp).1
  mem p hp hown := by
    rcases hnew p hp hown with ⟨hold, hne⟩ | hin
    · exact List.mem_append_left _ (h.nodup.mem_erase_iff.mpr ⟨hne, h.mem p hold hown⟩)
    · exact List.mem_append_right _ hin
  nodup := by
    refine List.nodup_append.mpr ⟨h.nodup.erase p0, hnodup, ?_⟩
    rintro a ha b hb rfl
    exact (hout a hb).2 (h.pending a (List.mem_of_mem_erase ha))
  count := hcount

end Step

/-! ## The start -/

section Start

variable {n : ℕ} {key : ℕ → K} {W : Bool}

/-- The loop of `rootStartDeal` fills `o.publics` with every key once every
index is either set before it or among the replies, in whatever order they
come. -/
theorem setPublics_keys {l : List (ℕ × K)} (hl : ∀ x ∈ l, x.1 < n ∧ x.2 = key x.1) :
    ∀ {ps : List (Option K)}, ps.length = n →
      (∀ i < n, (∃ x ∈ l, x.1 = i) ∨ ps[i]? = some (some (key i))) → setPublics n ps l = (fullPublics n key, true) := by
  induction l with
  | nil =>
      intro ps hlen hcover
      refine congrArg (·, true) (List.ext_getElem? fun i => ?_)
      by_cases hi : i < n
      · rw [getElem?_fullPublics hi]
        simpa using hcover i hi
      · rw [List.getElem?_eq_none (by omega), List.getElem?_eq_none (by rw [length_fullPublics]; omega)]
  | cons x rest ih =>
      intro ps hlen hcover
      obtain ⟨c, v⟩ := x
      obtain ⟨hc, hv⟩ : c < n ∧ v = key c := hl (c, v) List.mem_cons_self
      rw [setPublics, if_pos hc]
      refine ih (fun y hy => hl y (List.mem_cons_of_mem _ hy)) (by rw [List.length_set, hlen]) fun i hi => ?_
      by_cases hic : i = c
      · subst hic
        right
        rw [List.getElem?_set_self (by omega), hv]
      · rcases hcover i hi with ⟨y, hy, hyi⟩ | hps
        · rcases List.mem_cons.mp hy with rfl | hy
          · exact absurd hyi.symm hic
          · exact Or.inl ⟨y, hy, hyi⟩
        · right
          rw [List.getElem?_set_ne (Ne.symm hic), hps]

theorem length_dkgNodes {n : ℕ} (hn : 0 < n) : (dkgNodes n).length = n := by
  rw [dkgNodes_eq hn, List.length_range]

/-- `rootStartDeal` on the children's replies, in any order. -/
theorem rootStartDeal_of_perm (hn : 0 < n) {replies : List (ℕ × K)}
    (hperm : replies.Perm ((oneLevelRosterTree n).childIndices.map fun c => (c, key c))) :
    rootStartDeal n key (newSetupDkg n W) replies =
      ({ (newSetupDkg n W : DkgNode K Record) with publics := fullPublics n key },
        fullBroadcast n (.startDeal (fullPublics n key) (dkgThreshold n))) := by
  have hl : ∀ x ∈ replies, x.1 < n ∧ x.2 = key x.1 := by
    intro x hx
    obtain ⟨c, hc, rfl⟩ := List.mem_map.mp (hperm.subset hx)
    exact ⟨(mem_childIndices.mp hc).2, rfl⟩
  have hlen0 : (newSetupDkg n W : DkgNode K Record).publics.length = n := by
    rw [newSetupDkg, List.length_replicate, length_dkgNodes hn]
  have hlen : ((newSetupDkg n W : DkgNode K Record).publics.set 0 (some (key 0))).length = n := by
    rw [List.length_set, hlen0]
  have hcover : ∀ i < n, (∃ x ∈ replies, x.1 = i) ∨
      ((newSetupDkg n W : DkgNode K Record).publics.set 0 (some (key 0)))[i]? = some (some (key i)) := by
    intro i hi
    by_cases hi0 : i = 0
    · subst hi0
      right
      rw [List.getElem?_set_self (by rw [hlen0]; exact hn)]
    · left
      have hmem : (i, key i) ∈ replies :=
        hperm.symm.subset (List.mem_map.mpr ⟨i, mem_childIndices.mpr ⟨hi0, hi⟩, rfl⟩)
      exact ⟨_, hmem, rfl⟩
  rw [rootStartDeal, setPublics_keys hl hlen hcover]

/-- At the start every node waits for `StartDeal`, with no generator. -/
theorem node_of_dkgInit (hn : 0 < n) {s : DkgSys K Record} (hs : DkgInit n key W s) (q : ℕ) :
    (s.node q).pc = .startDeal ∧ (s.node q).dkg = none ∧ (s.node q).commit = false ∧
      (s.node q).wait = W ∧ (s.node q).waitReplies = [] := by
  obtain ⟨replies, hperm, rfl⟩ := hs
  rw [rootStartDeal_of_perm hn hperm]
  dsimp only
  rw [Function.update_apply]
  split_ifs <;> exact ⟨rfl, rfl, rfl, rfl, rfl⟩

theorem net_of_dkgInit (hn : 0 < n) {s : DkgSys K Record} (hs : DkgInit n key W s) :
    s.net = fullBroadcast n (.startDeal (fullPublics n key) (dkgThreshold n)) := by
  obtain ⟨replies, hperm, rfl⟩ := hs
  rw [rootStartDeal_of_perm hn hperm]

/-- **The invariant holds at the start.** -/
theorem dkgInv_init (hn : 0 < n) {s : DkgSys K Record} (hs : DkgInit n key W s) : DkgInv n key W s := by
  have hnode := node_of_dkgInit hn hs
  have hnet := net_of_dkgInit hn hs
  have hdealt : ∀ q d, (s.node q).dealt d = false := fun q => DkgNode.dealt_of_none (hnode q).2.1
  have hrec : ∀ q d v, (s.node q).recorded d v = false := fun q => DkgNode.recorded_of_none (hnode q).2.1
  have hcomm : ∀ q j, (s.node q).committed j = false := fun q => DkgNode.committed_of_none (hnode q).2.1
  have hsent : sentResponses n s.node = ∅ :=
    Finset.filter_false_of_mem fun dv _ => by rw [hdealt]; decide
  refine ⟨⟨?_, ?_, ?_, ?_⟩, fun q _ => ⟨(hnode q).2.2.2.1, fun _ => ⟨(hnode q).2.1, (hnode q).2.2.1⟩,
    fun h => absurd (hnode q).1 h, ?_, ?_, ?_, ?_, ?_, ?_⟩⟩
  · intro p hp
    rw [hnet, mem_fullBroadcast hn] at hp
    obtain ⟨q, m⟩ := p
    obtain ⟨hq, rfl⟩ := hp
    exact ⟨hq, rfl, rfl, (hnode q).1⟩
  · rintro ⟨q, m⟩ hp _
    cases m with
    | startDeal ps t =>
        obtain ⟨hq, rfl, rfl, -⟩ := hp
        rw [hnet, mem_fullBroadcast hn]
        exact ⟨hq, rfl⟩
    | deal dd => exact absurd (hnode dd.dealer).1 hp.2.2.2.2.1
    | response r => exact absurd hp.2.1 (by rw [hsent]; exact Finset.notMem_empty _)
    | secretCommit sc =>
        have := hp.2.2.1
        rw [(hnode sc.dealer).2.2.1] at this
        exact absurd this Bool.false_ne_true
    | waitSetup => exact absurd hp.2.2.2.1 (by simp [RootPastCommits, (hnode 0).1])
    | waitReply c => exact absurd hp.2.2.2.2.1 (by rw [(hnode c).1]; exact DispatchPc.noConfusion)
  · rw [hnet]
    exact nodup_fullBroadcast hn _
  · intro q _
    rw [hnet, hsent, (hnode q).1, List.countP_eq_zero.mpr fun p hp => ?_]
    · rfl
    · obtain ⟨-, hm⟩ := (mem_fullBroadcast hn).mp hp
      obtain ⟨q', m⟩ := p
      subst hm
      exact Bool.false_ne_true
  · intro d v h
    rw [hrec] at h
    exact absurd h Bool.false_ne_true
  · intro j h
    rw [hdealt] at h
    exact absurd h Bool.false_ne_true
  · intro j h
    rw [hcomm] at h
    exact absurd h Bool.false_ne_true
  · intro _
    rw [(hnode q).2.2.2.2]
    exact ⟨fun c hc => absurd hc List.not_mem_nil, List.nodup_nil, fun _ => rfl⟩
  · intro _ _ h
    exact absurd h (by rw [(hnode q).1]; exact DispatchPc.noConfusion)
  · intro _ _ h
    exact absurd h (by rw [(hnode q).1]; exact DispatchPc.noConfusion)

end Start

end Decenarch
