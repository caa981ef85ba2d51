import Decenarch.SetupDkgLive

/-!
# The setup on any library that meets the hypothesis

`SetupDkgLive` shows that the setup ends, whatever the order of delivery,
when every node runs the bookkeeping machine `RabinDkg.Record`.  Here the
nodes run kyber's library, the parameter `M`, under `Methods.Spec M view`.

Reading each node's generator through `view` takes a state of the run on `M`
to a state of the run on `Record`, up to the order of the packets in flight:
`Deals` returns a Go map, and the order in which `allStartDeal` ranges over it
is the library's (`ViewRel`).  A node takes a message under `M` exactly when
its image takes it under `Record` (`isSome_receive_mapGen`), and from a
reachable state the two deliveries then agree through `view`
(`receiveAgree_of_net`): the invariant of the bookkeeping run says that each
call of the library gets the arguments of an honest run, for which
`Methods.Spec` says what the library does.  So each run simulates the other,
and every part of the result carries over.
-/

namespace Decenarch

open RabinDkg RabinDkg.Record Transition

variable {K Gen : Type}

/-! ## Generators read through the view -/

namespace DkgNode

/-- The node with its generator read through `f`. -/
def mapGen {Gen' : Type} (f : Gen → Gen') (nd : DkgNode K Gen) : DkgNode K Gen' :=
  ⟨nd.pc, nd.dkg.map f, nd.publics, nd.commit, nd.wait, nd.waitReplies⟩

variable {Gen' : Type} (f : Gen → Gen') (nd : DkgNode K Gen)

@[simp] theorem pc_mapGen : (nd.mapGen f).pc = nd.pc := rfl

@[simp] theorem dkg_mapGen : (nd.mapGen f).dkg = nd.dkg.map f := rfl

@[simp] theorem publics_mapGen : (nd.mapGen f).publics = nd.publics := rfl

@[simp] theorem waitReplies_mapGen : (nd.mapGen f).waitReplies = nd.waitReplies := rfl

/-- A generator of the image is the image of the node's generator. -/
theorem exists_of_dkg_mapGen {D' : Gen'} (h : (nd.mapGen f).dkg = some D') : ∃ D, nd.dkg = some D ∧ f D = D' :=
  Option.map_eq_some_iff.mp h

end DkgNode

/-- `NewSetupDKG` leaves no generator to read. -/
@[simp] theorem newSetupDkg_mapGen {Gen' : Type} (f : Gen → Gen') (n : ℕ) (wait : Bool) :
    (newSetupDkg n wait : DkgNode K Gen).mapGen f = newSetupDkg n wait := rfl

/-- `rootStartDeal` sets the keys, whatever the generator. -/
theorem rootStartDeal_mapGen {Gen' : Type} (f : Gen → Gen') (n : ℕ) (key : ℕ → K) (nd : DkgNode K Gen)
    (replies : List (ℕ × K)) :
    rootStartDeal n key (nd.mapGen f) replies =
      ((rootStartDeal n key nd replies).1.mapGen f, (rootStartDeal n key nd replies).2) := by
  unfold rootStartDeal
  rw [DkgNode.publics_mapGen]
  cases setPublics n (nd.publics.set 0 (some (key 0))) replies with
  | mk ps ok => cases ok <;> rfl

/-- Whether a node takes a message depends on where `Dispatch` waits and
on whether it has a generator, not on the library. -/
theorem isSome_receive_mapGen {Gen' : Type} (n : ℕ) (key : ℕ → K) (me : ℕ) (M : Methods K Gen)
    (M' : Methods K Gen') (f : Gen → Gen') (nd : DkgNode K Gen) (m : Msg K) :
    (receive n key M' me (nd.mapGen f) m).isSome = (receive n key M me nd m).isSome := by
  obtain ⟨pc, dkg, publics, commit, wait, replies⟩ := nd
  cases m <;> cases pc <;> cases dkg <;> simp [receive, DkgNode.mapGen]
  -- left: the root's queue of `WaitReply`, whose two branches both take the message
  all_goals
    by_cases hc : replies.length + 1 = (oneLevelRosterTree n).childIndices.length <;> simp only [hc, if_true,
      if_false, Option.isSome_some]

/-- A state of the run on `M` and a state of the run on the bookkeeping
machine that agree through `view`: each node with its generator read
through `view`, and the same packets in flight, in some order. -/
structure ViewRel (view : Gen → Record) (s : DkgSys K Gen) (t : DkgSys K Record) : Prop where
  node : ∀ q, t.node q = (s.node q).mapGen view
  net : s.net.Perm t.net

/-! ## One delivery under the library and under the bookkeeping machine -/

section Agree

variable [DecidableEq K] {n : ℕ} {key : ℕ → K} {W : Bool} {M : Methods K Gen} {view : Gen → Record}

/-- Node `me` takes `m` under `M`, its image takes it under the
bookkeeping machine, and the two agree through `view`: the nodes after, and
the packets sent up to their order. -/
def ReceiveAgree (n : ℕ) (key : ℕ → K) (M : Methods K Gen) (view : Gen → Record) (me : ℕ)
    (nd : DkgNode K Gen) (m : Msg K) : Prop :=
  ∃ nd' out out', receive n key M me nd m = some (nd', out) ∧
    receive n key Record.methods me (nd.mapGen view) m = some (nd'.mapGen view, out') ∧ out.Perm out'

/-- `StartDeal`: `NewDistKeyGenerator` and `Deals` succeed, and the deals
go out in the order of the library's map. -/
theorem receiveAgree_startDeal (hM : M.Spec view) (hn : 2 ≤ n)
    (hkey : ∀ i < n, ∀ j < n, key i = key j → i = j) {q : ℕ} (hq : q < n) {nd : DkgNode K Gen}
    (hpc : nd.pc = .startDeal) :
    ReceiveAgree n key M view q nd (.startDeal (fullPublics n key) (dkgThreshold n)) := by
  obtain ⟨D, hnew, hview⟩ := hM.new (t := dkgThreshold n) (List.mem_of_getElem? (getElem?_fullPublics hq))
  rw [length_fullPublics, idxOf_fullPublics hkey hq] at hview
  obtain ⟨D', l, hdeals, hview', hperm⟩ :=
    hM.deals (D := D) (by rw [hview]; exact hq) (by rw [hview]; exact Finset.notMem_empty q)
  -- the deals go to the participants, which are the nodes of the tree
  have hl : ∀ x ∈ (view D).dealList, x.1 < n := by
    intro x hx
    obtain ⟨i, hi, rfl⟩ := List.mem_map.mp hx
    have hi' := List.mem_range.mp (List.mem_filter.mp hi).1
    rwa [hview] at hi'
  refine ⟨_, _, _, receive_startDeal_of_deals hn hpc length_fullPublics hnew hdeals
    (fun x hx => hl x (hperm.subset hx)), ?_, hperm.map _⟩
  rw [receive_startDeal_of_deals hn (show (nd.mapGen view).pc = .startDeal from hpc) length_fullPublics
    (show (Record.methods : Methods K Record).newDistKeyGenerator (key q) (fullPublics n key) (dkgThreshold n) =
      .ok (view D) by rw [hview]; exact new_fullPublics hkey hq _)
    (show (Record.methods : Methods K Record).deals (view D) = (view D', .ok (view D).dealList) by
      rw [hview']; rfl) hl]
  rfl

/-- A deal for `q` of a dealer it has no deal of: `ProcessDeal` accepts it. -/
theorem receiveAgree_deal (hM : M.Spec view) (hn : 2 ≤ n) {t : DkgSys K Record} (h : DkgInv n key W t)
    {q : ℕ} (hq : q < n) {nd : DkgNode K Gen} (hnode : t.node q = nd.mapGen view) {dd : Deal}
    (hto : dd.recipient = q) (hj : dd.dealer < n) (hdl : (t.node q).dealt dd.dealer = false) {k : ℕ}
    (hpc : nd.pc = .deal k) :
    ReceiveAgree n key M view q nd (.deal dd) := by
  obtain ⟨DB, hDB, hgen, hpub, -, -⟩ :=
    (h.node q hq).gen (by rw [hnode, DkgNode.pc_mapGen, hpc]; exact DispatchPc.noConfusion)
  rw [hnode] at hDB hdl hpub
  obtain ⟨D, hD, rfl⟩ := nd.exists_of_dkg_mapGen view hDB
  have hnew : dd.dealer ∉ (view D).received := by
    rw [DkgNode.dealt_of_dkg hDB] at hdl
    simpa using hdl
  have hto' : dd.recipient = (view D).index := by rw [hto, hgen.index]
  have hlen : nd.publics.length = n := by rw [← DkgNode.publics_mapGen view, hpub, length_fullPublics]
  obtain ⟨D', hproc, hview'⟩ := hM.processDeal hto' (by rw [hgen.participants]; exact hj) hnew
  refine ⟨_, _, _, receive_deal_of_processDeal hn hpc hD hlen hproc, ?_, List.Perm.refl _⟩
  rw [receive_deal_of_processDeal hn (show (nd.mapGen view).pc = .deal k from hpc) hDB hlen
    (show (Record.methods : Methods K Record).processDeal (view D) dd =
      (view D', .ok ⟨dd.dealer, (view D).index⟩) by rw [hview']; exact processDeal_eq_ok hto' hnew)]
  rfl

/-- A response that has been sent: refused if held already, recorded
otherwise, and followed by `SecretCommits`. -/
theorem receiveAgree_response (hM : M.Spec view) (hn : 2 ≤ n) {t : DkgSys K Record} (h : DkgInv n key W t)
    {q : ℕ} (hq : q < n) {nd : DkgNode K Gen} (hnode : t.node q = nd.mapGen view) {r : Response}
    (hs : (r.dealer, r.verifier) ∈ sentResponses n t.node) {k : ℕ} (hpc : nd.pc = .response k) :
    ReceiveAgree n key M view q nd (.response r) := by
  obtain ⟨DB, hDB, hgen, hpub, hst, -⟩ :=
    (h.node q hq).gen (by rw [hnode, DkgNode.pc_mapGen, hpc]; exact DispatchPc.noConfusion)
  rw [hnode] at hDB hpub hst
  rw [DkgNode.pc_mapGen, hpc] at hst
  obtain ⟨D, hD, rfl⟩ := nd.exists_of_dkg_mapGen view hDB
  obtain ⟨hd, hv, -, -⟩ := mem_sentResponses.mp hs
  have hdr : r.dealer ∈ (view D).received := by
    rw [hst.2.1]
    exact Finset.mem_range.mpr hd
  have hlen : nd.publics.length = n := by rw [← DkgNode.publics_mapGen view, hpub, length_fullPublics]
  have hpcB : (nd.mapGen view).pc = .response k := hpc
  by_cases hheld : (r.dealer, r.verifier) ∈ (view D).responses
  · -- held already, as the node's own response is
    obtain ⟨D', hproc, hview'⟩ := hM.processResponse_of_mem hdr hheld
    refine ⟨_, _, _, receive_response_of_tolerated (by omega) hpc hD hlen hproc (Or.inl rfl), ?_,
      List.Perm.refl _⟩
    rw [receive_response_of_tolerated (by omega) hpcB hDB hlen
      (show (Record.methods : Methods K Record).processResponse (view D) r =
        (view D', .error "vss: already existing response from same origin") by
          rw [hview']; exact processResponse_of_mem hdr hheld) (Or.inl rfl)]
    rfl
  obtain ⟨D', hproc, hview'⟩ := hM.processResponse_of_notMem hdr (by rw [hgen.participants]; exact hv) hheld
  have hprocB : (Record.methods : Methods K Record).processResponse (view D) r = (view D', .ok none) := by
    rw [hview']
    exact processResponse_of_notMem hdr hheld
  by_cases hc : (view D').Certified (view D').index
  · obtain ⟨D'', hsc, hview''⟩ := hM.secretCommits_of_certified hc
    refine ⟨_, _, _, receive_response_of_secretCommits (by omega) hpc hD hlen hproc hsc, ?_, List.Perm.refl _⟩
    rw [receive_response_of_secretCommits (by omega) hpcB hDB hlen hprocB
      (show (Record.methods : Methods K Record).secretCommits (view D') = (view D'', .ok ⟨(view D').index⟩) by
        rw [hview'']; exact secretCommits_of_certified hc)]
    rfl
  · obtain ⟨D'', hsc, hview''⟩ := hM.secretCommits_of_not_certified hc
    refine ⟨_, _, _, receive_response_of_uncertified (by omega) hpc hD hlen hproc hsc, ?_, List.Perm.refl _⟩
    rw [receive_response_of_uncertified (by omega) hpcB hDB hlen hprocB
      (show (Record.methods : Methods K Record).secretCommits (view D') =
        (view D'', .error "dkg: can't give SecretCommits if deal not certified") by
          rw [hview'']; exact secretCommits_of_not_certified hc)]
    rfl

/-- The commitments of a dealer that `q` has not recorded: accepted, and
both loops leave by the same exit, since the `n`-th commitments finish the
generator under either. -/
theorem receiveAgree_secretCommit (hM : M.Spec view) {t : DkgSys K Record} (h : DkgInv n key W t)
    {q : ℕ} (hq : q < n) {nd : DkgNode K Gen} (hnode : t.node q = nd.mapGen view) {sc : SecretCommits}
    (hj : sc.dealer < n) (hcm : (t.node q).committed sc.dealer = false) {k : ℕ}
    (hpc : nd.pc = .secretCommit k) :
    ReceiveAgree n key M view q nd (.secretCommit sc) := by
  obtain ⟨DB, hDB, hgen, hpub, hst, -⟩ :=
    (h.node q hq).gen (by rw [hnode, DkgNode.pc_mapGen, hpc]; exact DispatchPc.noConfusion)
  rw [hnode] at hDB hpub hst hcm
  rw [DkgNode.pc_mapGen, hpc] at hst
  obtain ⟨hk, hrecv, hcompl, hcard⟩ := hst
  obtain ⟨D, hD, rfl⟩ := nd.exists_of_dkg_mapGen view hDB
  have hjr : sc.dealer ∈ (view D).received := by
    rw [hrecv]
    exact Finset.mem_range.mpr hj
  have hjnew : sc.dealer ∉ (view D).commitments := by
    rw [DkgNode.committed_of_dkg hDB] at hcm
    simpa using hcm
  obtain ⟨D', hproc, hview'⟩ := hM.processSecretCommits hjr (fun v hv => hcompl _ hj v (hgen.participants ▸ hv))
  have hprocB : (Record.methods : Methods K Record).processSecretCommits (view D) sc = (view D', .ok none) := by
    rw [hview']
    exact processSecretCommits_of_certified hjr fun v hv => hcompl _ hj v (hgen.participants ▸ hv)
  have hfinB : k + 1 = n → (view D').finished = true := fun hkn => by
    rw [hview']
    exact finished_recordCommits hgen hcompl hcard hj hjnew hkn
  have hlen : nd.publics.length = n := by rw [← DkgNode.publics_mapGen view, hpub, length_fullPublics]
  rcases hM' : enterSecretCommits n M q { nd with dkg := some D' } (k + 1) with ⟨ndM, outM⟩
  rcases hB : enterSecretCommits n Record.methods q { nd.mapGen view with dkg := some (view D') } (k + 1) with
    ⟨ndB, outB⟩
  obtain ⟨hndM, hexitM⟩ := enterSecretCommits_cases (show ({ nd with dkg := some D' } : DkgNode K Gen).publics.length = n
    from hlen) rfl hk (fun hkn => hM.finished (hfinB hkn)) hM'
  obtain ⟨hndB, hexitB⟩ := enterSecretCommits_cases (show ({ nd.mapGen view with dkg := some (view D') } :
    DkgNode K Record).publics.length = n from hlen) rfl hk hfinB hB
  obtain ⟨hpcs, rfl⟩ := hexitM.unique hexitB
  refine ⟨ndM, outM, outM, ?_, ?_, List.Perm.refl _⟩
  · rw [receive_secretCommit_of_process hpc hD hproc, hM']
  · rw [receive_secretCommit_of_process (show (nd.mapGen view).pc = .secretCommit k from hpc) hDB hprocB, hB,
      hndB, hndM, ← hpcs]
    rfl

/-- `WaitSetup` at a child past its commitments: both generators are
finished. -/
theorem receiveAgree_waitSetup (hM : M.Spec view) {t : DkgSys K Record} (h : DkgInv n key W t)
    {q : ℕ} (hq : q < n) {nd : DkgNode K Gen} (hnode : t.node q = nd.mapGen view) (hpc : nd.pc = .waitSetup) :
    ReceiveAgree n key M view q nd .waitSetup := by
  obtain ⟨DB, hDB, hgen, -, hst, -⟩ :=
    (h.node q hq).gen (by rw [hnode, DkgNode.pc_mapGen, hpc]; exact DispatchPc.noConfusion)
  rw [hnode] at hDB hst
  rw [DkgNode.pc_mapGen, hpc] at hst
  obtain ⟨-, -, -, hcompl, hcomm⟩ := hst
  obtain ⟨D, hD, rfl⟩ := nd.exists_of_dkg_mapGen view hDB
  have hfin := finished_of_stage hgen hcompl hcomm
  refine ⟨_, _, _, receive_waitSetup hpc, ?_, List.Perm.refl _⟩
  rw [receive_waitSetup (show (nd.mapGen view).pc = .waitSetup from hpc), finishDispatch_of_finished hDB hfin,
    finishDispatch_of_finished hD (hM.finished hfin)]
  rfl

/-- A `WaitReply` at the root past its commitments: queued, or, the last,
both generators are finished. -/
theorem receiveAgree_waitReply (hM : M.Spec view) {t : DkgSys K Record} (h : DkgInv n key W t)
    {q : ℕ} (hq : q < n) {nd : DkgNode K Gen} (hnode : t.node q = nd.mapGen view) {c : ℕ}
    (hpc : nd.pc = .waitReply) :
    ReceiveAgree n key M view q nd (.waitReply c) := by
  obtain ⟨DB, hDB, hgen, -, hst, -⟩ :=
    (h.node q hq).gen (by rw [hnode, DkgNode.pc_mapGen, hpc]; exact DispatchPc.noConfusion)
  rw [hnode] at hDB hst
  rw [DkgNode.pc_mapGen, hpc] at hst
  obtain ⟨-, -, -, hcompl, hcomm, -⟩ := hst
  obtain ⟨D, hD, rfl⟩ := nd.exists_of_dkg_mapGen view hDB
  have hfin := finished_of_stage hgen hcompl hcomm
  have hpcB : (nd.mapGen view).pc = .waitReply := hpc
  by_cases hlast : nd.waitReplies.length + 1 = n - 1
  · refine ⟨finishDispatch M { nd with waitReplies := [] }, [], [], ?_, ?_, List.Perm.refl _⟩
    · rw [receive_waitReply hpc, if_pos hlast]
    · rw [receive_waitReply hpcB, DkgNode.waitReplies_mapGen, if_pos hlast,
        finishDispatch_of_finished (show ({ nd.mapGen view with waitReplies := [] } : DkgNode K Record).dkg =
          some (view D) from hDB) hfin,
        finishDispatch_of_finished (show ({ nd with waitReplies := [] } : DkgNode K Gen).dkg = some D from hD)
          (hM.finished hfin)]
      rfl
  · refine ⟨{ nd with waitReplies := c :: nd.waitReplies }, [], [], ?_, ?_, List.Perm.refl _⟩
    · rw [receive_waitReply hpc, if_neg hlast]
    · rw [receive_waitReply hpcB, DkgNode.waitReplies_mapGen, if_neg hlast]
      rfl

/-- **From a reachable state of the bookkeeping run, a packet in flight
that a node takes under `M` is taken by its image, with the same effect
through `view`.**  The packet is pending in the bookkeeping run, which gives
each call of the library an honest argument. -/
theorem receiveAgree_of_net (hM : M.Spec view) (hn : 2 ≤ n) (hkey : ∀ i < n, ∀ j < n, key i = key j → i = j)
    {t : DkgSys K Record} (h : DkgInv n key W t) {s : DkgSys K Gen} (hrel : ViewRel view s t) {p : Packet K}
    (hp : p ∈ s.net) {r : DkgNode K Gen × List (Packet K)}
    (hr : receive n key M p.dest (s.node p.dest) p.msg = some r) :
    ReceiveAgree n key M view p.dest (s.node p.dest) p.msg := by
  have hpend := h.net.pending p (hrel.net.subset hp)
  obtain ⟨q, m⟩ := p
  have hnode := hrel.node q
  cases m with
  | startDeal ps t₀ =>
      obtain ⟨hq, rfl, rfl, hpc⟩ := hpend
      rw [hnode] at hpc
      exact receiveAgree_startDeal hM hn hkey hq hpc
  | deal dd =>
      obtain ⟨hq, hto, hj, -, -, hdl⟩ := hpend
      obtain ⟨k, hpc⟩ := pc_of_receive_deal hr
      exact receiveAgree_deal hM hn h hq hnode hto hj hdl hpc
  | response r' =>
      obtain ⟨hq, hs, -⟩ := hpend
      obtain ⟨k, hpc⟩ := pc_of_receive_response hr
      exact receiveAgree_response hM hn h hq hnode hs hpc
  | secretCommit sc =>
      obtain ⟨hq, hj, -, hcm⟩ := hpend
      obtain ⟨k, hpc⟩ := pc_of_receive_secretCommit hr
      exact receiveAgree_secretCommit hM h hq hnode hj hcm hpc
  | waitSetup =>
      obtain ⟨-, -, hq, -, -⟩ := hpend
      exact receiveAgree_waitSetup hM h hq hnode (pc_of_receive_waitSetup hr)
  | waitReply c =>
      obtain ⟨rfl, -⟩ := hpend
      exact receiveAgree_waitReply hM h (by omega) hnode (pc_of_receive_waitReply hr)

end Agree

/-! ## The two runs simulate each other -/

section Simulate

variable [DecidableEq K] {n : ℕ} {key : ℕ → K} {W : Bool} {M : Methods K Gen} {view : Gen → Record}

/-- The states of the run on `M` related to a reachable state of the
bookkeeping run. -/
def Tracked (n : ℕ) (key : ℕ → K) (W : Bool) (view : Gen → Record) (s : DkgSys K Gen)
    (t : DkgSys K Record) : Prop :=
  ViewRel view s t ∧ Reachable (DkgInit n key W) (DkgStep n key Record.methods) t

theorem viewRel_update {s : DkgSys K Gen} {t : DkgSys K Record} (hrel : ViewRel view s t) {p : Packet K}
    {nd' : DkgNode K Gen} {out : List (Packet K)} {out' : List (Packet K)} (hperm : out.Perm out') :
    ViewRel view ⟨Function.update s.node p.dest nd', s.net.erase p ++ out⟩
      ⟨Function.update t.node p.dest (nd'.mapGen view), t.net.erase p ++ out'⟩ := by
  refine ⟨fun q => ?_, (hrel.net.erase p).append hperm⟩
  dsimp only
  rcases eq_or_ne q p.dest with rfl | hq
  · rw [Function.update_self, Function.update_self]
  · rw [Function.update_of_ne hq, Function.update_of_ne hq, hrel.node q]

/-- **A step of the run on `M` is a step of the bookkeeping run.** -/
theorem tracked_step (hM : M.Spec view) (hn : 2 ≤ n) (hkey : ∀ i < n, ∀ j < n, key i = key j → i = j)
    (s : DkgSys K Gen) (t : DkgSys K Record) (p : Packet K) (s' : DkgSys K Gen) (ht : Tracked n key W view s t)
    (hst : DkgStep n key M s p s') : ∃ t', DkgStep n key Record.methods t p t' ∧ Tracked n key W view s' t' := by
  obtain ⟨hrel, hreach⟩ := ht
  obtain ⟨hp, hdel⟩ := hst
  obtain ⟨nd', out, hr, rfl⟩ := deliver_eq_some.mp hdel
  obtain ⟨nd'', out'', out', hrM, hrB, hperm⟩ :=
    receiveAgree_of_net hM hn hkey (dkgInv_of_reachable hn hkey hreach) hrel hp hr
  rw [hr, Option.some.injEq, Prod.mk.injEq] at hrM
  obtain ⟨rfl, rfl⟩ := hrM
  rw [← hrel.node p.dest] at hrB
  have hstB : DkgStep n key Record.methods t p
      ⟨Function.update t.node p.dest (nd'.mapGen view), t.net.erase p ++ out'⟩ :=
    ⟨hrel.net.subset hp, deliver_eq_some.mpr ⟨_, _, hrB, rfl⟩⟩
  exact ⟨_, hstB, viewRel_update hrel hperm, hreach.step hstB⟩

/-- **A step of the bookkeeping run is a step of the run on `M`.** -/
theorem tracked_step_back (hM : M.Spec view) (hn : 2 ≤ n) (hkey : ∀ i < n, ∀ j < n, key i = key j → i = j)
    (t : DkgSys K Record) (s : DkgSys K Gen) (p : Packet K) (t' : DkgSys K Record)
    (ht : Tracked n key W view s t) (hst : DkgStep n key Record.methods t p t') :
    ∃ s', DkgStep n key M s p s' ∧ Tracked n key W view s' t' := by
  obtain ⟨hrel, hreach⟩ := ht
  obtain ⟨hp, hdel⟩ := hst
  obtain ⟨ndB, outB, hrB, rfl⟩ := deliver_eq_some.mp hdel
  have hp' : p ∈ s.net := hrel.net.symm.subset hp
  -- the node takes the packet under `M` too, since its image does
  obtain ⟨r, hr⟩ : ∃ r, receive n key M p.dest (s.node p.dest) p.msg = some r := by
    have hsome := isSome_receive_mapGen n key p.dest M Record.methods view (s.node p.dest) p.msg
    rw [← hrel.node p.dest, hrB, Option.isSome_some, eq_comm, Option.isSome_iff_exists] at hsome
    exact hsome
  obtain ⟨nd', out, out', hrM, hrB', hperm⟩ :=
    receiveAgree_of_net hM hn hkey (dkgInv_of_reachable hn hkey hreach) hrel hp' hr
  rw [← hrel.node p.dest, hrB, Option.some.injEq, Prod.mk.injEq] at hrB'
  obtain ⟨rfl, rfl⟩ := hrB'
  have hstB : DkgStep n key Record.methods t p ⟨Function.update t.node p.dest (nd'.mapGen view), t.net.erase p ++ outB⟩ :=
    ⟨hp, deliver_eq_some.mpr ⟨_, _, hrB, rfl⟩⟩
  exact ⟨_, ⟨hp', deliver_eq_some.mpr ⟨_, _, hrM, rfl⟩⟩, viewRel_update hrel hperm, hreach.step hstB⟩

/-- The start of the run on `M`, read through `view`, is a start of the
bookkeeping run. -/
theorem tracked_init {s : DkgSys K Gen} (hs : DkgInit n key W s) :
    ∃ t, DkgInit n key W t ∧ Tracked n key W view s t := by
  have hinit : DkgInit n key W (⟨fun q => (s.node q).mapGen view, s.net⟩ : DkgSys K Record) := by
    obtain ⟨replies, hperm, rfl⟩ := hs
    refine ⟨replies, hperm, ?_⟩
    rw [← newSetupDkg_mapGen view, rootStartDeal_mapGen]
    dsimp only
    congr 1
    funext q
    rw [Function.update_apply, Function.update_apply]
    split_ifs <;> rfl
  exact ⟨_, hinit, ⟨fun q => rfl, List.Perm.refl _⟩, Reachable.init hinit⟩

/-- The end of the bookkeeping run, read back: the run on `M` is at its end,
each generator finished by `Finished()` of the library. -/
theorem dkgDone_of_viewRel (hM : M.Spec view) {s : DkgSys K Gen} {t : DkgSys K Record}
    (hrel : ViewRel view s t) (hdone : DkgDone n Record.methods id t) : DkgDone n M view s := by
  obtain ⟨hnet, hnodes⟩ := hdone
  have hperm := hrel.net
  rw [hnet] at hperm
  refine ⟨hperm.eq_nil, fun q hq => ?_⟩
  obtain ⟨hpc, DB, hDB, hrecv, hcompl, hcomm, hfin⟩ := hnodes q hq
  rw [hrel.node q] at hpc hDB
  obtain ⟨D, hD, rfl⟩ := (s.node q).exists_of_dkg_mapGen view hDB
  exact ⟨hpc, D, hD, hrecv, hcompl, hcomm, hM.finished hfin⟩

/-- Every reachable state of the run on `M` reads, through `view`, as a
reachable state of the bookkeeping run. -/
theorem tracked_of_reachable (hM : M.Spec view) (hn : 2 ≤ n) (hkey : ∀ i < n, ∀ j < n, key i = key j → i = j)
    {s : DkgSys K Gen} (hs : Reachable (DkgInit n key W) (DkgStep n key M) s) :
    ∃ t, Reachable (DkgInit n key W) (DkgStep n key Record.methods) t ∧ Tracked n key W view s t :=
  Reachable.simulate (tracked_step hM hn hkey) (fun _ h0 => tracked_init h0) hs

end Simulate

/-! ## The result -/

section Protocol

variable [DecidableEq K] {n : ℕ} {key : ℕ → K} {W : Bool}

/-- **`SetupDKG` on the one-level tree ends with every generator
finished, whatever the order of delivery**, on any library that meets
`Methods.Spec` and for the distinct keys that `key.NewKeyPair` draws in
`NewSetupDKG`.  Every deal in flight goes to the participant it was produced
for; no run is longer than the weight of the `StartDeal`s the root sends,
so no order of delivery goes on for ever; from every reachable state some
order reaches the end; and a reachable state in which no node can take a
packet is the end: nothing is left in flight, and every node has returned
from `Dispatch` with a generator that holds every deal, response and
commitment and that `Finished()` reports finished. -/
theorem setupDkg_dispatch_finishes {M : Methods K Gen} {view : Gen → Record} (hM : M.Spec view) (hn : 2 ≤ n)
    (hkey : ∀ i < n, ∀ j < n, key i = key j → i = j) :
    (∀ s, Reachable (DkgInit n key W) (DkgStep n key M) s →
      ∀ p ∈ s.net, ∀ dd, p.msg = .deal dd → dd.recipient = p.dest) ∧
    (∀ s₀ ls s, DkgInit n key W s₀ → Run (DkgStep n key M) s₀ ls s →
      ls.length ≤ n * (n * dealWeight n + 2 * n + 1)) ∧
    (∀ s, Reachable (DkgInit n key W) (DkgStep n key M) s →
      ∃ ls s', Run (DkgStep n key M) s ls s' ∧ DkgDone n M view s') ∧
    (∀ s, Reachable (DkgInit n key W) (DkgStep n key M) s →
      Stuck (DkgStep n key M) s → DkgDone n M view s) := by
  refine ⟨fun s hs p hp dd hm => ?_, fun s₀ ls s h0 hr => ?_, fun s hs => ?_, fun s hs hstuck => ?_⟩
  · obtain ⟨t, ht, hrel, -⟩ := tracked_of_reachable hM hn hkey hs
    exact recipient_of_deal (dkgInv_of_reachable hn hkey ht) (hrel.net.subset hp) hm
  · -- the run, read through `view`, is a bookkeeping run from a start
    obtain ⟨t₀, ht₀, htr⟩ : ∃ t, DkgInit n key W t ∧ Tracked n key W view s₀ t := tracked_init h0
    obtain ⟨t, hrun, -⟩ := Run.simulate (tracked_step hM hn hkey) hr htr
    have hlen := run_length_le (by omega) hrun
    rwa [netWeight_of_dkgInit (by omega) ht₀] at hlen
  · -- the bookkeeping run to its end, followed under `M`
    obtain ⟨t, ht, htr⟩ := tracked_of_reachable hM hn hkey hs
    obtain ⟨ls, t', hrun, hdone⟩ := exists_run_dkgDone hn hkey ht
    obtain ⟨s', hrun', hrel', -⟩ := Run.simulate (R := fun t s => Tracked n key W view s t)
      (tracked_step_back hM hn hkey) hrun htr
    exact ⟨ls, s', hrun', dkgDone_of_viewRel hM hrel' hdone⟩
  · obtain ⟨t, ht, htr⟩ := tracked_of_reachable hM hn hkey hs
    have hstuckB : Stuck (DkgStep n key Record.methods) t := fun p t' hst => by
      obtain ⟨s', hst', -⟩ := tracked_step_back hM hn hkey t s p t' htr hst
      exact hstuck p s' hst'
    exact dkgDone_of_viewRel hM htr.1 (dkgDone_of_stuck (dkgInv_of_reachable hn hkey ht) hstuckB)

/-- Three conodes keyed by their roster index, with the service waiting for
the children's replies, on the bookkeeping machine. -/
theorem setupDkg_dispatch_finishes_three :
    (Record.methods : Methods ℕ Record).Spec id ∧ 2 ≤ 3 ∧ (∀ i < 3, ∀ j < 3, (id i : ℕ) = id j → i = j) ∧
    ((∀ s, Reachable (DkgInit 3 (id : ℕ → ℕ) true) (DkgStep 3 id Record.methods) s →
      ∀ p ∈ s.net, ∀ dd, p.msg = .deal dd → dd.recipient = p.dest) ∧
    (∀ s₀ ls s, DkgInit 3 (id : ℕ → ℕ) true s₀ → Run (DkgStep 3 id Record.methods) s₀ ls s →
      ls.length ≤ 3 * (3 * dealWeight 3 + 2 * 3 + 1)) ∧
    (∀ s, Reachable (DkgInit 3 (id : ℕ → ℕ) true) (DkgStep 3 id Record.methods) s →
      ∃ ls s', Run (DkgStep 3 id Record.methods) s ls s' ∧ DkgDone 3 Record.methods id s') ∧
    (∀ s, Reachable (DkgInit 3 (id : ℕ → ℕ) true) (DkgStep 3 id Record.methods) s →
      Stuck (DkgStep 3 id Record.methods) s → DkgDone 3 Record.methods id s)) :=
  ⟨methods_spec, by decide, fun _ _ _ _ h => h,
    setupDkg_dispatch_finishes methods_spec (by decide) fun _ _ _ _ h => h⟩

end Protocol

end Decenarch
