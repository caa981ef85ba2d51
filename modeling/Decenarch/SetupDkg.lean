import Decenarch.Lib.RabinDkg
import Decenarch.Lib.Outcome
import Decenarch.Lib.Transition

/-!
# The DKG setup protocol (`protocol/dkg.go`)

`Setup` runs the protocol `SetupDKG` on the tree `GenerateNaryTree(n)` of a
roster of `n` servers: a root at roster index 0 and every other server its
child.  The root collects every child's public key (`Init`, `InitReply`) and
sends `StartDeal` with the keys to every node; then each node's `Dispatch`
takes, from one channel after the other, one `StartDeal`, `n - 1` deals,
`n(n - 1)` responses and `n` secret commitments, as its loop bounds say,
exchanges `WaitSetup` and `WaitReply` with the root when `o.Wait`, and
returns.  The handlers that `Dispatch` calls send on: a deal to each other
participant, a response on each deal to every node, and the secret
commitments once, to every node.

kyber's generator is the parameter `M : RabinDkg.Methods K Gen`, and a
node holds a generator of type `Gen`.

The network delivers the packets in any order: a step takes any packet in
flight to its node, where it waits in its channel until `Dispatch` receives
from that channel.  The model starts once `rootStartDeal` has run; the
exchange of `Init` and `InitReply` before it is the order of the replies,
which the initial states range over.  `SetupDkgRun` states the invariant of
the reachable states of the run on the bookkeeping machine `RabinDkg.Record`,
`SetupDkgSteps` proves that every delivery keeps it, `SetupDkgLive` that
every delivery order ends with every node returned and finished and nothing
left in flight, and `SetupDkgRefine` carries this over to every library that
meets `RabinDkg.Methods.Spec`.
-/

namespace Decenarch

open RabinDkg

/-! ## The tree -/

/-- An `onet.TreeNode`, by the roster index of its server. -/
inductive RosterTreeNode where
  | mk (rosterIndex : ℕ) (children : List RosterTreeNode)

namespace RosterTreeNode

def rosterIndex : RosterTreeNode → ℕ
  | mk r _ => r

/-- The roster indices of the node's children. -/
def childIndices : RosterTreeNode → List ℕ
  | mk _ cs => cs.map rosterIndex

mutual

/-- `Tree.List()`: the nodes in the order of `Visit`, each before its
children. -/
def list : RosterTreeNode → List ℕ
  | mk r cs => r :: listChildren cs

/-- The nodes below the children, in order. -/
def listChildren : List RosterTreeNode → List ℕ
  | [] => []
  | c :: cs => list c ++ listChildren cs

end

end RosterTreeNode

/-- `GenerateNaryTree(n)` on a roster of `n` servers: the root at roster
index 0, and the others its children in roster order. -/
def oneLevelRosterTree (n : ℕ) : RosterTreeNode :=
  .mk 0 ((List.range (n - 1)).map fun i => .mk (i + 1) [])

/-! ## Messages and nodes -/

/-- The messages of the protocol after `Init` and `InitReply`.  Of the
sender that onet attaches, only `WaitReply` keeps it: the root's queue
collects one per child. -/
inductive Msg (K : Type) where
  | startDeal (publics : List (Option K)) (threshold : ℕ)
  | deal (d : Deal)
  | response (r : Response)
  | secretCommit (sc : SecretCommits)
  | waitSetup
  | waitReply (sender : ℕ)
  deriving DecidableEq

/-- A message in flight to the node at roster index `dest`. -/
structure Packet (K : Type) where
  dest : ℕ
  msg : Msg K
  deriving DecidableEq

/-- Where the goroutine of `Dispatch` is: at a receive from one of its
channels, or returned. -/
inductive DispatchPc where
  /-- `<-o.structStartDeal`. -/
  | startDeal
  /-- `<-o.structDeal` in `for range o.publics[1:]`, after `k` deals. -/
  | deal (k : ℕ)
  /-- `<-o.structResponse` in `for i := 0; i < l*(l-1); i++`, at `i = k`. -/
  | response (k : ℕ)
  /-- `<-o.structSecretCommit` in `for i := 0; i < l; i++`, at `i = k`. -/
  | secretCommit (k : ℕ)
  /-- `<-o.structWaitSetup`, at a child when `o.Wait`. -/
  | waitSetup
  /-- `<-o.structWaitReply`, at the root when `o.Wait`. -/
  | waitReply
  /-- `Dispatch` returned this error, or `nil` after `o.Done <- true`. -/
  | returned (err : Option String)
  /-- A runtime panic: an index out of range, or a nil `o.DKG`. -/
  | panicked
  deriving DecidableEq

/-- The fields of `SetupDKG` that `Dispatch` and its handlers use, and, at
the root, onet's queue of the `WaitReply`s it aggregates. -/
structure DkgNode (K Gen : Type) where
  pc : DispatchPc
  dkg : Option Gen
  publics : List (Option K)
  commit : Bool
  wait : Bool
  waitReplies : List ℕ

/-! ## The handlers -/

section Handlers

variable {K : Type} [DecidableEq K] (n : ℕ) (key : ℕ → K) {Gen : Type} (M : Methods K Gen)

/-- `o.nodes`, that is `n.List()`. -/
def dkgNodes : List ℕ := (oneLevelRosterTree n).list

/-- `o.Threshold`: `len(roster) - (len(roster) - 1) / 3`. -/
def dkgThreshold : ℕ := n - (n - 1) / 3

/-- `fullBroadcast(msg)`: `o.Multicast(msg, o.nodes...)`. -/
def fullBroadcast (m : Msg K) : List (Packet K) := (dkgNodes n).map fun i => ⟨i, m⟩

/-- The loop of `rootStartDeal` over the replies, `o.publics[index] =
r.Public` at the roster index of the reply's server: the keys set, and
`false` at a server that `Search` does not find. -/
def setPublics : List (Option K) → List (ℕ × K) → List (Option K) × Bool
  | ps, [] => (ps, true)
  | ps, (i, pub) :: rest => if i < n then setPublics (ps.set i (some pub)) rest else (ps, false)

/-- `rootStartDeal(replies)` on the root: `o.publics[0]` is its own key, then
the children's, and `StartDeal` goes to every node. -/
def rootStartDeal (nd : DkgNode K Gen) (replies : List (ℕ × K)) : DkgNode K Gen × List (Packet K) :=
  match setPublics n (nd.publics.set 0 (some (key 0))) replies with
  | (ps, true) => ({ nd with publics := ps }, fullBroadcast n (.startDeal ps (dkgThreshold n)))
  | (ps, false) => ({ nd with publics := ps }, [])

/-- The loop `for i, d := range deals { o.SendTo(o.nodes[i], &Deal{d}) }` of
`allStartDeal`: the packets sent, and `false` at an index out of range of
`o.nodes`. -/
def sendDeals : List (ℕ × Deal) → List (Packet K) × Bool
  | [] => ([], true)
  | (i, dd) :: rest =>
      match (dkgNodes n)[i]? with
      | none => ([], false)
      | some dest => ((⟨dest, .deal dd⟩ : Packet K) :: (sendDeals rest).1, (sendDeals rest).2)

variable (me : ℕ)

/-- `allStartDeal(ssd)` at node `me`: the node after it, what it sent, and
what it returned (a panic at an index out of range of `o.nodes`).  `o.DKG`
is nil after a failed `NewDistKeyGenerator`. -/
def allStartDeal (nd : DkgNode K Gen) (ps : List (Option K)) (t : ℕ) :
    DkgNode K Gen × List (Packet K) × Outcome (Option String) :=
  match M.newDistKeyGenerator (key me) ps t with
  | .error e => ({ nd with dkg := none }, [], .ok (some e))
  | .ok D =>
      match M.deals D with
      | (D', .error e) => ({ nd with dkg := some D', publics := ps }, [], .ok (some e))
      | (D', .ok deals) =>
          match sendDeals n deals with
          | (out, true) => ({ nd with dkg := some D', publics := ps }, out, .ok none)
          | (out, false) => ({ nd with dkg := some D', publics := ps }, out, .panic)

/-- `allDeal(sd)`, with `o.DKG = D`. -/
def allDeal (nd : DkgNode K Gen) (D : Gen) (dd : Deal) : DkgNode K Gen × List (Packet K) × Option String :=
  match M.processDeal D dd with
  | (D', .error e) => ({ nd with dkg := some D' }, [], some e)
  | (D', .ok resp) => ({ nd with dkg := some D' }, fullBroadcast n (.response resp), none)

/-- `allResponse(resp)`, with `o.DKG = D`: a justification is only logged;
otherwise, once `SecretCommits` succeeds, the first time only, the
commitments go to every node. -/
def allResponse (nd : DkgNode K Gen) (D : Gen) (resp : Response) :
    DkgNode K Gen × List (Packet K) × Option String :=
  match M.processResponse D resp with
  | (D', .error e) => ({ nd with dkg := some D' }, [], some e)
  | (D', .ok (some _)) => ({ nd with dkg := some D' }, [], none)
  | (D', .ok none) =>
      match M.secretCommits D' with
      | (D'', .ok sc) =>
          if nd.commit = false then ({ nd with dkg := some D'', commit := true }, fullBroadcast n (.secretCommit sc), none)
          else ({ nd with dkg := some D'' }, [], none)
      | (D'', .error e) => ({ nd with dkg := some D'' }, [], some e)

/-- `allSecretCommit(comm)`, with `o.DKG = D`: a complaint is only logged. -/
def allSecretCommit (nd : DkgNode K Gen) (D : Gen) (sc : SecretCommits) : DkgNode K Gen × Option String :=
  match M.processSecretCommits D sc with
  | (D', .error e) => ({ nd with dkg := some D' }, some e)
  | (D', .ok _) => ({ nd with dkg := some D' }, none)

/-! ## `Dispatch` -/

/-- The end of `Dispatch`: `if o.DKG.Finished() { o.Done <- true; return nil }`. -/
def finishDispatch (nd : DkgNode K Gen) : DkgNode K Gen :=
  match nd.dkg with
  | none => { nd with pc := .panicked }
  | some D => { nd with pc := .returned (if M.finished D then none else some "protocol is finished but dkg is not") }

/-- After the loop over the secret commitments: when `o.Wait`, the root
sends `WaitSetup` to its children and waits for their replies, a child
waits for `WaitSetup`; otherwise the end. -/
def afterSecretCommits (nd : DkgNode K Gen) : DkgNode K Gen × List (Packet K) :=
  if nd.wait then
    if me = (oneLevelRosterTree n).rosterIndex then
      ({ nd with pc := .waitReply }, (oneLevelRosterTree n).childIndices.map fun c => ⟨c, .waitSetup⟩)
    else ({ nd with pc := .waitSetup }, [])
  else (finishDispatch M nd, [])

/-- The loop over the secret commitments at iteration `k`, `l = len(o.publics)`. -/
def enterSecretCommits (nd : DkgNode K Gen) (k : ℕ) : DkgNode K Gen × List (Packet K) :=
  if k < nd.publics.length then ({ nd with pc := .secretCommit k }, [])
  else afterSecretCommits n M me nd

/-- The loop over the responses at iteration `k`. -/
def enterResponses (nd : DkgNode K Gen) (k : ℕ) : DkgNode K Gen × List (Packet K) :=
  if k < nd.publics.length * (nd.publics.length - 1) then ({ nd with pc := .response k }, [])
  else enterSecretCommits n M me nd 0

/-- The loop over `o.publics[1:]` after `k` deals. -/
def enterDeals (nd : DkgNode K Gen) (k : ℕ) : DkgNode K Gen × List (Packet K) :=
  if k < nd.publics.length - 1 then ({ nd with pc := .deal k }, [])
  else enterResponses n M me nd 0

/-- The two errors of `allResponse` that `Dispatch` lets pass. -/
def toleratedError (e : String) : Prop :=
  e = "vss: already existing response from same origin" ∨
    e = "dkg: can't give SecretCommits if deal not certified"

instance (e : String) : Decidable (toleratedError e) :=
  inferInstanceAs (Decidable (_ ∨ _))

/-- What node `me` does with the message `m` taken from the network: the
receive of `Dispatch` that waits for it passes it to the handler and runs on
to the next receive, giving the node after and the packets sent; `none`
when no receive waits for `m` now, which then stays in its channel. -/
def receive (nd : DkgNode K Gen) : Msg K → Option (DkgNode K Gen × List (Packet K))
  | .startDeal ps t =>
      if nd.pc = .startDeal then
        some (match allStartDeal n key M me nd ps t with
          | (nd', out, .ok none) =>
              -- `o.publics[1:]` panics on an empty slice
              if nd'.publics = [] then ({ nd' with pc := .panicked }, out)
              else ((enterDeals n M me nd' 0).1, out ++ (enterDeals n M me nd' 0).2)
          | (nd', out, .ok (some e)) => ({ nd' with pc := .returned (some e) }, out)
          | (nd', out, _) => ({ nd' with pc := .panicked }, out))
      else none
  | .deal dd =>
      match nd.pc, nd.dkg with
      | .deal _, none => some ({ nd with pc := .panicked }, [])
      | .deal k, some D =>
          some (match allDeal n M nd D dd with
            | (nd', out, none) => ((enterDeals n M me nd' (k + 1)).1, out ++ (enterDeals n M me nd' (k + 1)).2)
            | (nd', out, some e) => ({ nd' with pc := .returned (some e) }, out))
      | _, _ => none
  | .response resp =>
      match nd.pc, nd.dkg with
      | .response _, none => some ({ nd with pc := .panicked }, [])
      | .response k, some D =>
          some (match allResponse n M nd D resp with
            | (nd', out, some e) =>
                if toleratedError e then
                  ((enterResponses n M me nd' (k + 1)).1, out ++ (enterResponses n M me nd' (k + 1)).2)
                else ({ nd' with pc := .returned (some e) }, out)
            | (nd', out, none) =>
                ((enterResponses n M me nd' (k + 1)).1, out ++ (enterResponses n M me nd' (k + 1)).2))
      | _, _ => none
  | .secretCommit sc =>
      match nd.pc, nd.dkg with
      | .secretCommit _, none => some ({ nd with pc := .panicked }, [])
      | .secretCommit k, some D =>
          some (match allSecretCommit M nd D sc with
            | (nd', none) => enterSecretCommits n M me nd' (k + 1)
            | (nd', some e) => ({ nd' with pc := .returned (some e) }, []))
      | _, _ => none
  | .waitSetup =>
      if nd.pc = .waitSetup then
        some (finishDispatch M nd, [⟨(oneLevelRosterTree n).rosterIndex, .waitReply me⟩])
      else none
  | .waitReply c =>
      -- onet queues each child's reply and passes them on together
      if nd.pc = .waitReply then
        if nd.waitReplies.length + 1 = (oneLevelRosterTree n).childIndices.length then
          some (finishDispatch M { nd with waitReplies := [] }, [])
        else some ({ nd with waitReplies := c :: nd.waitReplies }, [])
      else none

end Handlers

/-! ## The system -/

/-- The nodes, by roster index, and the packets in flight or waiting in a
channel. -/
structure DkgSys (K Gen : Type) where
  node : ℕ → DkgNode K Gen
  net : List (Packet K)

section System

variable {K : Type} [DecidableEq K] (n : ℕ) (key : ℕ → K) {Gen : Type} (M : Methods K Gen)

/-- The packet `p` taken by its node. -/
def deliver (s : DkgSys K Gen) (p : Packet K) : Option (DkgSys K Gen) :=
  (receive n key M p.dest (s.node p.dest) p.msg).map fun r =>
    ⟨Function.update s.node p.dest r.1, s.net.erase p ++ r.2⟩

/-- A step: the network delivers any packet in flight, whatever the order in
which they were sent. -/
def DkgStep (s : DkgSys K Gen) (p : Packet K) (s' : DkgSys K Gen) : Prop :=
  p ∈ s.net ∧ deliver n key M s p = some s'

/-- A node as `NewSetupDKG` leaves it, with `o.Wait` as the service (at the
root) or `childInit` (at a child) set it. -/
def newSetupDkg (wait : Bool) : DkgNode K Gen :=
  ⟨.startDeal, none, List.replicate (dkgNodes n).length none, false, wait, []⟩

/-- The states in which the nodes start `Dispatch`'s work: every child has
answered `Init` with its key, and the root has run `rootStartDeal` on the
replies in the order they came. -/
def DkgInit (wait : Bool) (s : DkgSys K Gen) : Prop :=
  ∃ replies : List (ℕ × K), replies.Perm ((oneLevelRosterTree n).childIndices.map fun c => (c, key c)) ∧
    s = ⟨Function.update (fun _ => newSetupDkg n wait) (oneLevelRosterTree n).rosterIndex
        (rootStartDeal n key (newSetupDkg n wait : DkgNode K Gen) replies).1,
      (rootStartDeal n key (newSetupDkg n wait : DkgNode K Gen) replies).2⟩

end System

end Decenarch
