import Mathlib.Data.Finset.Card
import Mathlib.Data.Finset.Prod

/-!
# kyber's Rabin DKG (`share/dkg/rabin`), as a parameter

A `DistKeyGenerator` of `n` participants runs one dealer, its own, and a
verifier for every dealer.  A participant that processes the deal of dealer
`d` answers with a response on `d`'s deal; the verifiers and the dealer keep
the responses they receive, one per verifier; a deal is certified once every
participant has answered it; a participant gives its secret commitments once
its own deal is certified, and the others record them.

kyber is not part of the repository.  Its functions are the parameter
`Methods K Gen`, on generators of any type `Gen`, and what a protocol relies
on of them is the hypothesis `Methods.Spec M view`: seen through `view`, which
reads off what a generator has recorded (the dealers whose deal its verifiers
hold, the responses they hold as pairs (dealer, verifier), the dealers whose
commitments it holds), each call that an honest run makes succeeds and
records what the bookkeeping machine `Record` records.  Among them are the
three properties that `SetupDKG` states of the library:

* `Deals()` processes the dealer's own deal and returns one deal for every
  other participant, keyed by its index, in the order of a Go map;
* a response that the verifier already holds, such as the one a participant
  produced itself in `ProcessDeal`, is refused with
  `"vss: already existing response from same origin"`;
* `SecretCommits()` succeeds once every response to the participant's own
  deal has been processed, and fails before with
  `"dkg: can't give SecretCommits if deal not certified"`.

A message is identified by the indices it carries: a deal by its dealer and
the participant it was encrypted for, a response by the dealer and the
verifier.  `Record` itself meets the hypothesis with the identity as view
(`Record.methods_spec`).
-/

namespace RabinDkg

/-- `dkg.Deal`: the deal of the participant `dealer`, encrypted for the
participant `recipient`. -/
structure Deal where
  dealer : ℕ
  recipient : ℕ
  deriving DecidableEq, Repr

/-- `dkg.Response`: the response of the participant `verifier` to the deal
of `dealer`. -/
structure Response where
  dealer : ℕ
  verifier : ℕ
  deriving DecidableEq, Repr

/-- `dkg.SecretCommits` of the participant `dealer`. -/
structure SecretCommits where
  dealer : ℕ
  deriving DecidableEq, Repr

/-- `dkg.Justification` of the participant `dealer`. -/
structure Justification where
  dealer : ℕ

/-- `dkg.ComplaintCommits` against the participant `dealer`. -/
structure ComplaintCommits where
  dealer : ℕ

/-- The functions of `share/dkg/rabin` that a protocol calls, on generators
of type `Gen`.  The methods of `*DistKeyGenerator` return the generator they
leave behind with their result: Go mutates it through the pointer, also when
the call fails. -/
structure Methods (K Gen : Type*) where
  /-- `NewDistKeyGenerator(suite, longterm, participants, t)`, by the
  participant's public key. -/
  newDistKeyGenerator : K → List (Option K) → ℕ → Except String Gen
  /-- `Deals()`: the deals by the index of the participant they go to, in
  the order in which Go ranges over the returned map. -/
  deals : Gen → Gen × Except String (List (ℕ × Deal))
  /-- `ProcessDeal(dd)`. -/
  processDeal : Gen → Deal → Gen × Except String Response
  /-- `ProcessResponse(resp)`. -/
  processResponse : Gen → Response → Gen × Except String (Option Justification)
  /-- `SecretCommits()`. -/
  secretCommits : Gen → Gen × Except String SecretCommits
  /-- `ProcessSecretCommits(sc)`. -/
  processSecretCommits : Gen → SecretCommits → Gen × Except String (Option ComplaintCommits)
  /-- `Finished()`. -/
  finished : Gen → Bool

/-! ## The bookkeeping machine -/

/-- What a generator has recorded: the number of participants, its own index
among them, the threshold, the dealers whose deal its verifiers hold, the
responses its verifiers and its dealer hold as pairs (dealer, verifier), and
the dealers whose secret commitments it holds. -/
structure Record where
  participants : ℕ
  index : ℕ
  t : ℕ
  received : Finset ℕ
  responses : Finset (ℕ × ℕ)
  commitments : Finset ℕ
  deriving DecidableEq

namespace Record

variable {K : Type*} [DecidableEq K]

/-- The deal of `dealer` recorded, with this participant's approval of it
and the dealer's own (`UnsafeSetResponseDKG`). -/
def recordDeal (D : Record) (dealer : ℕ) : Record :=
  { D with
    received := insert dealer D.received
    responses := insert (dealer, D.index) (insert (dealer, dealer) D.responses) }

/-- The response of `verifier` to the deal of `dealer` recorded. -/
def recordResponse (D : Record) (dealer verifier : ℕ) : Record :=
  { D with responses := insert (dealer, verifier) D.responses }

/-- The secret commitments of `dealer` recorded. -/
def recordCommits (D : Record) (dealer : ℕ) : Record :=
  { D with commitments := insert dealer D.commitments }

/-- A deal is certified when every participant has answered it. -/
def Certified (D : Record) (dealer : ℕ) : Prop :=
  ∀ v < D.participants, (dealer, v) ∈ D.responses

instance (D : Record) (dealer : ℕ) : Decidable (D.Certified dealer) :=
  inferInstanceAs (Decidable (∀ v < D.participants, (dealer, v) ∈ D.responses))

/-- A new generator: the index is the position of the participant's own
public key, and nothing is recorded. -/
def new (pub : K) (participants : List (Option K)) (t : ℕ) : Except String Record :=
  if some pub ∈ participants then .ok ⟨participants.length, participants.idxOf (some pub), t, ∅, ∅, ∅⟩
  else .error "dkg: own public key not found in list of participants"

/-- The generator once its own deal is processed, so that its verifier holds
the dealer's own approval. -/
def recordOwnDeal (D : Record) : Record :=
  { D with received := insert D.index D.received, responses := insert (D.index, D.index) D.responses }

/-- The deals for the other participants, by their index. -/
def dealList (D : Record) : List (ℕ × Deal) :=
  ((List.range D.participants).filter (· ≠ D.index)).map fun i => (i, ⟨D.index, i⟩)

def deals (D : Record) : Record × Except String (List (ℕ × Deal)) :=
  (D.recordOwnDeal, .ok D.dealList)

def processDeal (D : Record) (dd : Deal) : Record × Except String Response :=
  if dd.recipient ≠ D.index then (D, .error "vss: verifier got wrong index from deal")
  else if dd.dealer ∈ D.received then (D, .error "vss: verifier already received a deal")
  else (D.recordDeal dd.dealer, .ok ⟨dd.dealer, D.index⟩)

/-- Approvals give no justification. -/
def processResponse (D : Record) (resp : Response) : Record × Except String (Option Justification) :=
  if resp.dealer ∉ D.received then (D, .error "vss: receiving inconsistent sessionID in response")
  else if (resp.dealer, resp.verifier) ∈ D.responses then
    (D, .error "vss: already existing response from same origin")
  else (D.recordResponse resp.dealer resp.verifier, .ok none)

def secretCommits (D : Record) : Record × Except String SecretCommits :=
  (D, if D.Certified D.index then .ok ⟨D.index⟩
    else .error "dkg: can't give SecretCommits if deal not certified")

/-- Honest commitments verify against the deal, so they are recorded once
the deal is certified; no complaint is given. -/
def processSecretCommits (D : Record) (sc : SecretCommits) :
    Record × Except String (Option ComplaintCommits) :=
  if sc.dealer ∈ D.received ∧ D.Certified sc.dealer then (D.recordCommits sc.dealer, .ok none)
  else (D, .error "dkg: secretcommits received for a non certified deal")

/-- Every certified dealer (the qualified set) has given its commitments,
and there are at least `t - 1` of them. -/
def finished (D : Record) : Bool :=
  decide ((∀ d < D.participants, D.Certified d → d ∈ D.commitments) ∧
    D.t - 1 ≤ ((Finset.range D.participants).filter D.Certified).card)

/-- The bookkeeping machine as an implementation of the library. -/
def methods : Methods K Record :=
  ⟨new, deals, processDeal, processResponse, secretCommits, processSecretCommits, finished⟩

/-! ### What each call does -/

theorem new_eq_ok {pub : K} {ps : List (Option K)} (hmem : some pub ∈ ps) (t : ℕ) :
    new pub ps t = .ok ⟨ps.length, ps.idxOf (some pub), t, ∅, ∅, ∅⟩ := by
  rw [new, if_pos hmem]

theorem length_dealList_le (D : Record) : D.dealList.length ≤ D.participants := by
  rw [dealList, List.length_map]
  exact (List.length_filter_le _ _).trans_eq List.length_range

theorem processDeal_eq_ok {D : Record} {dd : Deal} (hto : dd.recipient = D.index)
    (hnew : dd.dealer ∉ D.received) :
    D.processDeal dd = (D.recordDeal dd.dealer, .ok ⟨dd.dealer, D.index⟩) := by
  rw [processDeal, if_neg (not_not.mpr hto), if_neg hnew]

/-- **A response held already is refused**, with the error that `Dispatch`
lets pass. -/
theorem processResponse_of_mem {D : Record} {resp : Response} (hd : resp.dealer ∈ D.received)
    (hr : (resp.dealer, resp.verifier) ∈ D.responses) :
    D.processResponse resp = (D, .error "vss: already existing response from same origin") := by
  rw [processResponse, if_neg (not_not.mpr hd), if_pos hr]

theorem processResponse_of_notMem {D : Record} {resp : Response} (hd : resp.dealer ∈ D.received)
    (hr : (resp.dealer, resp.verifier) ∉ D.responses) :
    D.processResponse resp = (D.recordResponse resp.dealer resp.verifier, .ok none) := by
  rw [processResponse, if_neg (not_not.mpr hd), if_neg hr]

/-- **`SecretCommits` succeeds once the own deal is certified.** -/
theorem secretCommits_of_certified {D : Record} (h : D.Certified D.index) :
    D.secretCommits = (D, .ok ⟨D.index⟩) := by
  rw [secretCommits, if_pos h]

theorem secretCommits_of_not_certified {D : Record} (h : ¬ D.Certified D.index) :
    D.secretCommits = (D, .error "dkg: can't give SecretCommits if deal not certified") := by
  rw [secretCommits, if_neg h]

theorem processSecretCommits_of_certified {D : Record} {sc : SecretCommits}
    (hd : sc.dealer ∈ D.received) (hc : D.Certified sc.dealer) :
    D.processSecretCommits sc = (D.recordCommits sc.dealer, .ok none) := by
  rw [processSecretCommits, if_pos ⟨hd, hc⟩]

/-- A generator that holds every response and every commitment is finished. -/
theorem finished_of_complete {D : Record} (hresp : ∀ d < D.participants, D.Certified d)
    (hcomm : ∀ d < D.participants, d ∈ D.commitments) (ht : D.t ≤ D.participants + 1) :
    D.finished = true := by
  have hall : (Finset.range D.participants).filter D.Certified = Finset.range D.participants :=
    Finset.filter_true_of_mem fun d hd => hresp d (Finset.mem_range.mp hd)
  rw [finished, decide_eq_true_iff, hall, Finset.card_range]
  exact ⟨fun d hd _ => hcomm d hd, by omega⟩

end Record

/-! ## What a protocol relies on -/

variable {K Gen : Type*} [DecidableEq K]

/-- What an honest run relies on of the library, through `view`: each call,
with the arguments that an honest participant passes, succeeds and records
what `Record` records.  Each field is one call. -/
structure Methods.Spec (M : Methods K Gen) (view : Gen → Record) : Prop where
  /-- `NewDistKeyGenerator` finds the participant's key at its first position
  among the participants, and records nothing yet. -/
  new : ∀ {pub : K} {ps : List (Option K)} {t : ℕ}, some pub ∈ ps →
    ∃ D, M.newDistKeyGenerator pub ps t = .ok D ∧ view D = ⟨ps.length, ps.idxOf (some pub), t, ∅, ∅, ∅⟩
  /-- `Deals()` processes the own deal and returns one deal for every other
  participant, keyed by its index, in some order. -/
  deals : ∀ {D : Gen}, (view D).index < (view D).participants → (view D).index ∉ (view D).received →
    ∃ D' l, M.deals D = (D', .ok l) ∧ view D' = (view D).recordOwnDeal ∧ l.Perm (view D).dealList
  /-- `ProcessDeal` of a new deal for this participant answers with its
  approval, and records the deal with both approvals. -/
  processDeal : ∀ {D : Gen} {dd : Deal}, dd.recipient = (view D).index →
    dd.dealer < (view D).participants → dd.dealer ∉ (view D).received →
    ∃ D', M.processDeal D dd = (D', .ok ⟨dd.dealer, (view D).index⟩) ∧ view D' = (view D).recordDeal dd.dealer
  /-- Reprocessing a response held already fails with the error that
  `Dispatch` lets pass, and records nothing. -/
  processResponse_of_mem : ∀ {D : Gen} {resp : Response}, resp.dealer ∈ (view D).received →
    (resp.dealer, resp.verifier) ∈ (view D).responses →
    ∃ D', M.processResponse D resp = (D', .error "vss: already existing response from same origin") ∧
      view D' = view D
  /-- A new approval on a deal the verifier holds is recorded, with no
  justification. -/
  processResponse_of_notMem : ∀ {D : Gen} {resp : Response}, resp.dealer ∈ (view D).received →
    resp.verifier < (view D).participants → (resp.dealer, resp.verifier) ∉ (view D).responses →
    ∃ D', M.processResponse D resp = (D', .ok none) ∧ view D' = (view D).recordResponse resp.dealer resp.verifier
  /-- `SecretCommits` succeeds once the own deal is certified. -/
  secretCommits_of_certified : ∀ {D : Gen}, (view D).Certified (view D).index →
    ∃ D', M.secretCommits D = (D', .ok ⟨(view D).index⟩) ∧ view D' = view D
  /-- Before, it fails with the error that `Dispatch` lets pass. -/
  secretCommits_of_not_certified : ∀ {D : Gen}, ¬ (view D).Certified (view D).index →
    ∃ D', M.secretCommits D = (D', .error "dkg: can't give SecretCommits if deal not certified") ∧
      view D' = view D
  /-- The commitments of a certified dealer are recorded, with no complaint. -/
  processSecretCommits : ∀ {D : Gen} {sc : SecretCommits}, sc.dealer ∈ (view D).received →
    (view D).Certified sc.dealer →
    ∃ D', M.processSecretCommits D sc = (D', .ok none) ∧ view D' = (view D).recordCommits sc.dealer
  /-- `Finished()` holds once every qualified dealer has given its
  commitments. -/
  finished : ∀ {D : Gen}, (view D).finished = true → M.finished D = true

namespace Record

/-- **The bookkeeping machine meets the hypothesis**, seen as itself. -/
theorem methods_spec : (methods : Methods K Record).Spec id where
  new hmem := ⟨_, new_eq_ok hmem _, rfl⟩
  deals _ _ := ⟨_, _, rfl, rfl, List.Perm.refl _⟩
  processDeal hto _ hnew := ⟨_, processDeal_eq_ok hto hnew, rfl⟩
  processResponse_of_mem hd hr := ⟨_, processResponse_of_mem hd hr, rfl⟩
  processResponse_of_notMem hd _ hr := ⟨_, processResponse_of_notMem hd hr, rfl⟩
  secretCommits_of_certified h := ⟨_, secretCommits_of_certified h, rfl⟩
  secretCommits_of_not_certified h := ⟨_, secretCommits_of_not_certified h, rfl⟩
  processSecretCommits hd hc := ⟨_, processSecretCommits_of_certified hd hc, rfl⟩
  finished h := h

end Record

end RabinDkg
