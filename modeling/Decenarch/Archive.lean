import Decenarch.Skipchain
import Decenarch.Lib.Transition

/-!
# The archive across conodes (`service/service.go`)

Every conode keeps a `Storage`: the ID of the genesis of the archive's
skipchain, the ID of the last block it knows, the threshold of its cosi
policy and its DKG secret.  `Setup` computes the threshold, starts a new
skipchain when its conode holds no genesis, and propagates the genesis and
the threshold to the roster; `SaveWebpage` checks that its conode holds a
secret, stores its slice in a new block after the genesis its conode holds,
and makes that block the conode's latest; `Retrieve` walks back from the
latest block its conode knows.

The model is the state of the skipchain service, the storage of every
conode and the setup messages in flight, with one event per request or
delivery, so that any interleaving of requests at any conodes and
deliveries is a run.  The skipchain service is a `SkipchainClient`.  The DKG
run of `Setup` enters as the event that a conode's run ended with a secret;
the consensus runs of `SaveWebpage` enter as the main page they produced and
the outcome of each additional link.  A `SaveWebpage` that returns an error
leaves the archive as it was, and a `Setup` whose `SkipStart` fails keeps
only the threshold it wrote first; a request that panics or blocks has no
next state.
-/

namespace Decenarch

variable {S ID Node Key Sig : Type}

/-- `Storage`: what `Setup`, `SaveWebpage` and `Retrieve` read and write of
it (`CompleteProofs` belongs to the consensus). -/
structure Storage (ID Key : Type) where
  GenesisID : Option ID
  LatestID : Option ID
  Threshold : ℕ
  Secret : Option Key

/-- The `Storage` of a new service. -/
def Storage.empty : Storage ID Key :=
  ⟨none, none, 0, none⟩

/-- `SetupPropagation`. -/
structure SetupPropagation (ID : Type) where
  GenesisID : Option ID
  Threshold : ℕ

/-- The state of the skipchain service, the storage of every conode, and
the setup messages sent and not yet handled, each with the conode it is
sent to. -/
structure Archive (S ID Node Key : Type) where
  chains : S
  storage : Node → Storage ID Key
  inFlight : List (Node × SetupPropagation ID)

namespace Archive

/-- The skipchain service in state `st₀`, no message, and a new storage at
every conode. -/
def init (st₀ : S) : Archive S ID Node Key :=
  ⟨st₀, fun _ => Storage.empty, []⟩

variable [DecidableEq Node]

/-- Write the storage of conode `c`. -/
def setStorage (a : Archive S ID Node Key) (c : Node) (st : Storage ID Key) : Archive S ID Node Key :=
  { a with storage := Function.update a.storage c st }

@[simp] theorem setStorage_chains (a : Archive S ID Node Key) (c : Node) (st : Storage ID Key) :
    (a.setStorage c st).chains = a.chains := rfl

@[simp] theorem setStorage_inFlight (a : Archive S ID Node Key) (c : Node) (st : Storage ID Key) :
    (a.setStorage c st).inFlight = a.inFlight := rfl

@[simp] theorem setStorage_storage (a : Archive S ID Node Key) (c : Node) (st : Storage ID Key) (r : Node) :
    (a.setStorage c st).storage r = if r = c then st else a.storage r :=
  Function.update_apply a.storage c st r

/-- `propagateSetup` from conode `c`: one setup message with `c`'s genesis
and the threshold for each conode of the roster. -/
def propagateSetup (a : Archive S ID Node Key) (c : Node) (roster : List Node) (threshold : ℕ) :
    Archive S ID Node Key :=
  { a with inFlight := a.inFlight ++ roster.map fun r => (r, ⟨(a.storage c).GenesisID, threshold⟩) }

variable (svc : SkipchainClient S ID)

/-- `Setup` at conode `c` with the roster `roster`, up to its DKG run: the
threshold, a new skipchain when `c` holds no genesis, and one setup message
for each conode of the roster.  When `SkipStart` fails, `Setup` returns
its error with the threshold saved. -/
def setup (a : Archive S ID Node Key) (c : Node) (roster : List Node) : Archive S ID Node Key :=
  let threshold := roster.length - (roster.length - 1) / 3
  let a₁ := a.setStorage c { a.storage c with Threshold := threshold }
  -- start a new skipchain only if there isn't one already
  match (a₁.storage c).GenesisID with
  | some _ => a₁.propagateSetup c roster threshold
  | none =>
      match svc.createGenesis a₁.chains with
      | .error _ => a₁
      | .ok (chains, genesis) =>
          ({ a₁.setStorage c { a₁.storage c with GenesisID := some genesis.Hash, LatestID := some genesis.Hash } with
            chains := chains }).propagateSetup c roster threshold

/-- `propagateSetupFunc` at conode `r`. -/
def propagateSetupFunc (a : Archive S ID Node Key) (r : Node) (m : SetupPropagation ID) : Archive S ID Node Key :=
  a.setStorage r { a.storage r with GenesisID := m.GenesisID, Threshold := m.Threshold }

/-- The conode that the `i`-th setup message in flight is sent to handles
it. -/
def deliverSetup (a : Archive S ID Node Key) (i : ℕ) : Archive S ID Node Key :=
  match a.inFlight[i]? with
  | none => a
  | some (r, m) => { a.propagateSetupFunc r m with inFlight := a.inFlight.eraseIdx i }

/-- A DKG run ended at conode `c` and `NewSharedSecret` gave `secret`: the
end of `Setup` at the run's root, the goroutine of `NewProtocol` at the
other conodes. -/
def storeSecret (a : Archive S ID Node Key) (c : Node) (secret : Key) : Archive S ID Node Key :=
  a.setStorage c { a.storage c with Secret := some secret }

/-- What `Setup` does: with a genesis, it sends it; without one, it fails
after saving the threshold, or creates a genesis, holds it as the genesis and
the latest block, and sends it. -/
theorem setup_cases (a : Archive S ID Node Key) (c : Node) (roster : List Node) :
    let threshold := roster.length - (roster.length - 1) / 3
    let a₁ := a.setStorage c { a.storage c with Threshold := threshold }
    (∃ g, (a.storage c).GenesisID = some g ∧ a.setup svc c roster = a₁.propagateSetup c roster threshold) ∨
    ((a.storage c).GenesisID = none ∧ ∃ e, svc.createGenesis a.chains = .error e ∧ a.setup svc c roster = a₁) ∨
    ((a.storage c).GenesisID = none ∧ ∃ chains genesis, svc.createGenesis a.chains = .ok (chains, genesis) ∧
      a.setup svc c roster =
        ({ a₁.setStorage c { a₁.storage c with GenesisID := some genesis.Hash, LatestID := some genesis.Hash } with
          chains := chains }).propagateSetup c roster threshold) := by
  intro threshold a₁
  cases hg : (a.storage c).GenesisID with
  | some g => exact .inl ⟨g, rfl, by simp [setup, a₁, threshold, hg]⟩
  | none =>
      cases hc : svc.createGenesis a.chains with
      | error e => exact .inr (.inl ⟨rfl, e, rfl, by simp [setup, a₁, threshold, hg, hc]⟩)
      | ok r => exact .inr (.inr ⟨rfl, r.1, r.2, rfl, by simp [setup, a₁, threshold, hg, hc]⟩)

theorem deliverSetup_of_getElem? {a : Archive S ID Node Key} {i : ℕ} {r : Node} {m : SetupPropagation ID}
    (h : a.inFlight[i]? = some (r, m)) :
    a.deliverSetup i = { a.propagateSetupFunc r m with inFlight := a.inFlight.eraseIdx i } := by
  simp [deliverSetup, h]

theorem deliverSetup_of_getElem?_none {a : Archive S ID Node Key} {i : ℕ} (h : a.inFlight[i]? = none) :
    a.deliverSetup i = a := by
  simp [deliverSetup, h]

section Requests

variable (b64 : Base64) (verify : ℕ → Bytes → Sig → Option String) (json : WebstoreJson Sig) (gz : Gzip)
  (extract : String → Bytes → List String)

/-- `SaveWebpage` at conode `c`, where the consensus on the page gave
`webmain` and the run of the `i`-th additional link ended with `outcome i`:
the check of the DKG key, the slice, `SkipAddData` after the conode's
genesis under the conode's threshold, and the new block as its latest. -/
def saveWebpage (a : Archive S ID Node Key) (c : Node) (webmain : Webstore Sig)
    (outcome : ℕ → String → LinkOutcome Sig) : Outcome (Except String (Archive S ID Node Key)) :=
  match (a.storage c).Secret with
  | none => .ok (.error "Shared public key not found: run setup before saving a webpage")
  | some _ =>
      (saveWebpageAdds b64 (verify (a.storage c).Threshold) (skipStore svc json gz a.chains (a.storage c).GenesisID)
          extract outcome webmain).map fun
        | .error e => .error e
        | .ok (chains, latest) =>
            -- store latest block ID for retrieval
            .ok { a.setStorage c { a.storage c with LatestID := some latest.Hash } with chains := chains }

/-- What can happen next: a request at a conode, the end of a DKG run, or
the delivery of a setup message. -/
inductive Event (Node Key Sig : Type) where
  | setup (c : Node) (roster : List Node)
  | deliverSetup (i : ℕ)
  | dkgDone (c : Node) (secret : Key)
  | saveWebpage (c : Node) (webmain : Webstore Sig) (outcome : ℕ → String → LinkOutcome Sig)

/-- One event.  A `SaveWebpage` that returns an error changes nothing. -/
def step (a : Archive S ID Node Key) : Event Node Key Sig → Outcome (Archive S ID Node Key)
  | .setup c roster => .ok (a.setup svc c roster)
  | .deliverSetup i => .ok (a.deliverSetup i)
  | .dkgDone c secret => .ok (a.storeSecret c secret)
  | .saveWebpage c webmain outcome =>
      (a.saveWebpage svc b64 verify json gz extract c webmain outcome).map fun
        | .ok a' => a'
        | .error _ => a

/-- The step relation of the archive. -/
def Step (a : Archive S ID Node Key) (e : Event Node Key Sig) (a' : Archive S ID Node Key) : Prop :=
  a.step svc b64 verify json gz extract e = .ok a'

/-- The archives that some interleaving of events leads to from `init st₀`. -/
def Reachable (st₀ : S) : Archive S ID Node Key → Prop :=
  Transition.Reachable (· = init st₀) (Step svc b64 verify json gz extract)

/-- A `SaveWebpage` that stored: its conode holds a secret, the page
decodes, every entry of the slice verifies under the conode's threshold, and
the slice went into a new block after the conode's genesis, which is now the
conode's latest. -/
theorem saveWebpage_eq_ok {a a' : Archive S ID Node Key} {c : Node} {webmain : Webstore Sig}
    {outcome : ℕ → String → LinkOutcome Sig}
    (h : a.saveWebpage svc b64 verify json gz extract c webmain outcome = .ok (.ok a')) :
    ∃ secret bytePage chains latest, (a.storage c).Secret = some secret ∧ b64.decode webmain.Page = .ok bytePage ∧
      (∀ w ∈ webadds b64 webmain (linkRuns extract outcome webmain bytePage),
        w.verified b64 (verify (a.storage c).Threshold) = true) ∧
      skipStore svc json gz a.chains (a.storage c).GenesisID
        (webadds b64 webmain (linkRuns extract outcome webmain bytePage)) = .ok (chains, latest) ∧
      a' = { a.setStorage c { a.storage c with LatestID := some latest.Hash } with chains := chains } := by
  unfold saveWebpage at h
  split at h
  · cases h
  rename_i secret hsecret
  obtain ⟨r, hr, hmap⟩ := Outcome.map_eq_ok.mp h
  rcases r with e | ⟨chains, latest⟩
  · cases hmap
  cases hmap
  obtain ⟨bytePage, hdec, hadd⟩ := (saveWebpageAdds_eq_ok b64 _).mp hr
  obtain ⟨hver, hstore⟩ := (skipAddData_eq_ok b64 _).mp hadd
  exact ⟨secret, bytePage, chains, latest, hsecret, hdec, hver, hstore, rfl⟩

/-- A step of a `SaveWebpage` event is a save that stored, or a failed
request that left the archive as it was. -/
theorem step_saveWebpage {a a' : Archive S ID Node Key} {c : Node} {webmain : Webstore Sig}
    {outcome : ℕ → String → LinkOutcome Sig}
    (h : a.step svc b64 verify json gz extract (.saveWebpage c webmain outcome) = .ok a') :
    a' = a ∨ a.saveWebpage svc b64 verify json gz extract c webmain outcome = .ok (.ok a') := by
  obtain ⟨r, hr, hmap⟩ := Outcome.map_eq_ok.mp h
  cases r with
  | error e => exact .inl hmap.symm
  | ok a'' =>
      cases hmap
      exact .inr hr

variable {Time : Type} [LinearOrder Time] (parseTime : String → Except String Time)
  (fetch : String → Except String String)

/-- `Retrieve` at conode `c`: `SkipGetData` from the conode's latest block,
and the signature checks under the conode's threshold. -/
def retrieve (a : Archive S ID Node Key) (c : Node) (fuel : ℕ) (url timestamp : String) :
    Outcome (Except String (RetrieveResponse Sig)) :=
  Decenarch.retrieve b64 (verify (a.storage c).Threshold) svc json gz parseTime fetch fuel a.chains
    (a.storage c).LatestID url timestamp

end Requests

/-! ## A sample archive

The closed instances below run the archive on the skipchain service
`Skipchains`, from no chain, with conodes numbered by `ℕ`, Go's
`base64.StdEncoding`, a `cosi.Verify` that accepts every
signature, the identity as gzip and timestamps that all parse to `0`.
-/

/-- A `cosi.Verify` that accepts every signature under every threshold. -/
def acceptAll : ℕ → Bytes → Unit → Option String :=
  fun _ _ _ => none

/-- A `time.Parse` under which every timestamp is `0`. -/
def parseZero : String → Except String ℕ :=
  fun _ => .ok 0

/-- The page `p`, signed, saved at time `t`. -/
def samplePage : Webstore Unit :=
  ⟨"p", "", some (), "", [], "t"⟩

/-- The archive of conodes numbered by `ℕ` on `Skipchains`. -/
abbrev SampleArchive : Type :=
  Archive Skipchains (ℕ × ℕ) ℕ Unit

/-- Conode `0` after `Setup` with the roster `[0]` and the end of its DKG. -/
def sampleReady : SampleArchive :=
  ((init ⟨[]⟩ : SampleArchive).setup Skipchains.client 0 [0]).storeSecret 0 ()

/-- `sampleReady` after a save whose slice is stored as no bytes: the chain
holds its genesis and one block, which is the conode's latest. -/
def sampleSaved : SampleArchive :=
  { sampleReady.setStorage 0 { sampleReady.storage 0 with LatestID := some (0, 1) } with chains := ⟨[[[], []]]⟩ }

theorem sampleSaved_reachable :
    Reachable Skipchains.client Base64.std acceptAll (WebstoreJson.ofSlice [samplePage]) Gzip.identity
      (fun _ _ => []) ⟨[]⟩ sampleSaved :=
  (Transition.Run.cons rfl (.cons rfl (.cons rfl (.nil _))) :
    Transition.Run _ _ [.setup 0 [0], .dkgDone 0 (), .saveWebpage 0 samplePage fun _ _ => .createError] _).reachable
    (.init rfl)

end Archive

end Decenarch
