import Decenarch.Archive

/-!
# What every run of the archive keeps

Every ID that a conode holds as its genesis or its latest block, and every
genesis that a setup message in flight carries, names a block of the
skipchain service; and every block of the service above a genesis links
back to a lower block and holds the gzipped JSON of a slice whose pages all
passed the signature check of `SkipAddData` (`Inv`).  Both hold of the first
archive, when the service holds no block yet, and every event keeps them,
given the laws of the service: so they hold after any interleaving of
requests, DKG ends and deliveries.  Along any run no block of the service
changes or goes, and a conode that no `Setup` or `SaveWebpage` was sent to
never learns a latest block: setup messages carry the genesis only.
-/

namespace Decenarch

namespace Archive

variable {S ID Node Key Sig : Type}

/-- An ID that a conode holds as its latest block or its genesis, or that a
setup message in flight carries. -/
def HoldsID (a : Archive S ID Node Key) (bid : ID) : Prop :=
  (∃ c, (a.storage c).LatestID = some bid ∨ (a.storage c).GenesisID = some bid) ∨
    ∃ r m, (r, m) ∈ a.inFlight ∧ m.GenesisID = some bid

/-- The IDs part of the invariant moves to a service that keeps the old
blocks, when every ID held after the step was held before or names a new
block. -/
theorem ids_of_extends {svc : SkipchainClient S ID} {a a' : Archive S ID Node Key}
    (h : ∀ bid, a.HoldsID bid → svc.Names a.chains bid) (hext : svc.Extends a.chains a'.chains)
    (hnew : ∀ bid, a'.HoldsID bid → a.HoldsID bid ∨ svc.Names a'.chains bid) :
    ∀ bid, a'.HoldsID bid → svc.Names a'.chains bid := by
  intro bid hbid
  rcases hnew bid hbid with hold | hheld
  · exact hext.names (h bid hold)
  · exact hheld

/-- An ID held after the messages in flight became `l`. -/
theorem HoldsID.of_inFlight {a : Archive S ID Node Key} {l : List (Node × SetupPropagation ID)} {bid : ID}
    (h : ({ a with inFlight := l } : Archive S ID Node Key).HoldsID bid) :
    (∃ c, (a.storage c).LatestID = some bid ∨ (a.storage c).GenesisID = some bid) ∨
      ∃ r m, (r, m) ∈ l ∧ m.GenesisID = some bid :=
  h

/-- The messages of `propagateSetup` carry the genesis the sender holds. -/
theorem HoldsID.of_propagateSetup {a : Archive S ID Node Key} {c : Node} {roster : List Node} {t : ℕ} {bid : ID}
    (h : (a.propagateSetup c roster t).HoldsID bid) : a.HoldsID bid := by
  rcases HoldsID.of_inFlight h with hst | ⟨r, m, hm, hmg⟩
  · exact .inl hst
  · rcases List.mem_append.mp hm with hm | hm
    · exact .inr ⟨r, m, hm, hmg⟩
    · obtain ⟨r', -, hr'⟩ := List.mem_map.mp hm
      cases hr'
      exact .inl ⟨c, .inr hmg⟩

variable [DecidableEq Node]

/-- An ID held after a write of `c`'s storage was held before or is one of
the new storage. -/
theorem HoldsID.of_setStorage {a : Archive S ID Node Key} {c : Node} {st : Storage ID Key} {bid : ID}
    (h : (a.setStorage c st).HoldsID bid) : a.HoldsID bid ∨ st.LatestID = some bid ∨ st.GenesisID = some bid := by
  rcases h with ⟨r, hr⟩ | hm
  · rw [setStorage_storage] at hr
    split_ifs at hr
    · exact .inr hr
    · exact .inl (.inl ⟨r, hr⟩)
  · exact .inl (.inr hm)

/-- A write of `c`'s storage that keeps its IDs holds no new ID. -/
theorem HoldsID.of_setStorage_ids {a : Archive S ID Node Key} {c : Node} {st : Storage ID Key} {bid : ID}
    (h : (a.setStorage c st).HoldsID bid) (hl : st.LatestID = (a.storage c).LatestID)
    (hg : st.GenesisID = (a.storage c).GenesisID) : a.HoldsID bid := by
  rcases h.of_setStorage with hold | hst | hst
  · exact hold
  · exact .inl ⟨c, .inl (hl ▸ hst)⟩
  · exact .inl ⟨c, .inr (hg ▸ hst)⟩

section Inv

variable (svc : SkipchainClient S ID) (b64 : Base64) (verify : ℕ → Bytes → Sig → Option String)
  (json : WebstoreJson Sig) (gz : Gzip)

/-- The bytes of a block that `SkipAddData` stored: the gzipped JSON of a
slice whose pages all verified under one threshold. -/
def StoredSlice (d : Bytes) : Prop :=
  ∃ ws t, blockData json gz ws = .ok d ∧ ∀ w ∈ ws, w.verified b64 (verify t) = true

/-- With a JSON and a gzip that round-trip, a stored slice reads back. -/
theorem StoredSlice.webstores (hjson : json.RoundTrip) (hgz : gz.RoundTrip) {d : Bytes}
    (h : StoredSlice b64 verify json gz d) :
    ∃ ws t, blockWebstores json gz d = .ok ws ∧ ∀ w ∈ ws, w.verified b64 (verify t) = true := by
  obtain ⟨ws, t, hdata, hver⟩ := h
  exact ⟨ws, t, blockWebstores_blockData json gz hjson hgz hdata, hver⟩

/-- What every archive a run reaches satisfies. -/
structure Inv (a : Archive S ID Node Key) : Prop where
  /-- Every ID a conode holds or a message carries names a block. -/
  ids : ∀ bid, a.HoldsID bid → svc.Names a.chains bid
  /-- Every block above a genesis links back to a lower block and holds a
  slice that passed the check of `SkipAddData`. -/
  blocks : svc.AboveGenesis (StoredSlice b64 verify json gz) a.chains

omit [DecidableEq Node] in
theorem inv_init {st₀ : S} (hempty : svc.Empty st₀) :
    Inv svc b64 verify json gz (init st₀ : Archive S ID Node Key) where
  ids := by
    rintro bid (⟨c, h | h⟩ | ⟨r, m, hm, -⟩)
    · simp [init, Storage.empty] at h
    · simp [init, Storage.empty] at h
    · simp [init] at hm
  blocks := SkipchainClient.aboveGenesis_of_empty hempty

variable {svc} (hsvc : svc.Spec)
include hsvc

theorem Inv.setup {a : Archive S ID Node Key} (h : Inv svc b64 verify json gz a) (c : Node) (roster : List Node) :
    Inv svc b64 verify json gz (a.setup svc c roster) := by
  rcases setup_cases svc a c roster with ⟨g, -, hset⟩ | ⟨-, e, -, hset⟩ | ⟨-, chains, genesis, hg, hset⟩
  · -- the chains stay, and the new messages carry the genesis `c` holds
    rw [hset]
    refine ⟨ids_of_extends h.ids (.refl _) fun bid hbid => ?_, h.blocks⟩
    exact .inl (HoldsID.of_setStorage_ids hbid.of_propagateSetup rfl rfl)
  · -- `SkipStart` failed: only the threshold was written
    rw [hset]
    exact ⟨ids_of_extends h.ids (.refl _) fun _ hbid => .inl (HoldsID.of_setStorage_ids hbid rfl rfl), h.blocks⟩
  · -- a new genesis, which `c` and the new messages hold
    rw [hset]
    have hnew : svc.Names chains genesis.Hash := ⟨genesis, ((hsvc.createGenesis hg).2).new⟩
    refine ⟨ids_of_extends h.ids (hsvc.extends_createGenesis hg) fun bid hbid => ?_,
      SkipchainClient.AboveGenesis.createGenesis hsvc h.blocks hg⟩
    rcases HoldsID.of_setStorage (HoldsID.of_propagateSetup hbid) with hold | hl | hgen
    · exact .inl (HoldsID.of_setStorage_ids hold rfl rfl)
    · exact .inr (Option.some_injective _ hl ▸ hnew)
    · exact .inr (Option.some_injective _ hgen ▸ hnew)

omit hsvc in
theorem Inv.deliverSetup {a : Archive S ID Node Key} (h : Inv svc b64 verify json gz a) (i : ℕ) :
    Inv svc b64 verify json gz (a.deliverSetup i) := by
  cases hi : a.inFlight[i]? with
  | none => rwa [deliverSetup_of_getElem?_none hi]
  | some rm =>
      obtain ⟨r, m⟩ := rm
      -- `r` takes the genesis the message carries, and the message is gone
      have hmem : (r, m) ∈ a.inFlight := List.mem_of_getElem? hi
      rw [deliverSetup_of_getElem? hi]
      refine ⟨ids_of_extends h.ids (.refl _) fun bid hbid => ?_, h.blocks⟩
      rcases HoldsID.of_inFlight hbid with hst | ⟨r', m', hm', hmg⟩
      · rcases HoldsID.of_setStorage (.inl hst) with hold | hl | hgen
        · exact .inl hold
        · exact .inl (.inl ⟨r, .inl hl⟩)
        · exact .inl (.inr ⟨r, m, hmem, hgen⟩)
      · exact .inl (.inr ⟨r', m', List.mem_of_mem_eraseIdx hm', hmg⟩)

omit hsvc in
theorem Inv.storeSecret {a : Archive S ID Node Key} (h : Inv svc b64 verify json gz a) (c : Node) (secret : Key) :
    Inv svc b64 verify json gz (a.storeSecret c secret) :=
  ⟨ids_of_extends h.ids (.refl _) fun _ hbid => .inl (HoldsID.of_setStorage_ids hbid rfl rfl), h.blocks⟩

variable (extract : String → Bytes → List String)

theorem Inv.saveWebpage {a a' : Archive S ID Node Key} (h : Inv svc b64 verify json gz a) {c : Node}
    {webmain : Webstore Sig} {outcome : ℕ → String → LinkOutcome Sig}
    (hsave : a.saveWebpage svc b64 verify json gz extract c webmain outcome = .ok (.ok a')) :
    Inv svc b64 verify json gz a' := by
  obtain ⟨-, bytePage, chains, latest, -, -, hver, hstore, rfl⟩ :=
    saveWebpage_eq_ok svc b64 verify json gz extract hsave
  obtain ⟨d, genesis, hd, hg, hst⟩ := skipStore_eq_ok svc json gz hstore
  -- the new block holds the slice that passed the check, and it is `c`'s latest
  have hadds := (hsvc.storeSkipBlock hg hst).2.2.1
  refine ⟨ids_of_extends h.ids hadds.keep fun bid hbid => ?_,
    SkipchainClient.AboveGenesis.storeSkipBlock hsvc h.blocks hg hst ⟨_, _, hd, hver⟩⟩
  rcases HoldsID.of_setStorage hbid with hold | hl | hgen
  · exact .inl hold
  · exact .inr (Option.some_injective _ hl ▸ ⟨latest, hadds.new⟩)
  · exact .inl (.inl ⟨c, .inr hgen⟩)

theorem Inv.step {a a' : Archive S ID Node Key} (h : Inv svc b64 verify json gz a) {e : Event Node Key Sig}
    (hstep : Step svc b64 verify json gz extract a e a') : Inv svc b64 verify json gz a' := by
  cases e with
  | setup c roster =>
      obtain rfl : a.setup svc c roster = a' := Outcome.ok.inj hstep
      exact h.setup b64 verify json gz hsvc c roster
  | deliverSetup i =>
      obtain rfl : a.deliverSetup i = a' := Outcome.ok.inj hstep
      exact h.deliverSetup b64 verify json gz i
  | dkgDone c secret =>
      obtain rfl : a.storeSecret c secret = a' := Outcome.ok.inj hstep
      exact h.storeSecret b64 verify json gz c secret
  | saveWebpage c webmain outcome =>
      rcases step_saveWebpage svc b64 verify json gz extract hstep with rfl | hsave
      · exact h
      · exact h.saveWebpage b64 verify json gz hsvc extract hsave

theorem inv_of_reachable {st₀ : S} (hempty : svc.Empty st₀) {a : Archive S ID Node Key}
    (hr : Reachable svc b64 verify json gz extract st₀ a) : Inv svc b64 verify json gz a :=
  Transition.Reachable.invariant (fun _ h0 => h0 ▸ inv_init svc b64 verify json gz hempty)
    (fun _ _ _ hi hs => hi.step b64 verify json gz hsvc extract hs) hr

omit hsvc

/-- Whether an event is a `Setup` or a `SaveWebpage` request sent to conode
`c`. -/
def Event.isRequestTo (c : Node) : Event Node Key Sig → Bool
  | .setup c' _ => decide (c' = c)
  | .saveWebpage c' _ _ => decide (c' = c)
  | _ => false

/-- Only a `Setup` or a `SaveWebpage` request to a conode writes its latest
block; a setup message writes the genesis and the threshold only. -/
theorem latestID_step {a a' : Archive S ID Node Key} {e : Event Node Key Sig}
    (hstep : Step svc b64 verify json gz extract a e a') {c : Node} (he : e.isRequestTo c = false) :
    (a'.storage c).LatestID = (a.storage c).LatestID := by
  cases e with
  | setup c' roster =>
      obtain rfl : a.setup svc c' roster = a' := Outcome.ok.inj hstep
      have hc : c ≠ c' := fun hc => by simp [Event.isRequestTo, hc] at he
      rcases setup_cases svc a c' roster with ⟨g, -, hset⟩ | ⟨-, e, -, hset⟩ | ⟨-, chains, genesis, hg, hset⟩ <;>
        · rw [hset]
          simp [propagateSetup, hc]
  | deliverSetup i =>
      obtain rfl : a.deliverSetup i = a' := Outcome.ok.inj hstep
      cases hi : a.inFlight[i]? with
      | none => rw [deliverSetup_of_getElem?_none hi]
      | some rm =>
          rw [deliverSetup_of_getElem? hi]
          simp only [propagateSetupFunc, setStorage_storage]
          split_ifs with hc
          · rw [hc]
          · rfl
  | dkgDone c' secret =>
      obtain rfl : a.storeSecret c' secret = a' := Outcome.ok.inj hstep
      simp only [storeSecret, setStorage_storage]
      split_ifs with hc
      · rw [hc]
      · rfl
  | saveWebpage c' webmain outcome =>
      have hc : c ≠ c' := fun hc => by simp [Event.isRequestTo, hc] at he
      rcases step_saveWebpage svc b64 verify json gz extract hstep with rfl | hsave
      · rfl
      · obtain ⟨-, -, chains, latest, -, -, -, -, rfl⟩ := saveWebpage_eq_ok svc b64 verify json gz extract hsave
        simp [hc]

/-- Along a run with no `Setup` or `SaveWebpage` request to `c`, the latest
block of `c` stays what it was. -/
theorem latestID_of_run {a a' : Archive S ID Node Key} {es : List (Event Node Key Sig)}
    (hrun : Transition.Run (Step svc b64 verify json gz extract) a es a') {c : Node}
    (hc : ∀ e ∈ es, e.isRequestTo c = false) : (a'.storage c).LatestID = (a.storage c).LatestID := by
  induction hrun with
  | nil => rfl
  | cons hst _ ih =>
      rw [ih fun e he => hc e (List.mem_cons_of_mem _ he),
        latestID_step b64 verify json gz extract hst (hc _ List.mem_cons_self)]

end Inv

end Archive

end Decenarch
