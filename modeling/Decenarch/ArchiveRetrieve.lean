import Decenarch.ArchiveRun

/-!
# What `Retrieve` and `SaveWebpage` do in a running archive

From the invariant of every reachable archive, given the laws of the
skipchain service and a service that holds no block at the start:
`Retrieve` at a conode that knows a latest block neither panics nor blocks,
and it answers with every additional page of the found block that verifies;
a `SaveWebpage` at a conode that went through `Setup` stores its slice when
the service stores after the blocks it holds.  Right after a save,
`Retrieve` at the same conode answers from the new block, with the first
entry of the slice that has the page's URL: the main page's entry comes last
in the slice, so an additional link that ended at the page's own URL
shadows it, and an additional page whose run ended at another URL than its
link is stored but never returned.
-/

namespace Decenarch

namespace Archive

variable {S ID Node Key Sig : Type} [DecidableEq Node]

section Retrieve

variable {svc : SkipchainClient S ID} (b64 : Base64) (verify : ℕ → Bytes → Sig → Option String)
  (json : WebstoreJson Sig) (gz : Gzip) (extract : String → Bytes → List String) {Time : Type} [LinearOrder Time]
  (parseTime : String → Except String Time) (fetch : String → Except String String)

omit [DecidableEq Node] in
/-- With the invariant, the block where `SkipGetData` finds a page holds a
slice that passed the signature check, so every page of it is signed. -/
theorem Inv.signed_of_skipGetData (hjson : json.RoundTrip) (hgz : gz.RoundTrip) {a : Archive S ID Node Key}
    (hinv : Inv svc b64 verify json gz a) {fuel : ℕ} {latestID : Option ID} {url timestamp : String}
    {found : SkipGetDataResponse Sig}
    (h : skipGetData svc json gz parseTime fetch fuel a.chains latestID url timestamp = .ok (.ok found)) :
    ∀ p ∈ found.AllPages, p.Sig.isSome := by
  obtain ⟨realUrl, tReq, latest, -, -, hlatest, hloop⟩ := skipGetData_eq_ok_loop svc json gz parseTime h
  obtain ⟨b, hrt, h0, hwebs, -⟩ := getDataLoop_eq_ok svc json gz parseTime hloop
  -- the walk found the page in a block of the service above a genesis, which holds a stored slice
  obtain ⟨bid, hb⟩ := SkipchainClient.exists_getSingleBlock_of_reflTransGen hlatest hrt
  obtain ⟨ws, t, hws, hver⟩ := (hinv.blocks bid b hb h0).2.webstores b64 verify json gz hjson hgz
  have hpages : ws = found.AllPages := Except.ok.inj (hws.symm.trans hwebs)
  exact fun p hp => Webstore.isSome_sig_of_verified b64 (verify t) (hver p (hpages ▸ hp))

omit [DecidableEq Node] in
/-- With the invariant, every block the back links lead to from a block of
the service links back to a lower one, when it is above a genesis. -/
theorem Inv.linksBack {a : Archive S ID Node Key} (hinv : Inv svc b64 verify json gz a) {bid : Option ID}
    {b : SkipBlock ID} (hb : svc.getSingleBlock a.chains bid = .ok b) :
    ∀ b', Relation.ReflTransGen (svc.BackLink a.chains) b b' → b'.Index ≠ 0 →
      ∃ b'', svc.BackLink a.chains b' b'' ∧ b''.Index < b'.Index := by
  intro b' hrt h0
  obtain ⟨bid', hb'⟩ := SkipchainClient.exists_getSingleBlock_of_reflTransGen hb hrt
  exact (hinv.blocks bid' b' hb' h0).1

/-- **`Retrieve` returns at a conode that knows a latest block.**  In every
archive a run reaches from a service with no block, under the laws of the
service, the latest block of a conode is a block of the service, and
`Retrieve` at that conode, given more turns than that block's height,
neither panics nor blocks, whatever the URL and the time asked. -/
theorem retrieve_returns_of_reachable (hsvc : svc.Spec) {st₀ : S} (hempty : svc.Empty st₀)
    (hjson : json.RoundTrip) (hgz : gz.RoundTrip) {a : Archive S ID Node Key}
    (hr : Reachable svc b64 verify json gz extract st₀ a) {c : Node} {bid : ID}
    (hl : (a.storage c).LatestID = some bid) :
    ∃ b, svc.getSingleBlock a.chains (some bid) = .ok b ∧ ∀ fuel, b.Index < fuel → ∀ url timestamp,
      ∃ r, a.retrieve svc b64 verify json gz parseTime fetch c fuel url timestamp = .ok r := by
  have hinv := inv_of_reachable b64 verify json gz hsvc extract hempty hr
  -- the latest block is a block of the service, and the walk from it returns
  obtain ⟨b, hb⟩ := hinv.ids bid (.inl ⟨c, .inl hl⟩)
  refine ⟨b, hb, fun fuel hfuel url timestamp => ?_⟩
  obtain ⟨x, hx⟩ := skipGetData_returns svc json gz parseTime fetch hb (hinv.linksBack b64 verify json gz hb) hfuel
    url timestamp
  rw [Archive.retrieve, Decenarch.retrieve, hl, hx]
  cases x with
  | error e => exact ⟨_, rfl⟩
  | ok found =>
      obtain ⟨_, _, _, -, -, -, hloop⟩ := skipGetData_eq_ok_loop svc json gz parseTime hx
      obtain ⟨-, -, -, -, hscan⟩ := getDataLoop_eq_ok svc json gz parseTime hloop
      exact retrieveFound_returns b64 _
        (hinv.signed_of_skipGetData b64 verify json gz parseTime fetch hjson hgz hx) (scanPages_eq_some parseTime hscan).1

/-- Right after `Setup`, `Retrieve` at the conode that created the genesis
returns. -/
theorem retrieve_returns_after_setup :
    Skipchains.client.Spec ∧ Skipchains.client.Empty ⟨[]⟩ ∧
      (WebstoreJson.ofSlice ([] : List (Webstore Unit))).RoundTrip ∧ Gzip.identity.RoundTrip ∧
      Reachable Skipchains.client Base64.std acceptAll (WebstoreJson.ofSlice []) Gzip.identity (fun _ _ => [])
        ⟨[]⟩ ((init ⟨[]⟩ : SampleArchive).setup Skipchains.client 0 [0]) ∧
      (((init ⟨[]⟩ : SampleArchive).setup Skipchains.client 0 [0]).storage 0).LatestID = some (0, 0) ∧
      ∃ b, Skipchains.client.getSingleBlock ((init ⟨[]⟩ : SampleArchive).setup Skipchains.client 0 [0]).chains
          (some (0, 0)) = .ok b ∧ ∀ fuel, b.Index < fuel → ∀ url timestamp,
        ∃ r, ((init ⟨[]⟩ : SampleArchive).setup Skipchains.client 0 [0]).retrieve Skipchains.client Base64.std
          acceptAll (WebstoreJson.ofSlice []) Gzip.identity parseZero .ok 0 fuel url timestamp = .ok r :=
  have hr : Reachable Skipchains.client Base64.std acceptAll (WebstoreJson.ofSlice []) Gzip.identity
      (fun _ _ => []) ⟨[]⟩ ((init ⟨[]⟩ : SampleArchive).setup Skipchains.client 0 [0]) :=
    (Transition.Run.cons rfl (.nil _) : Transition.Run _ _ [.setup 0 [0]] _).reachable (.init rfl)
  ⟨Skipchains.client_spec, Skipchains.client_empty, WebstoreJson.ofSlice_roundTrip [], Gzip.identity_roundTrip, hr,
    rfl, retrieve_returns_of_reachable Base64.std acceptAll _ _ (fun _ _ => []) parseZero .ok Skipchains.client_spec
      Skipchains.client_empty (WebstoreJson.ofSlice_roundTrip []) Gzip.identity_roundTrip hr rfl⟩

/-- **`Retrieve` drops no additional page that verifies.**  In every
archive a run reaches from a service with no block, under the laws of the
service, a response of `Retrieve` at `c` comes from a block above a genesis
that the back links lead to from `c`'s latest block, and it holds, URL after
URL of its main page's list, every page of that block with that URL whose
signature verifies under `c`'s threshold, in the block's order. -/
theorem retrieve_adds_of_reachable (hsvc : svc.Spec) {st₀ : S} (hempty : svc.Empty st₀)
    (hjson : json.RoundTrip) (hgz : gz.RoundTrip) {a : Archive S ID Node Key}
    (hr : Reachable svc b64 verify json gz extract st₀ a) {c : Node} {fuel : ℕ} {url timestamp : String}
    {resp : RetrieveResponse Sig}
    (h : a.retrieve svc b64 verify json gz parseTime fetch c fuel url timestamp = .ok (.ok resp)) :
    ∃ (latest block : SkipBlock ID) (allPages : List (Webstore Sig)),
      svc.getSingleBlock a.chains (a.storage c).LatestID = .ok latest ∧
      Relation.ReflTransGen (svc.BackLink a.chains) latest block ∧ block.Index ≠ 0 ∧
      blockWebstores json gz block.Data = .ok allPages ∧ resp.Main ∈ allPages ∧
      resp.Adds = (resp.Main.AddsUrl.map fun u =>
        allPages.filter fun p => decide (p.Url = u) && p.verified b64 (verify (a.storage c).Threshold)).flatten := by
  have hinv := inv_of_reachable b64 verify json gz hsvc extract hempty hr
  obtain ⟨r, hget, hrest⟩ := Outcome.bind_eq_ok.mp h
  cases r with
  | error e => cases hrest
  | ok found =>
      obtain ⟨_, _, latest, -, -, hlatest, hloop⟩ := skipGetData_eq_ok_loop svc json gz parseTime hget
      obtain ⟨block, hrt, h0, hwebs, hscan⟩ := getDataLoop_eq_ok svc json gz parseTime hloop
      obtain ⟨hm, -, hadds⟩ := retrieveFound_eq_ok b64 _ hrest
      rw [retrieveAdds_eq_filter b64 _
        (hinv.signed_of_skipGetData b64 verify json gz parseTime fetch hjson hgz hget)] at hadds
      rw [hm]
      exact ⟨latest, block, found.AllPages, hlatest, hrt, h0, hwebs, (scanPages_eq_some parseTime hscan).1,
        (Outcome.ok.inj hadds).symm⟩

/-- `Retrieve` of the saved sample page answers with it, and it lists no
additional page. -/
theorem retrieve_adds_of_sampleSaved :
    Skipchains.client.Spec ∧ Skipchains.client.Empty ⟨[]⟩ ∧
      (WebstoreJson.ofSlice [samplePage]).RoundTrip ∧ Gzip.identity.RoundTrip ∧
      Reachable Skipchains.client Base64.std acceptAll (WebstoreJson.ofSlice [samplePage]) Gzip.identity
        (fun _ _ => []) ⟨[]⟩ sampleSaved ∧
      sampleSaved.retrieve Skipchains.client Base64.std acceptAll (WebstoreJson.ofSlice [samplePage]) Gzip.identity
        parseZero .ok 0 2 "p" "t" = .ok (.ok ⟨samplePage, []⟩) ∧
      ∃ (latest block : SkipBlock (ℕ × ℕ)) (allPages : List (Webstore Unit)),
        Skipchains.client.getSingleBlock sampleSaved.chains (sampleSaved.storage 0).LatestID = .ok latest ∧
        Relation.ReflTransGen (Skipchains.client.BackLink sampleSaved.chains) latest block ∧ block.Index ≠ 0 ∧
        blockWebstores (WebstoreJson.ofSlice [samplePage]) Gzip.identity block.Data = .ok allPages ∧
        samplePage ∈ allPages ∧
        ([] : List (Webstore Unit)) = (samplePage.AddsUrl.map fun u => allPages.filter fun p =>
          decide (p.Url = u) && p.verified Base64.std (acceptAll (sampleSaved.storage 0).Threshold)).flatten :=
  have h : sampleSaved.retrieve Skipchains.client Base64.std acceptAll (WebstoreJson.ofSlice [samplePage])
      Gzip.identity parseZero .ok 0 2 "p" "t" = .ok (.ok ⟨samplePage, []⟩) := rfl
  ⟨Skipchains.client_spec, Skipchains.client_empty, WebstoreJson.ofSlice_roundTrip _, Gzip.identity_roundTrip,
    sampleSaved_reachable, h,
    retrieve_adds_of_reachable Base64.std acceptAll _ _ _ parseZero .ok Skipchains.client_spec
      Skipchains.client_empty (WebstoreJson.ofSlice_roundTrip _) Gzip.identity_roundTrip sampleSaved_reachable h⟩

/-- **Every page the archive holds passed the signature check.**  In every
archive a run reaches from a service with no block, under the laws of the
service, each block of the service above a genesis reads back as a slice
whose signatures all verify under one threshold. -/
theorem stored_pages_verified_of_reachable (hsvc : svc.Spec) {st₀ : S} (hempty : svc.Empty st₀)
    (hjson : json.RoundTrip) (hgz : gz.RoundTrip) {a : Archive S ID Node Key}
    (hr : Reachable svc b64 verify json gz extract st₀ a) {bid : Option ID} {b : SkipBlock ID}
    (hb : svc.getSingleBlock a.chains bid = .ok b) (hi : b.Index ≠ 0) :
    ∃ ws t, blockWebstores json gz b.Data = .ok ws ∧ ∀ w ∈ ws, w.verified b64 (verify t) = true :=
  ((inv_of_reachable b64 verify json gz hsvc extract hempty hr).blocks bid b hb hi).2.webstores b64 verify json gz
    hjson hgz

/-- The block of the sample save reads back as the saved page. -/
theorem stored_pages_verified_of_sampleSaved :
    Skipchains.client.Spec ∧ Skipchains.client.Empty ⟨[]⟩ ∧
      (WebstoreJson.ofSlice [samplePage]).RoundTrip ∧ Gzip.identity.RoundTrip ∧
      Reachable Skipchains.client Base64.std acceptAll (WebstoreJson.ofSlice [samplePage]) Gzip.identity
        (fun _ _ => []) ⟨[]⟩ sampleSaved ∧
      Skipchains.client.getSingleBlock sampleSaved.chains (some (0, 1)) = .ok (mkBlock 0 1 []) ∧
      (mkBlock 0 1 []).Index ≠ 0 ∧
      ∃ ws t, blockWebstores (WebstoreJson.ofSlice [samplePage]) Gzip.identity (mkBlock 0 1 []).Data = .ok ws ∧
        ∀ w ∈ ws, w.verified Base64.std (acceptAll t) = true :=
  have hb : Skipchains.client.getSingleBlock sampleSaved.chains (some (0, 1)) = .ok (mkBlock 0 1 []) := rfl
  have hi : (mkBlock 0 1 []).Index ≠ 0 := Nat.one_ne_zero
  ⟨Skipchains.client_spec, Skipchains.client_empty, WebstoreJson.ofSlice_roundTrip _, Gzip.identity_roundTrip,
    sampleSaved_reachable, hb, hi,
    stored_pages_verified_of_reachable Base64.std acceptAll _ _ (fun _ _ => []) Skipchains.client_spec
      Skipchains.client_empty (WebstoreJson.ofSlice_roundTrip _) Gzip.identity_roundTrip sampleSaved_reachable hb hi⟩

/-- **A save at a conode that went through `Setup` stores its slice.**  In
every archive a run reaches from a service with no block, under the laws of
the service and when it stores after any block it holds, `SaveWebpage` at a
conode that holds a secret and a genesis stores the slice as soon as the
page decodes, every entry verifies under the conode's threshold and the
slice marshals and compresses: the genesis a conode holds is always a block
of the service.  The new block holds the slice, is above a genesis, is the
only block the service adds, leads back to the genesis, and becomes the
conode's latest. -/
theorem saveWebpage_stores_of_reachable (hsvc : svc.Spec) (hlive : svc.StoreLive) {st₀ : S}
    (hempty : svc.Empty st₀) {a : Archive S ID Node Key} (hr : Reachable svc b64 verify json gz extract st₀ a)
    {c : Node} {secret : Key} (hsecret : (a.storage c).Secret = some secret) {g : ID}
    (hgen : (a.storage c).GenesisID = some g) {webmain : Webstore Sig} {outcome : ℕ → String → LinkOutcome Sig}
    {bytePage : Bytes} (hdec : b64.decode webmain.Page = .ok bytePage)
    (hver : ∀ w ∈ webadds b64 webmain (linkRuns extract outcome webmain bytePage),
      w.verified b64 (verify (a.storage c).Threshold) = true)
    {d : Bytes} (hdata : blockData json gz (webadds b64 webmain (linkRuns extract outcome webmain bytePage)) = .ok d) :
    ∃ genesis st' latest, svc.getSingleBlock a.chains (some g) = .ok genesis ∧
      a.saveWebpage svc b64 verify json gz extract c webmain outcome =
        .ok (.ok { a.setStorage c { a.storage c with LatestID := some latest.Hash } with chains := st' }) ∧
      latest.Data = d ∧ latest.Index ≠ 0 ∧ svc.Adds a.chains st' latest ∧
      Relation.ReflTransGen (svc.BackLink st') latest genesis := by
  -- the genesis `c` holds is a block of the service, so the store after it goes through
  obtain ⟨genesis, hg⟩ := (inv_of_reachable b64 verify json gz hsvc extract hempty hr).ids g (.inl ⟨c, .inr hgen⟩)
  obtain ⟨st', latest, hst⟩ := hlive d hg
  obtain ⟨hd, h0, hadds, -, hrt⟩ := hsvc.storeSkipBlock hg hst
  have hstore : skipStore svc json gz a.chains (some g)
      (webadds b64 webmain (linkRuns extract outcome webmain bytePage)) = .ok (st', latest) := by
    simp only [skipStore, hdata, hg, bind, Except.bind]
    exact hst
  have hadd := (saveWebpageAdds_eq_ok b64 _).mpr ⟨bytePage, hdec, (skipAddData_eq_ok b64 _).mpr ⟨hver, hgen ▸ hstore⟩⟩
  refine ⟨genesis, st', latest, hg, ?_, hd, h0, hadds, hrt⟩
  simp only [saveWebpage, hsecret, hadd]
  rfl

/-- After `Setup` and its DKG, the sample page is stored after the genesis. -/
theorem saveWebpage_stores_at_sampleReady :
    Skipchains.client.Spec ∧ Skipchains.client.StoreLive ∧ Skipchains.client.Empty ⟨[]⟩ ∧
      Reachable Skipchains.client Base64.std acceptAll (WebstoreJson.ofSlice [samplePage]) Gzip.identity
        (fun _ _ => []) ⟨[]⟩ sampleReady ∧
      (sampleReady.storage 0).Secret = some () ∧ (sampleReady.storage 0).GenesisID = some (0, 0) ∧
      Base64.std.decode samplePage.Page = .ok [] ∧
      (∀ w ∈ webadds Base64.std samplePage (linkRuns (fun _ _ => []) (fun _ _ => .createError) samplePage []),
        w.verified Base64.std (acceptAll (sampleReady.storage 0).Threshold) = true) ∧
      blockData (WebstoreJson.ofSlice [samplePage]) Gzip.identity
        (webadds Base64.std samplePage (linkRuns (fun _ _ => []) (fun _ _ => .createError) samplePage [])) = .ok [] ∧
      ∃ genesis st' latest, Skipchains.client.getSingleBlock sampleReady.chains (some (0, 0)) = .ok genesis ∧
        sampleReady.saveWebpage Skipchains.client Base64.std acceptAll (WebstoreJson.ofSlice [samplePage])
            Gzip.identity (fun _ _ => []) 0 samplePage (fun _ _ => .createError) =
          .ok (.ok { sampleReady.setStorage 0 { sampleReady.storage 0 with LatestID := some latest.Hash } with
            chains := st' }) ∧
        latest.Data = [] ∧ latest.Index ≠ 0 ∧ Skipchains.client.Adds sampleReady.chains st' latest ∧
        Relation.ReflTransGen (Skipchains.client.BackLink st') latest genesis :=
  have hr : Reachable Skipchains.client Base64.std acceptAll (WebstoreJson.ofSlice [samplePage]) Gzip.identity
      (fun _ _ => []) ⟨[]⟩ sampleReady :=
    (Transition.Run.cons rfl (.cons rfl (.nil _)) : Transition.Run _ _ [.setup 0 [0], .dkgDone 0 ()] _).reachable
      (.init rfl)
  have hver : ∀ w ∈ webadds Base64.std samplePage (linkRuns (fun _ _ => []) (fun _ _ => .createError) samplePage []),
      w.verified Base64.std (acceptAll (sampleReady.storage 0).Threshold) = true := by
    decide
  ⟨Skipchains.client_spec, Skipchains.client_storeLive, Skipchains.client_empty, hr, rfl, rfl, rfl, hver, rfl,
    saveWebpage_stores_of_reachable Base64.std acceptAll _ _ _ Skipchains.client_spec Skipchains.client_storeLive
      Skipchains.client_empty hr rfl rfl rfl hver rfl⟩

/-- Right after a save at `c`, `Retrieve` at `c` of the page's URL at a time
not before the save finds, in the new block, the first entry of the slice
with that URL, and answers with it and, URL after URL of its list, the
entries of that URL. -/
theorem retrieve_after_saveWebpage_eq (hsvc : svc.Spec) (hjson : json.RoundTrip) (hgz : gz.RoundTrip)
    {a a' : Archive S ID Node Key} {c : Node} {webmain : Webstore Sig} {outcome : ℕ → String → LinkOutcome Sig}
    {bytePage : Bytes} (hsave : a.saveWebpage svc b64 verify json gz extract c webmain outcome = .ok (.ok a'))
    (hdec : b64.decode webmain.Page = .ok bytePage) {url timestamp : String} {t tReq : Time}
    (hfetch : fetch url = .ok webmain.Url) (hreq : parseTime timestamp = .ok tReq)
    (hparse : parseTime webmain.Timestamp = .ok t) (ht : t ≤ tReq) {fuel : ℕ} (hfuel : 0 < fuel) :
    ∃ w, (webadds b64 webmain (linkRuns extract outcome webmain bytePage)).find?
        (fun w => decide (w.Url = webmain.Url)) = some w ∧
      a'.retrieve svc b64 verify json gz parseTime fetch c fuel url timestamp =
        .ok (.ok ⟨w, (w.AddsUrl.map fun u =>
          (webadds b64 webmain (linkRuns extract outcome webmain bytePage)).filter fun p => decide (p.Url = u)).flatten⟩) := by
  obtain ⟨-, bytePage', chains, latest, -, hdec', hver, hstore, ha'⟩ :=
    saveWebpage_eq_ok svc b64 verify json gz extract hsave
  obtain rfl : bytePage = bytePage' := Except.ok.inj (hdec.symm.trans hdec')
  set ws := webadds b64 webmain (linkRuns extract outcome webmain bytePage) with hws
  obtain ⟨d, genesis, hd, hg, hst⟩ := skipStore_eq_ok svc json gz hstore
  -- the new block holds the slice, is above a genesis, and is `c`'s latest under the same threshold
  obtain ⟨hdata, hpos, hadds, -, -⟩ := hsvc.storeSkipBlock hg hst
  have hl : (a'.storage c).LatestID = some latest.Hash := by
    simp [ha']
  have hth : (a'.storage c).Threshold = (a.storage c).Threshold := by
    simp [ha']
  have hget : svc.getSingleBlock a'.chains (some latest.Hash) = .ok latest := by
    rw [ha']
    exact hadds.new
  -- every entry verified, so each carries the save's timestamp
  have htime : ∀ w ∈ ws, parseTime w.Timestamp = .ok ((fun _ => t) w) := fun w hw => by
    rw [timestamp_of_mem_webadds b64 hw (Webstore.isSome_sig_of_verified b64 _ (hver w hw))]
    exact hparse
  -- the main entry has the URL, so the scan finds an entry
  obtain ⟨w, hw⟩ : ∃ w, ws.find? (fun w => decide (w.Url = webmain.Url)) = some w :=
    Option.isSome_iff_exists.mp (List.find?_isSome.mpr ⟨_, mainEntry_mem_webadds b64 webmain _, by simp [mainEntry]⟩)
  have hpred : (fun w : Webstore Sig => decide (w.Url = webmain.Url ∧ (fun _ => t) w ≤ tReq)) =
      fun w => decide (w.Url = webmain.Url) := by
    funext w
    simp [ht]
  have hscan : scanPages parseTime webmain.Url tReq ws = .ok (some w) := by
    rw [scanPages_eq_find parseTime htime, hpred, hw]
  refine ⟨w, hw, ?_⟩
  obtain ⟨fuel, rfl⟩ : ∃ f, fuel = f + 1 := ⟨fuel - 1, by omega⟩
  have hloop : getDataLoop svc json gz parseTime a'.chains webmain.Url tReq (fuel + 1) latest = .ok (.ok ⟨w, ws⟩) :=
    getDataLoop_of_found svc json gz parseTime hpos (hdata ▸ blockWebstores_blockData json gz hjson hgz hd) hscan
  have hfound : retrieveFound b64 (verify (a.storage c).Threshold) ⟨w, ws⟩ = _ :=
    retrieveFound_of_verified b64 _ hver (List.mem_of_find?_eq_some hw)
  rw [Archive.retrieve, hl, hth, Decenarch.retrieve, skipGetData]
  simp only [hfetch, hreq, hget, hloop]
  exact hfound

/-- **Save, then retrieve.**  Right after a `SaveWebpage` at `c` stored the
page, `Retrieve` at `c` of its URL at a time not before the save answers
with the main page's entry and, link after link of the page, the stored
pages of that link, when no additional link's entry has the page's URL. -/
theorem retrieve_after_saveWebpage (hsvc : svc.Spec) (hjson : json.RoundTrip) (hgz : gz.RoundTrip)
    {a a' : Archive S ID Node Key} {c : Node} {webmain : Webstore Sig} {outcome : ℕ → String → LinkOutcome Sig}
    {bytePage : Bytes}
    (hsave : a.saveWebpage svc b64 verify json gz extract c webmain outcome = .ok (.ok a'))
    (hdec : b64.decode webmain.Page = .ok bytePage) {url timestamp : String} {t tReq : Time}
    (hfetch : fetch url = .ok webmain.Url) (hreq : parseTime timestamp = .ok tReq)
    (hparse : parseTime webmain.Timestamp = .ok t) (ht : t ≤ tReq) {fuel : ℕ} (hfuel : 0 < fuel)
    (hnoself : ∀ w ∈ (linkRuns extract outcome webmain bytePage).map (fun r => addWebstore b64 webmain.Timestamp r.2),
      w.Url ≠ webmain.Url) :
    a'.retrieve svc b64 verify json gz parseTime fetch c fuel url timestamp =
      .ok (.ok ⟨mainEntry webmain (linkRuns extract outcome webmain bytePage),
        ((extract webmain.Url bytePage).map fun u =>
          (webadds b64 webmain (linkRuns extract outcome webmain bytePage)).filter fun p => decide (p.Url = u)).flatten⟩) := by
  obtain ⟨w, hw, hret⟩ := retrieve_after_saveWebpage_eq b64 verify json gz extract parseTime fetch hsvc hjson hgz hsave hdec
    hfetch hreq hparse ht hfuel
  -- the scan passes the entries of the links and stops at the main entry
  have hfind : (webadds b64 webmain (linkRuns extract outcome webmain bytePage)).find?
      (fun w => decide (w.Url = webmain.Url)) = some (mainEntry webmain (linkRuns extract outcome webmain bytePage)) := by
    rw [webadds_eq, List.find?_append, List.find?_eq_none.mpr fun w hw => by simpa using hnoself w hw]
    simp [mainEntry]
  obtain rfl := Option.some_injective _ (hw.symm.trans hfind)
  -- every run finished, so the main entry lists the links as extracted
  obtain ⟨-, bytePage', -, -, -, hdec', hver, -, -⟩ := saveWebpage_eq_ok svc b64 verify json gz extract hsave
  obtain rfl : bytePage = bytePage' := Except.ok.inj (hdec.symm.trans hdec')
  have hfin := isFinished_of_verified b64 _ hver
  have hadds : (mainEntry webmain (linkRuns extract outcome webmain bytePage)).AddsUrl = extract webmain.Url bytePage := by
    rw [mainEntry, ← map_fst_linkRuns extract outcome webmain bytePage]
    exact List.map_congr_left fun r hr => if_pos (hfin r hr)
  rw [hret, hadds]

/-- Saving the sample page, then retrieving it, gives it back. -/
theorem retrieve_after_saveWebpage_sample :
    Skipchains.client.Spec ∧ (WebstoreJson.ofSlice [samplePage]).RoundTrip ∧ Gzip.identity.RoundTrip ∧
      sampleReady.saveWebpage Skipchains.client Base64.std acceptAll (WebstoreJson.ofSlice [samplePage]) Gzip.identity
        (fun _ _ => []) 0 samplePage (fun _ _ => .createError) = .ok (.ok sampleSaved) ∧
      Base64.std.decode samplePage.Page = .ok [] ∧ (Except.ok "p" : Except String String) = .ok samplePage.Url ∧
      parseZero "t" = .ok 0 ∧ parseZero samplePage.Timestamp = .ok 0 ∧ 0 ≤ 0 ∧ 0 < 1 ∧
      (∀ w ∈ (linkRuns (fun _ _ => []) (fun _ _ => .createError) samplePage []).map
        (fun r => addWebstore Base64.std samplePage.Timestamp r.2), w.Url ≠ samplePage.Url) ∧
      sampleSaved.retrieve Skipchains.client Base64.std acceptAll (WebstoreJson.ofSlice [samplePage]) Gzip.identity parseZero .ok
        0 1 "p" "t" = .ok (.ok ⟨samplePage, []⟩) :=
  have hsave : sampleReady.saveWebpage Skipchains.client Base64.std acceptAll (WebstoreJson.ofSlice [samplePage]) Gzip.identity
      (fun _ _ => []) 0 samplePage (fun _ _ => .createError) = .ok (.ok sampleSaved) := rfl
  have hnoself : ∀ w ∈ (linkRuns (fun _ _ => []) (fun _ _ => .createError) samplePage []).map
      (fun r => addWebstore Base64.std samplePage.Timestamp r.2), w.Url ≠ samplePage.Url := by
    simp [linkRuns]
  ⟨Skipchains.client_spec, WebstoreJson.ofSlice_roundTrip _, Gzip.identity_roundTrip, hsave, rfl, rfl, rfl, rfl,
    le_rfl, Nat.one_pos, hnoself,
    retrieve_after_saveWebpage Base64.std acceptAll _ _ _ parseZero .ok Skipchains.client_spec
      (WebstoreJson.ofSlice_roundTrip _) Gzip.identity_roundTrip hsave rfl rfl rfl rfl le_rfl Nat.one_pos hnoself⟩

/-- **A page that lists itself is answered by its own copy.**  When the run of
the page's first additional link ended at the page's own URL (an `<img>`
whose `src` is empty or missing resolves to the page itself), that link's
entry comes before the main page's in the slice, so right after the save
`Retrieve` at `c` answers with the link's copy of the page and with no
additional page. -/
theorem retrieve_after_saveWebpage_of_self_link (hsvc : svc.Spec) (hjson : json.RoundTrip) (hgz : gz.RoundTrip)
    {a a' : Archive S ID Node Key} {c : Node} {webmain : Webstore Sig} {outcome : ℕ → String → LinkOutcome Sig}
    {bytePage : Bytes} (hsave : a.saveWebpage svc b64 verify json gz extract c webmain outcome = .ok (.ok a'))
    (hdec : b64.decode webmain.Page = .ok bytePage) {url timestamp : String} {t tReq : Time}
    (hfetch : fetch url = .ok webmain.Url) (hreq : parseTime timestamp = .ok tReq)
    (hparse : parseTime webmain.Timestamp = .ok t) (ht : t ≤ tReq) {fuel : ℕ} (hfuel : 0 < fuel)
    {al : String} {links : List String} (hlinks : extract webmain.Url bytePage = al :: links)
    {ct : String} {mts : Bytes} {sig : Option Sig} (hself : outcome 0 al = .finished webmain.Url ct mts sig) :
    a'.retrieve svc b64 verify json gz parseTime fetch c fuel url timestamp =
      .ok (.ok ⟨⟨webmain.Url, ct, sig, b64.encode mts, [], webmain.Timestamp⟩, []⟩) := by
  obtain ⟨w, hw, hret⟩ := retrieve_after_saveWebpage_eq b64 verify json gz extract parseTime fetch hsvc hjson hgz hsave hdec
    hfetch hreq hparse ht hfuel
  -- the link's entry is the first of the slice, and it has the page's URL
  have hfind : (webadds b64 webmain (linkRuns extract outcome webmain bytePage)).find?
      (fun w => decide (w.Url = webmain.Url)) = some ⟨webmain.Url, ct, sig, b64.encode mts, [], webmain.Timestamp⟩ := by
    simp [webadds_eq, linkRuns, hlinks, List.zipIdx_cons, hself, addWebstore]
  obtain rfl := Option.some_injective _ (hw.symm.trans hfind)
  rw [hret]
  rfl

/-- A page whose one image resolves to the page itself: `Retrieve` answers
with the image's copy of the page. -/
theorem retrieve_after_saveWebpage_of_self_link_sample :
    Skipchains.client.Spec ∧ (WebstoreJson.ofSlice [⟨"p", "img", some (), "", [], "t"⟩, ⟨"p", "", some (), "", ["p"], "t"⟩]).RoundTrip ∧
      Gzip.identity.RoundTrip ∧
      sampleReady.saveWebpage Skipchains.client Base64.std acceptAll
        (WebstoreJson.ofSlice [⟨"p", "img", some (), "", [], "t"⟩, ⟨"p", "", some (), "", ["p"], "t"⟩])
        Gzip.identity (fun _ _ => ["p"]) 0 samplePage (fun _ _ => .finished "p" "img" [] (some ())) =
          .ok (.ok sampleSaved) ∧
      Base64.std.decode samplePage.Page = .ok [] ∧ (Except.ok "p" : Except String String) = .ok samplePage.Url ∧
      parseZero "t" = .ok 0 ∧ parseZero samplePage.Timestamp = .ok 0 ∧ 0 ≤ 0 ∧ 0 < 1 ∧
      (fun _ _ => ["p"] : String → Bytes → List String) samplePage.Url [] = ["p"] ∧
      (fun _ _ => .finished "p" "img" [] (some ()) : ℕ → String → LinkOutcome Unit) 0 "p" =
        .finished samplePage.Url "img" [] (some ()) ∧
      sampleSaved.retrieve Skipchains.client Base64.std acceptAll
        (WebstoreJson.ofSlice [⟨"p", "img", some (), "", [], "t"⟩, ⟨"p", "", some (), "", ["p"], "t"⟩])
        Gzip.identity parseZero .ok 0 1 "p" "t" = .ok (.ok ⟨⟨"p", "img", some (), "", [], "t"⟩, []⟩) :=
  have hsave : sampleReady.saveWebpage Skipchains.client Base64.std acceptAll
      (WebstoreJson.ofSlice [⟨"p", "img", some (), "", [], "t"⟩, ⟨"p", "", some (), "", ["p"], "t"⟩])
      Gzip.identity (fun _ _ => ["p"]) 0 samplePage (fun _ _ => .finished "p" "img" [] (some ())) =
        .ok (.ok sampleSaved) := rfl
  ⟨Skipchains.client_spec, WebstoreJson.ofSlice_roundTrip _, Gzip.identity_roundTrip, hsave, rfl, rfl, rfl, rfl,
    le_rfl, Nat.one_pos, rfl, rfl,
    retrieve_after_saveWebpage_of_self_link Base64.std acceptAll _ _ _ parseZero .ok Skipchains.client_spec
      (WebstoreJson.ofSlice_roundTrip _) Gzip.identity_roundTrip hsave rfl rfl rfl rfl le_rfl Nat.one_pos rfl rfl⟩

/-- **A redirected resource is stored but never returned.**  When the run of
an additional link ended at a URL that is not one of the page's links (its
fetch was redirected), the link's entry is in the new block, but `Retrieve`
at `c` right after the save leaves it out: it looks the additional pages up
by the links as extracted, not by where their runs ended. -/
theorem retrieve_after_saveWebpage_drops_redirected (hsvc : svc.Spec) (hjson : json.RoundTrip)
    (hgz : gz.RoundTrip) {a a' : Archive S ID Node Key} {c : Node} {webmain : Webstore Sig} {outcome : ℕ → String → LinkOutcome Sig}
    {bytePage : Bytes} (hsave : a.saveWebpage svc b64 verify json gz extract c webmain outcome = .ok (.ok a'))
    (hdec : b64.decode webmain.Page = .ok bytePage) {url timestamp : String} {t tReq : Time}
    (hfetch : fetch url = .ok webmain.Url) (hreq : parseTime timestamp = .ok tReq)
    (hparse : parseTime webmain.Timestamp = .ok t) (ht : t ≤ tReq) {fuel : ℕ} (hfuel : 0 < fuel)
    {al ru ct : String} {mts : Bytes} {sig : Option Sig}
    (hrun : (al, LinkOutcome.finished ru ct mts sig) ∈ linkRuns extract outcome webmain bytePage)
    (hru : ru ∉ extract webmain.Url bytePage) :
    ∃ resp, a'.retrieve svc b64 verify json gz parseTime fetch c fuel url timestamp = .ok (.ok resp) ∧
      (⟨ru, ct, sig, b64.encode mts, [], webmain.Timestamp⟩ : Webstore Sig) ∈
        webadds b64 webmain (linkRuns extract outcome webmain bytePage) ∧
      (⟨ru, ct, sig, b64.encode mts, [], webmain.Timestamp⟩ : Webstore Sig) ∉ resp.Adds := by
  obtain ⟨w, hw, hret⟩ := retrieve_after_saveWebpage_eq b64 verify json gz extract parseTime fetch hsvc hjson hgz hsave hdec
    hfetch hreq hparse ht hfuel
  obtain ⟨-, bytePage', -, -, -, hdec', hver, -, -⟩ := saveWebpage_eq_ok svc b64 verify json gz extract hsave
  obtain rfl : bytePage = bytePage' := Except.ok.inj (hdec.symm.trans hdec')
  refine ⟨_, hret, ?_, ?_⟩
  · rw [webadds_eq]
    exact List.mem_append_left _ (List.mem_map.mpr ⟨_, hrun, rfl⟩)
  · intro hin
    obtain ⟨l, hl, hin'⟩ := List.mem_flatten.mp hin
    obtain ⟨u, hu, rfl⟩ := List.mem_map.mp hl
    have hurl : ru = u := of_decide_eq_true (List.mem_filter.mp hin').2
    -- every URL that the answered entry lists is one of the page's links
    have hlisted := addsUrl_of_mem_webadds b64 (List.mem_of_find?_eq_some hw) (isFinished_of_verified b64 _ hver) u hu
    rw [map_fst_linkRuns] at hlisted
    exact hru (hurl ▸ hlisted)

/-- A page whose image `a` was redirected to `b`: the copy of `b` is stored,
and `Retrieve` does not return it. -/
theorem retrieve_after_saveWebpage_drops_redirected_sample :
    Skipchains.client.Spec ∧ (WebstoreJson.ofSlice [⟨"b", "img", some (), "", [], "t"⟩, ⟨"p", "", some (), "", ["a"], "t"⟩]).RoundTrip ∧
      Gzip.identity.RoundTrip ∧
      sampleReady.saveWebpage Skipchains.client Base64.std acceptAll
        (WebstoreJson.ofSlice [⟨"b", "img", some (), "", [], "t"⟩, ⟨"p", "", some (), "", ["a"], "t"⟩])
        Gzip.identity (fun _ _ => ["a"]) 0 samplePage (fun _ _ => .finished "b" "img" [] (some ())) =
          .ok (.ok sampleSaved) ∧
      Base64.std.decode samplePage.Page = .ok [] ∧ (Except.ok "p" : Except String String) = .ok samplePage.Url ∧
      parseZero "t" = .ok 0 ∧ parseZero samplePage.Timestamp = .ok 0 ∧ 0 ≤ 0 ∧ 0 < 1 ∧
      ("a", LinkOutcome.finished "b" "img" [] (some ())) ∈
        linkRuns (fun _ _ => ["a"]) (fun _ _ => .finished "b" "img" [] (some ())) samplePage [] ∧
      "b" ∉ (fun _ _ => ["a"] : String → Bytes → List String) samplePage.Url [] ∧
      ∃ resp, sampleSaved.retrieve Skipchains.client Base64.std acceptAll
          (WebstoreJson.ofSlice [⟨"b", "img", some (), "", [], "t"⟩, ⟨"p", "", some (), "", ["a"], "t"⟩])
          Gzip.identity parseZero .ok 0 1 "p" "t" = .ok (.ok resp) ∧
        (⟨"b", "img", some (), Base64.std.encode [], [], samplePage.Timestamp⟩ : Webstore Unit) ∈
          webadds Base64.std samplePage
            (linkRuns (fun _ _ => ["a"]) (fun _ _ => .finished "b" "img" [] (some ())) samplePage []) ∧
        (⟨"b", "img", some (), Base64.std.encode [], [], samplePage.Timestamp⟩ : Webstore Unit) ∉ resp.Adds :=
  have hsave : sampleReady.saveWebpage Skipchains.client Base64.std acceptAll
      (WebstoreJson.ofSlice [⟨"b", "img", some (), "", [], "t"⟩, ⟨"p", "", some (), "", ["a"], "t"⟩])
      Gzip.identity (fun _ _ => ["a"]) 0 samplePage (fun _ _ => .finished "b" "img" [] (some ())) =
        .ok (.ok sampleSaved) := rfl
  have hrun : ("a", LinkOutcome.finished "b" "img" [] (some ())) ∈
      linkRuns (fun _ _ => ["a"]) (fun _ _ => .finished "b" "img" [] (some ())) samplePage [] :=
    List.mem_singleton.mpr rfl
  have hru : "b" ∉ (fun _ _ => ["a"] : String → Bytes → List String) samplePage.Url [] := by
    decide
  ⟨Skipchains.client_spec, WebstoreJson.ofSlice_roundTrip _, Gzip.identity_roundTrip, hsave, rfl, rfl, rfl, rfl,
    le_rfl, Nat.one_pos, hrun, hru,
    retrieve_after_saveWebpage_drops_redirected Base64.std acceptAll _ _ _ parseZero .ok Skipchains.client_spec
      (WebstoreJson.ofSlice_roundTrip _) Gzip.identity_roundTrip hsave rfl rfl rfl rfl le_rfl Nat.one_pos hrun hru⟩

/-- **`Retrieve` panics at a conode that no request was sent to.**  Along a
run from the first archive in which no `Setup` and no `SaveWebpage` went to
conode `c`, `c` knows no latest block, whatever setup messages it handled;
since `GetSingleBlock` of the `nil` ID fails, `Retrieve` there dereferences
the `nil` block it returns, as soon as the URL and the time are read. -/
theorem retrieve_panics_without_request (hnone : ∀ st, ∃ e, svc.getSingleBlock st none = .error e) {st₀ : S}
    {a : Archive S ID Node Key} {es : List (Event Node Key Sig)}
    (hrun : Transition.Run (Step svc b64 verify json gz extract) (init st₀) es a) {c : Node}
    (hc : ∀ e ∈ es, e.isRequestTo c = false) {url timestamp realUrl : String} {tReq : Time}
    (hfetch : fetch url = .ok realUrl) (hreq : parseTime timestamp = .ok tReq) (fuel : ℕ) :
    a.retrieve svc b64 verify json gz parseTime fetch c fuel url timestamp = .panic := by
  have hl : (a.storage c).LatestID = none := latestID_of_run b64 verify json gz extract hrun hc
  obtain ⟨e, he⟩ := hnone a.chains
  rw [Archive.retrieve, hl, Decenarch.retrieve,
    skipGetData_of_getSingleBlock_error svc json gz parseTime he hfetch hreq fuel]
  rfl

/-- Conode `1` handled the setup message of conode `0` and holds the
genesis, and `Retrieve` there panics. -/
theorem retrieve_panics_at_conode_reached_by_setup :
    (∀ st, ∃ e, Skipchains.client.getSingleBlock st none = .error e) ∧
      Transition.Run (Step Skipchains.client Base64.std acceptAll (WebstoreJson.ofSlice []) Gzip.identity
          fun _ _ => []) (init ⟨[]⟩ : SampleArchive) [.setup 0 [0, 1], .deliverSetup 1]
        (((init ⟨[]⟩ : SampleArchive).setup Skipchains.client 0 [0, 1]).deliverSetup 1) ∧
      (∀ e ∈ ([.setup 0 [0, 1], .deliverSetup 1] : List (Event ℕ Unit Unit)), e.isRequestTo 1 = false) ∧
      ((((init ⟨[]⟩ : SampleArchive).setup Skipchains.client 0 [0, 1]).deliverSetup 1).storage 1).GenesisID =
        some (0, 0) ∧
      (Except.ok "p" : Except String String) = .ok "p" ∧ parseZero "t" = .ok 0 ∧
      (((init ⟨[]⟩ : SampleArchive).setup Skipchains.client 0 [0, 1]).deliverSetup 1).retrieve Skipchains.client
        Base64.std acceptAll (WebstoreJson.ofSlice []) Gzip.identity parseZero .ok 1 1 "p" "t" = .panic :=
  have hrun : Transition.Run (Step Skipchains.client Base64.std acceptAll (WebstoreJson.ofSlice []) Gzip.identity
      fun _ _ => []) (init ⟨[]⟩ : SampleArchive) [.setup 0 [0, 1], .deliverSetup 1]
      (((init ⟨[]⟩ : SampleArchive).setup Skipchains.client 0 [0, 1]).deliverSetup 1) :=
    .cons rfl (.cons rfl (.nil _))
  have hc : ∀ e ∈ ([.setup 0 [0, 1], .deliverSetup 1] : List (Event ℕ Unit Unit)), e.isRequestTo 1 = false := by
    decide
  ⟨Skipchains.client_spec.getSingleBlock_none, hrun, hc, rfl, rfl, rfl,
    retrieve_panics_without_request Base64.std acceptAll _ _ _ parseZero .ok
      Skipchains.client_spec.getSingleBlock_none hrun hc rfl rfl 1⟩

end Retrieve

end Archive

end Decenarch
