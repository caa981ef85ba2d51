import Decenarch.Suite
import Decenarch.Lib.Outcome
import Decenarch.Lib.GoBase64

/-!
# The additional resources of `SaveWebpage` (`service/service.go`, `skip/api.go`)

After the consensus on the main page, `SaveWebpage` runs one unstructured
consensus for each link that `ExtractPageExternalLinks` finds in the page.
`webadds` is allocated with one zero `Webstore` per link, and an entry is
filled only when that link's protocol sends on `Finished`; a `CreateProtocol`
or `Start` error and a timeout leave the zero entry, and a failed `sign` is
only logged, leaving a `nil` signature in the filled entry.  The main page is
appended and the whole slice goes to `SkipAddData`, which checks every
entry's signature before storing the block.

The outcome of each link's run is an input of the model (`LinkOutcome`), as
are `cosi.Verify` and the storing of the block.  The theorems take the
base64 encoding as a parameter and hold for every encoding that meets their
hypotheses; `Base64.std` is Go's `base64.StdEncoding` (`Lib.GoBase64`).
-/

namespace Decenarch

/-- `encoding/base64.StdEncoding`: `EncodeToString` and `DecodeString`. -/
structure Base64 where
  encode : Bytes → String
  decode : String → Except String Bytes

/-- `base64.StdEncoding`. -/
def Base64.std : Base64 :=
  ⟨GoBase64.encodeToString, GoBase64.decodeString⟩

@[simp] theorem Base64.std_decode_encode (b : Bytes) : Base64.std.decode (Base64.std.encode b) = .ok b :=
  GoBase64.decodeString_encodeToString b

@[simp] theorem Base64.std_decode_empty : Base64.std.decode "" = .ok [] := rfl

/-- `decenarch.Webstore`, with `Sig` a pointer: `none` is `nil`. -/
structure Webstore (Sig : Type) where
  Url : String
  ContentType : String
  Sig : Option Sig
  Page : String
  AddsUrl : List String
  Timestamp : String

/-- The zero `Webstore` that `make([]decenarch.Webstore, n)` puts in every
slot. -/
def Webstore.zero {Sig : Type} : Webstore Sig :=
  ⟨"", "", none, "", [], ""⟩

deriving instance DecidableEq for Webstore

/-- How the unstructured consensus of one additional link ended. -/
inductive LinkOutcome (Sig : Type) where
  /-- `CreateProtocol` returned an error. -/
  | createError
  /-- `Start` returned an error. -/
  | startError
  /-- `time.After(timeout)` fired before `Finished`. -/
  | timeout
  /-- `Finished` with the protocol's `Url`, `ContentType` and `MsgToSign`,
  and the result of `sign`: `none` when it returned an error. -/
  | finished (url contentType : String) (msgToSign : Bytes) (sig : Option Sig)

variable {Sig Reply : Type}

/-- The signature in the entry that a run leaves in `webadds`. -/
def LinkOutcome.signature : LinkOutcome Sig → Option Sig
  | .finished _ _ _ sig => sig
  | _ => none

/-- Whether the run filled its entry of `webadds`. -/
def LinkOutcome.IsFinished : LinkOutcome Sig → Prop
  | .finished .. => True
  | _ => False

instance (o : LinkOutcome Sig) : Decidable o.IsFinished := by
  cases o <;> unfold LinkOutcome.IsFinished <;> infer_instance

variable (b64 : Base64)

/-- The entry `webadds[i]` after the run of link `i`: `aweb` when the run
finished, the zero `Webstore` otherwise. -/
def addWebstore (timestamp : String) : LinkOutcome Sig → Webstore Sig
  | .finished ru ct mts as => ⟨ru, ct, as, b64.encode mts, [], timestamp⟩
  | _ => Webstore.zero

/-- The slice that `SaveWebpage` passes to `SkipAddData`: the entries of the
links, in order, then the main page with `AddsUrl[i]` set to the links whose
run finished and left `""` elsewhere. -/
def webadds (webmain : Webstore Sig) (runs : List (String × LinkOutcome Sig)) : List (Webstore Sig) :=
  runs.map (fun r => addWebstore b64 webmain.Timestamp r.2) ++
    [{ webmain with AddsUrl := runs.map fun r => if r.2.IsFinished then r.1 else "" }]

variable (verify : Bytes → Sig → Option String)

/-- The loop of `SkipAddData` that checks the signature of every page:
`DecodeString(d.Page)`, then `cosi.Verify` on `d.Sig.Signature`, which
dereferences `d.Sig`. -/
def skipVerify : List (Webstore Sig) → Outcome (Option String)
  | [] => .ok none
  | d :: ds =>
      match b64.decode d.Page with
      | .error e => .ok (some e)
      | .ok bd =>
          match d.Sig with
          | none => .panic
          | some sig =>
              match verify bd sig with
              | some e => .ok (some e)
              | none => skipVerify ds

/-- `SkipClient.SkipAddData`: the signature checks, then the marshalling,
compression and storing of the block, which `store` stands for. -/
def skipAddData (store : List (Webstore Sig) → Except String Reply) (data : List (Webstore Sig)) :
    Outcome (Except String Reply) :=
  skipVerify b64 verify data >>= fun
    | some e => .ok (.error e)
    | none => .ok (store data)

/-- The end of `SaveWebpage`, from the main page's `Webstore`: decode its
page, run the additional links that `extract` finds in it, each with its
outcome, and hand the slice to `SkipAddData`. -/
def saveWebpageAdds (store : List (Webstore Sig) → Except String Reply)
    (extract : String → Bytes → List String) (outcome : ℕ → String → LinkOutcome Sig)
    (webmain : Webstore Sig) : Outcome (Except String Reply) :=
  match b64.decode webmain.Page with
  | .error e => .ok (.error e)
  | .ok bytePage =>
      let runs := (extract webmain.Url bytePage).zipIdx.map fun (al, i) => (al, outcome i al)
      skipAddData b64 verify store (webadds b64 webmain runs)

/-! ## What the slice holds -/

theorem sig_addWebstore (timestamp : String) (o : LinkOutcome Sig) :
    (addWebstore b64 timestamp o).Sig = o.signature := by
  cases o <;> rfl

/-- The page of an entry decodes whenever base64 decodes what it encodes and
the empty string. -/
theorem decode_page_addWebstore (hempty : (b64.decode "").toOption.isSome)
    (hdec : ∀ b, (b64.decode (b64.encode b)).toOption.isSome) (timestamp : String) (o : LinkOutcome Sig) :
    (b64.decode (addWebstore b64 timestamp o).Page).toOption.isSome := by
  cases o with
  | finished ru ct mts as => exact hdec mts
  | _ => exact hempty

/-- The check passes over entries whose pages decode to bytes on which their
signatures verify. -/
theorem skipVerify_append_of_verified {ds : List (Webstore Sig)}
    (hds : ∀ d ∈ ds, ∃ bd sig, b64.decode d.Page = .ok bd ∧ d.Sig = some sig ∧ verify bd sig = none)
    (rest : List (Webstore Sig)) :
    skipVerify b64 verify (ds ++ rest) = skipVerify b64 verify rest := by
  induction ds with
  | nil => rfl
  | cons d ds ih =>
    obtain ⟨bd, sig, hbd, hsig, hv⟩ := hds d List.mem_cons_self
    rw [List.cons_append, skipVerify, hbd]
    simp only [hsig, hv]
    exact ih fun d' hd' => hds d' (List.mem_cons_of_mem _ hd')

/-- An entry whose page decodes and whose signature is `nil` makes the check
dereference it. -/
theorem skipVerify_nil_sig {d : Webstore Sig} (hpage : (b64.decode d.Page).toOption.isSome)
    (hsig : d.Sig = none) (rest : List (Webstore Sig)) :
    skipVerify b64 verify (d :: rest) = .panic := by
  obtain ⟨bd, hbd⟩ : ∃ bd, b64.decode d.Page = .ok bd := by
    cases h : b64.decode d.Page with
    | error e => rw [h] at hpage; exact absurd hpage (by simp [Except.toOption])
    | ok bd => exact ⟨bd, rfl⟩
  rw [skipVerify, hbd]
  simp only [hsig]

/-- A run that did not finish, or whose `sign` failed, leaves an entry with a
`nil` signature; if the runs before it finished with signatures that
verify, `SkipAddData` dereferences that `nil` signature. -/
theorem skipAddData_dereferences_nil_sig (hempty : (b64.decode "").toOption.isSome)
    (hdec : ∀ b, (b64.decode (b64.encode b)).toOption.isSome)
    (store : List (Webstore Sig) → Except String Reply) (webmain : Webstore Sig)
    (runs : List (String × LinkOutcome Sig)) {i : ℕ} (hi : i < runs.length)
    (hfail : runs[i].2.signature = none)
    (hprev : ∀ j (hj : j < i), ∃ ru ct mts sig, runs[j].2 = .finished ru ct mts (some sig) ∧
      ∃ bd, b64.decode (b64.encode mts) = .ok bd ∧ verify bd sig = none) :
    skipAddData b64 verify store (webadds b64 webmain runs) = .panic := by
  -- the entries before `i` pass, and entry `i` has no signature
  set f := fun r : String × LinkOutcome Sig => addWebstore b64 webmain.Timestamp r.2
  have hmap : runs.map f = (runs.map f).take i ++ f runs[i] :: (runs.map f).drop (i + 1) := by
    conv_lhs => rw [← List.take_append_drop i (runs.map f)]
    rw [List.drop_eq_getElem_cons (by simpa using hi), List.getElem_map]
  have hsplit : webadds b64 webmain runs =
      (runs.map f).take i ++ (f runs[i] :: ((runs.map f).drop (i + 1) ++
        [{ webmain with AddsUrl := runs.map fun r => if r.2.IsFinished then r.1 else "" }])) := by
    rw [webadds, ← List.cons_append, ← List.append_assoc]
    exact congrArg (· ++ _) hmap
  have hverified : ∀ d ∈ (runs.map f).take i,
      ∃ bd sig, b64.decode d.Page = .ok bd ∧ d.Sig = some sig ∧ verify bd sig = none := by
    intro d hd
    obtain ⟨j, hj, rfl⟩ := List.getElem_of_mem hd
    have hji : j < i := by
      rw [List.length_take] at hj
      omega
    obtain ⟨ru, ct, mts, sig, hrun, bd, hbd, hv⟩ := hprev j hji
    rw [List.getElem_take, List.getElem_map]
    show ∃ bd sig, b64.decode (addWebstore b64 webmain.Timestamp runs[j].2).Page = .ok bd ∧
      (addWebstore b64 webmain.Timestamp runs[j].2).Sig = some sig ∧ verify bd sig = none
    rw [hrun]
    exact ⟨bd, sig, hbd, rfl, hv⟩
  rw [skipAddData, hsplit, skipVerify_append_of_verified b64 verify hverified,
    skipVerify_nil_sig b64 verify (decode_page_addWebstore b64 hempty hdec _ _)
      (by rw [sig_addWebstore, hfail])]
  rfl

theorem getElem_runs (links : List String) (outcome : ℕ → String → LinkOutcome Sig) {j : ℕ}
    (hj : j < links.length) (hjr : j < (links.zipIdx.map fun (al, i) => (al, outcome i al)).length) :
    (links.zipIdx.map fun (al, i) => (al, outcome i al))[j] = (links[j], outcome j links[j]) := by
  simp [List.getElem_zipIdx]

/-- In `SaveWebpage`, the first additional link whose consensus did not
finish, or whose signing failed, makes `SkipAddData` dereference a `nil`
signature, once the links before it were signed with signatures that
verify: the save panics. -/
theorem saveWebpage_panics_on_failed_additional_link (hempty : (b64.decode "").toOption.isSome)
    (hdec : ∀ b, (b64.decode (b64.encode b)).toOption.isSome)
    (store : List (Webstore Sig) → Except String Reply) (extract : String → Bytes → List String)
    (outcome : ℕ → String → LinkOutcome Sig) (webmain : Webstore Sig) (bytePage : Bytes)
    (hpage : b64.decode webmain.Page = .ok bytePage) {i : ℕ}
    (hi : i < (extract webmain.Url bytePage).length)
    (hfail : (outcome i (extract webmain.Url bytePage)[i]).signature = none)
    (hprev : ∀ j (hj : j < i), ∃ ru ct mts sig,
      outcome j (extract webmain.Url bytePage)[j] = .finished ru ct mts (some sig) ∧
        ∃ bd, b64.decode (b64.encode mts) = .ok bd ∧ verify bd sig = none) :
    saveWebpageAdds b64 verify store extract outcome webmain = .panic := by
  rw [saveWebpageAdds, hpage]
  dsimp only
  refine skipAddData_dereferences_nil_sig b64 verify hempty hdec store webmain _ (i := i) (by simpa using hi)
    ?_ ?_
  · rw [getElem_runs _ _ hi]
    exact hfail
  · intro j hj
    rw [getElem_runs _ _ (by omega)]
    exact hprev j hj

/-- A page with one additional link whose `CreateProtocol` fails: the save
panics in `SkipAddData`. -/
theorem saveWebpage_panics_on_failed_additional_link_one :
    ((Base64.std.decode "").toOption.isSome ∧ ∀ b, (Base64.std.decode (Base64.std.encode b)).toOption.isSome) ∧
    saveWebpageAdds Base64.std (fun _ (_ : Unit) => none) (fun _ => (.ok () : Except String Unit))
      (fun _ _ => ["img.png"]) (fun _ _ => .createError) Webstore.zero = .panic :=
  ⟨⟨rfl, fun b => by rw [Base64.std_decode_encode]; rfl⟩, saveWebpage_panics_on_failed_additional_link Base64.std
    (fun _ (_ : Unit) => none) rfl (fun b => by rw [Base64.std_decode_encode]; rfl) _ _ _ Webstore.zero [] rfl (i := 0)
    (by decide) rfl (fun j hj => absurd hj (Nat.not_lt_zero j))⟩

/-! ## The signature check as a predicate -/

/-- Whether a webstore's page decodes and its signature verifies on it, as
`SkipAddData` and `Retrieve` check it. -/
def Webstore.verified (d : Webstore Sig) : Bool :=
  match b64.decode d.Page, d.Sig with
  | .ok bd, some sig => (verify bd sig).isNone
  | _, _ => false

theorem Webstore.verified_iff {d : Webstore Sig} :
    d.verified b64 verify = true ↔
      ∃ bd sig, b64.decode d.Page = .ok bd ∧ d.Sig = some sig ∧ verify bd sig = none := by
  unfold Webstore.verified
  split
  · rename_i bd sig hbd hsig
    simp [hbd, hsig, Option.isNone_iff_eq_none]
  · rename_i hne
    simp only [Bool.false_eq_true, false_iff, not_exists, not_and]
    intro bd sig hbd hsig _
    exact hne bd sig hbd hsig

/-- The check of `SkipAddData` passes exactly when every entry verifies; it
never fails in any other way than with an error or a panic. -/
theorem skipVerify_eq_ok_none {ds : List (Webstore Sig)} :
    skipVerify b64 verify ds = .ok none ↔ ∀ d ∈ ds, d.verified b64 verify = true := by
  induction ds with
  | nil => simp [skipVerify]
  | cons d ds ih =>
      rw [List.forall_mem_cons, ← ih, Webstore.verified_iff]
      simp only [skipVerify]
      split
      · rename_i e hdec
        simp [hdec]
      · rename_i bd hdec
        split
        · rename_i hsig
          simp [hsig]
        · rename_i sig hsig
          split
          · rename_i e hv
            simp [hdec, hsig, hv]
          · rename_i hv
            simp [hdec, hsig, hv]

theorem Webstore.isSome_sig_of_verified {d : Webstore Sig} (h : d.verified b64 verify = true) : d.Sig.isSome := by
  obtain ⟨_, sig, _, hsig, _⟩ := (Webstore.verified_iff b64 verify).mp h
  simp [hsig]

/-! ## A save that stores its slice -/

/-- The additional links of the page and the outcome of each one's run, as
`SaveWebpage` pairs them. -/
def linkRuns (extract : String → Bytes → List String) (outcome : ℕ → String → LinkOutcome Sig)
    (webmain : Webstore Sig) (bytePage : Bytes) : List (String × LinkOutcome Sig) :=
  (extract webmain.Url bytePage).zipIdx.map fun (al, i) => (al, outcome i al)

/-- `SkipAddData` stores exactly when every entry verifies, and then it
stores the whole slice. -/
theorem skipAddData_eq_ok {store : List (Webstore Sig) → Except String Reply} {data : List (Webstore Sig)}
    {r : Reply} :
    skipAddData b64 verify store data = .ok (.ok r) ↔
      (∀ d ∈ data, d.verified b64 verify = true) ∧ store data = .ok r := by
  rw [skipAddData, ← skipVerify_eq_ok_none]
  cases skipVerify b64 verify data with
  | ok e =>
      cases e with
      | none => simp
      | some e => simp
  | panic => simp
  | block => simp

/-- A save that stored: the main page decodes, and `SkipAddData` stored the
slice of the links' entries and the main page. -/
theorem saveWebpageAdds_eq_ok {store : List (Webstore Sig) → Except String Reply}
    {extract : String → Bytes → List String} {outcome : ℕ → String → LinkOutcome Sig} {webmain : Webstore Sig}
    {r : Reply} :
    saveWebpageAdds b64 verify store extract outcome webmain = .ok (.ok r) ↔
      ∃ bytePage, b64.decode webmain.Page = .ok bytePage ∧
        skipAddData b64 verify store (webadds b64 webmain (linkRuns extract outcome webmain bytePage)) = .ok (.ok r) := by
  rw [saveWebpageAdds]
  split
  · rename_i e hdec
    simp [hdec]
  · rename_i bytePage hdec
    simp [hdec, linkRuns]

/-- The main page's entry of the slice: `webmain` with `AddsUrl[i]` set to
the link of each run that finished, `""` for the others. -/
def mainEntry (webmain : Webstore Sig) (runs : List (String × LinkOutcome Sig)) : Webstore Sig :=
  { webmain with AddsUrl := runs.map fun r => if r.2.IsFinished then r.1 else "" }

theorem webadds_eq (webmain : Webstore Sig) (runs : List (String × LinkOutcome Sig)) :
    webadds b64 webmain runs = runs.map (fun r => addWebstore b64 webmain.Timestamp r.2) ++ [mainEntry webmain runs] :=
  rfl

theorem mainEntry_mem_webadds (webmain : Webstore Sig) (runs : List (String × LinkOutcome Sig)) :
    mainEntry webmain runs ∈ webadds b64 webmain runs := by
  simp [webadds_eq]

/-- Every entry of the slice that has a signature carries the main page's
timestamp: a finished run copies it, and the other runs leave a zero entry,
which has no signature. -/
theorem timestamp_of_mem_webadds {webmain w : Webstore Sig} {runs : List (String × LinkOutcome Sig)}
    (hw : w ∈ webadds b64 webmain runs) (hsig : w.Sig.isSome) : w.Timestamp = webmain.Timestamp := by
  rcases List.mem_append.mp hw with hw | hw
  · obtain ⟨r, -, rfl⟩ := List.mem_map.mp hw
    cases hr : r.2 with
    | finished ru ct mts as => simp [addWebstore]
    | _ => simp [hr, addWebstore, Webstore.zero] at hsig
  · rw [List.mem_singleton.mp hw]

/-- Every entry verifies only if every run finished: a run that did not
leaves a zero entry, which has no signature. -/
theorem isFinished_of_verified {webmain : Webstore Sig} {runs : List (String × LinkOutcome Sig)}
    (hver : ∀ w ∈ webadds b64 webmain runs, w.verified b64 verify = true) : ∀ r ∈ runs, r.2.IsFinished := by
  intro r hr
  have hsig := Webstore.isSome_sig_of_verified b64 verify
    (hver _ (List.mem_append_left _ (List.mem_map_of_mem (f := fun r => addWebstore b64 webmain.Timestamp r.2) hr)))
  cases h : r.2 with
  | finished ru ct mts as => trivial
  | _ => simp [h, addWebstore, Webstore.zero] at hsig

theorem map_fst_linkRuns (extract : String → Bytes → List String) (outcome : ℕ → String → LinkOutcome Sig)
    (webmain : Webstore Sig) (bytePage : Bytes) :
    (linkRuns extract outcome webmain bytePage).map Prod.fst = extract webmain.Url bytePage := by
  rw [linkRuns, List.map_map]
  exact List.zipIdx_map_fst 0 _

/-- With every run finished, an entry of the slice lists only links of the
runs: a link's entry lists none, and the main entry lists them all. -/
theorem addsUrl_of_mem_webadds {webmain w : Webstore Sig} {runs : List (String × LinkOutcome Sig)}
    (hw : w ∈ webadds b64 webmain runs) (hfin : ∀ r ∈ runs, r.2.IsFinished) :
    ∀ u ∈ w.AddsUrl, u ∈ runs.map Prod.fst := by
  rw [webadds_eq] at hw
  rcases List.mem_append.mp hw with hw | hw
  · obtain ⟨r, -, rfl⟩ := List.mem_map.mp hw
    cases r.2 <;> simp [addWebstore, Webstore.zero]
  · rw [List.mem_singleton.mp hw]
    intro u hu
    obtain ⟨r, hr, rfl⟩ := List.mem_map.mp hu
    simp only [if_pos (hfin r hr)]
    exact List.mem_map_of_mem hr

end Decenarch
