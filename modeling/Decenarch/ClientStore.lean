import Decenarch.SaveWebpage
import Decenarch.Lib.GoPath
import Decenarch.Lib.GoURL

/-!
# Storing a retrieved page on the client (`decenarch/decenarch.go`)

`cmdRetrieve` writes the main page and its additional resources below
`cachePath`, at the path that `getFolderAndFilePath` infers from each URL:
the host's labels in reverse order, then the URL's path.  Before it stores
the main page, `changeImgSrc` points the `src` of every image at the file
where the image will be stored; the conode archived that image under the URL
that `ExtractPageExternalLinks` derived from the `src`.  The Go strings of
this part are lists of characters.

A `..` in a URL's path is joined verbatim, so a path with enough of them
leaves `cachePath` (`cmdRetrieve_writes_outside_cachePath`); without one,
every file stays below it (`cmdRetrieve_writes_isWithin`).  The client forms
an image's URL by appending the `src` to the page's URL, where the conode
resolves it as a reference, so a document-relative `src` is looked for in a
directory named after the page
(`changeNodeImgSrc_differs_from_archived_path`).
-/

namespace Decenarch

/-- `cachePath`. -/
def cachePath : List Char := "/tmp/cocache".toList

/-- The loop of `getFolderAndFilePath` over the host's labels,
`urlDir = dom + "/" + urlDir`. -/
def hostDir (host : List Char) : List Char :=
  (host.splitOn '.').foldl (fun urlDir dom => dom ++ '/' :: urlDir) []

/-- `getFolderAndFilePath(url)`: the folder `cachePath/<reversed host>/<dir>`
and the file in it, `index.html` for a path that ends in `/`. -/
def getFolderAndFilePath (url : List Char) : Except String (List Char × List Char) :=
  (GoURL.parse url).map fun u =>
    let locFile := if (GoPath.split u.Path).2 = [] then "index.html".toList else (GoPath.split u.Path).2
    let folderPath := GoPath.join [cachePath, hostDir u.Host, (GoPath.split u.Path).1]
    (folderPath, GoPath.join [folderPath, locFile])

/-- What `storeWebPageOnDisk` does to the disk: `MkdirAll(folder)`, then
`Create(file)` and its `Write(data)`. -/
structure DiskWrite where
  folder : List Char
  file : List Char
  data : Bytes
  deriving DecidableEq, Repr

/-- `storeWebPageOnDisk(mUrl, bData)`: nothing is written, and no error
returned, when the URL does not parse. -/
def storeWebPageOnDisk (mUrl : List Char) (bData : Bytes) : Option DiskWrite :=
  match getFolderAndFilePath mUrl with
  | .error _ => none
  | .ok (folderPath, filePath) => some ⟨folderPath, filePath, bData⟩

/-! ## Pointing the images at the stored files -/

/-- An `html.Node` as `changeNodeImgSrc` reads it: whether it is an element
node, its `Data`, its attributes as key-value pairs, and its children. -/
inductive DomNode where
  | mk (isElement : Bool) (Data : List Char) (Attr : List (List Char × List Char)) (children : List DomNode)

/-- The new `src` of an image: a value containing `http` is taken as a URL
of its own, any other is appended to the page's URL after a `/`. -/
def newImgSrc (url val : List Char) : Except String (List Char) :=
  if "http".toList <:+: val then (getFolderAndFilePath val).map Prod.snd
  else (getFolderAndFilePath (url ++ '/' :: val)).map Prod.snd

/-- The loop over an image's attributes: the first `src` gets its new
value, and the loop breaks. -/
def changeSrcAttr (url : List Char) : List (List Char × List Char) → Except String (List (List Char × List Char))
  | [] => .ok []
  | (key, val) :: rest =>
      if key = "src".toList then (newImgSrc url val).map fun newSrc => (key, newSrc) :: rest
      else (changeSrcAttr url rest).map ((key, val) :: ·)

mutual

/-- `changeNodeImgSrc(n, url)`: the node after the call, and the error it
returns.  An image whose `src` fails returns the error before its children
are visited; the errors of the children are dropped. -/
def changeNodeImgSrc (url : List Char) : DomNode → DomNode × Option String
  | .mk isElement d attrs cs =>
      if isElement ∧ d = "img".toList then
        match changeSrcAttr url attrs with
        | .error e => (.mk isElement d attrs cs, some e)
        | .ok attrs' => (.mk isElement d attrs' (changeChildren url cs), none)
      else (.mk isElement d attrs (changeChildren url cs), none)

/-- The recursive calls on the children, whose errors are dropped. -/
def changeChildren (url : List Char) : List DomNode → List DomNode
  | [] => []
  | c :: cs => (changeNodeImgSrc url c).1 :: changeChildren url cs

end

/-- `changeImgSrc(bData, url)`, with `html.Parse` and `html.Render` as
parameters. -/
def changeImgSrc (parseHtml : Bytes → Except String DomNode) (render : DomNode → Bytes) (bData : Bytes)
    (url : List Char) : Except String Bytes :=
  parseHtml bData >>= fun doc =>
    match changeNodeImgSrc url doc with
    | (_, some e) => .error e
    | (doc', none) => .ok (render doc')

/-! ## The links that the conode archived -/

/-- The second loop of `ExtractPageExternalLinks(pageUrl, page)`, on the
`href` and `src` values `links` that its tokenizer loop found: an absolute
link as it is, a relative one resolved against the page's URL and printed. -/
def extractPageExternalLinks (pageUrl : List Char) (links : List (List Char)) : List (List Char) :=
  match GoURL.parse pageUrl with
  | .error _ => []
  | .ok urlStruct =>
      links.filterMap fun link =>
        match GoURL.parse link with
        | .error _ => none
        | .ok urlS =>
            if urlS.IsAbs then some link
            else match urlStruct.parseRef link with
              | .ok reqLink => some reqLink.toString
              | .error _ => none

/-! ## `cmdRetrieve` -/

variable {Sig : Type}

/-- The disk writes of `cmdRetrieve` once `Retrieve` returned the main page
and its additional pages: the main page with its images pointed at the
stored files, then every additional page that decodes. -/
def cmdRetrieve (b64 : Base64) (parseHtml : Bytes → Except String DomNode) (render : DomNode → Bytes)
    (main : Webstore Sig) (adds : List (Webstore Sig)) : Except String (List DiskWrite) :=
  b64.decode main.Page >>= fun bPage =>
    changeImgSrc parseHtml render bPage main.Url.toList >>= fun mbPage =>
      .ok ((storeWebPageOnDisk main.Url.toList mbPage).toList ++
        adds.filterMap fun add =>
          match b64.decode add.Page with
          | .ok abPage => storeWebPageOnDisk add.Url.toList abPage
          | .error _ => none)

/-! ## Where the files go -/

section Paths

open GoPath

theorem cachePath_eq : cachePath = '/' :: joinParts ["tmp".toList, "cocache".toList] := by decide

/-- The host's labels, last first, each followed by `/`. -/
theorem parts_foldl_hostDir {ls : List (List Char)} (h : ∀ l ∈ ls, '/' ∉ l) (acc : List Char) :
    parts (ls.foldl (fun urlDir dom => dom ++ '/' :: urlDir) acc) = ls.reverse ++ parts acc := by
  induction ls generalizing acc with
  | nil => rfl
  | cons l ls ih =>
      rw [List.foldl_cons, ih (fun l' hl' => h l' (List.mem_cons_of_mem l hl')), parts_append_slash,
        parts_of_slash_notMem (h l List.mem_cons_self)]
      simp

theorem parts_hostDir {host : List Char} (h : '/' ∉ host) :
    parts (hostDir host) = (host.splitOn '.').reverse ++ [[]] :=
  parts_foldl_hostDir (fun _ hl hslash => h (mem_of_mem_splitOn hl hslash)) []

/-- A label holds no `.`, so none is `..`. -/
theorem dotdot_notMem_parts_hostDir {host : List Char} (h : '/' ∉ host) : dotdot ∉ parts (hostDir host) := by
  rw [parts_hostDir h]
  simp only [List.mem_append, List.mem_reverse, List.mem_singleton, not_or]
  exact ⟨fun hdd => notMem_of_mem_splitOn hdd (by decide : '.' ∈ dotdot), by decide⟩

/-- `getFolderAndFilePath`'s `locFile`: the file part of the path, or
`index.html`. -/
theorem dotdot_notMem_parts_locFile {path : List Char} (hdd : dotdot ∉ parts path) :
    dotdot ∉ parts (if (split path).2 = [] then "index.html".toList else (split path).2) := by
  split_ifs
  · decide
  · rw [parts_of_slash_notMem (slash_notMem_split_snd path), List.mem_singleton]
    exact fun h => hdd (h ▸ split_snd_mem_parts path)

/-- The folder and the file of a URL whose path holds no `..` element: the
directories of `cachePath` followed by normal elements. -/
theorem getFolderAndFilePath_eq_below {url : List Char} {u : GoURL.URL} (hu : GoURL.parse url = .ok u)
    (hdd : dotdot ∉ parts u.Path) :
    ∃ N N' : List Part, getFolderAndFilePath url =
      .ok ('/' :: joinParts (["tmp".toList, "cocache".toList] ++ N),
        '/' :: joinParts (["tmp".toList, "cocache".toList] ++ N ++ N')) := by
  have hhost : '/' ∉ u.Host := GoURL.slash_notMem_host_parse hu
  have hdir : dotdot ∉ parts (joinParts [hostDir u.Host, (split u.Path).1]) := by
    rw [joinParts_cons (List.cons_ne_nil _ []), joinParts_singleton, parts_append_slash]
    simp only [List.mem_append, not_or]
    refine ⟨dotdot_notMem_parts_hostDir hhost, fun h => ?_⟩
    rcases mem_parts_of_mem_parts_split_fst h with h | h
    · exact absurd h (by decide)
    · exact hdd h
  have hD : ∀ p ∈ ["tmp".toList, "cocache".toList], Normal p := by decide
  have hDsl : ∀ p ∈ ["tmp".toList, "cocache".toList], '/' ∉ p := by decide
  -- the folder is again a rooted directory of normal elements, below which
  -- the file is joined
  have hfolder := join_rooted_of_no_dotdot hD hDsl (List.cons_ne_nil _ _) (List.cons_ne_nil _ _) hdir
  have hfile := join_rooted_of_no_dotdot (normal_of_mem_append_filter hD (joinParts [hostDir u.Host, (split u.Path).1]))
    (slash_notMem_of_mem_append_filter hDsl _) (by simp) (List.cons_ne_nil _ [])
    (by rw [joinParts_singleton]; exact dotdot_notMem_parts_locFile hdd)
  rw [getFolderAndFilePath, hu, cachePath_eq]
  dsimp only [Except.map]
  rw [hfolder, hfile]
  exact ⟨_, _, rfl⟩

/-- **The sound half.**  A URL whose path holds no `..` element gets a
folder and a file within `cachePath`. -/
theorem getFolderAndFilePath_isWithin {url : List Char} {u : GoURL.URL} (hu : GoURL.parse url = .ok u)
    (hdd : dotdot ∉ parts u.Path) :
    ∃ folderPath filePath, getFolderAndFilePath url = .ok (folderPath, filePath) ∧
      IsWithin cachePath folderPath ∧ IsWithin cachePath filePath := by
  obtain ⟨N, N', h⟩ := getFolderAndFilePath_eq_below hu hdd
  refine ⟨_, _, h, ?_, ?_⟩
  · rw [cachePath_eq]
    exact isWithin_joinParts_append (List.cons_ne_nil _ _)
  · rw [cachePath_eq, List.append_assoc]
    exact isWithin_joinParts_append (List.cons_ne_nil _ _)

end Paths

/-! ## The writes of a retrieval -/

section Retrieve

variable {b64 : Base64} {parseHtml : Bytes → Except String DomNode} {render : DomNode → Bytes}
  {main : Webstore Sig} {adds : List (Webstore Sig)} {writes : List DiskWrite}

theorem storeWebPageOnDisk_eq_some {url : List Char} {bData : Bytes} {w : DiskWrite} :
    storeWebPageOnDisk url bData = some w ↔ getFolderAndFilePath url = .ok (w.folder, w.file) ∧ w.data = bData := by
  rw [storeWebPageOnDisk]
  cases getFolderAndFilePath url with
  | error e => simp
  | ok fp =>
      obtain ⟨folderPath, filePath⟩ := fp
      cases w
      simp [eq_comm, and_assoc]

/-- A retrieval that returns writes the main page, then the additional pages
that decode. -/
theorem cmdRetrieve_eq_ok (hrun : cmdRetrieve b64 parseHtml render main adds = .ok writes) :
    ∃ mbPage, writes = (storeWebPageOnDisk main.Url.toList mbPage).toList ++
      adds.filterMap fun add =>
        match b64.decode add.Page with
        | .ok abPage => storeWebPageOnDisk add.Url.toList abPage
        | .error _ => none := by
  rw [cmdRetrieve] at hrun
  cases hdec : b64.decode main.Page with
  | error e =>
      rw [hdec] at hrun
      cases hrun
  | ok bPage =>
      rw [hdec] at hrun
      dsimp only [bind, Except.bind] at hrun
      cases hch : changeImgSrc parseHtml render bPage main.Url.toList with
      | error e =>
          rw [hch] at hrun
          cases hrun
      | ok mbPage =>
          rw [hch] at hrun
          exact ⟨mbPage, (Except.ok.inj hrun).symm⟩

/-- Every write stores one of the retrieved pages at its URL's path. -/
theorem mem_cmdRetrieve (hrun : cmdRetrieve b64 parseHtml render main adds = .ok writes) {w : DiskWrite}
    (hw : w ∈ writes) : ∃ page ∈ main :: adds, ∃ bData, storeWebPageOnDisk page.Url.toList bData = some w := by
  obtain ⟨mbPage, rfl⟩ := cmdRetrieve_eq_ok hrun
  rcases List.mem_append.mp hw with hw | hw
  · exact ⟨main, List.mem_cons_self, mbPage, Option.mem_toList.mp hw⟩
  · obtain ⟨add, hadd, hstore⟩ := List.mem_filterMap.mp hw
    cases hdec : b64.decode add.Page with
    | error e => simp [hdec] at hstore
    | ok abPage =>
        rw [hdec] at hstore
        exact ⟨add, List.mem_cons_of_mem main hadd, abPage, hstore⟩

/-- Every additional page that decodes is written. -/
theorem mem_cmdRetrieve_of_add (hrun : cmdRetrieve b64 parseHtml render main adds = .ok writes)
    {add : Webstore Sig} (hadd : add ∈ adds) {abPage : Bytes} (hdec : b64.decode add.Page = .ok abPage)
    {w : DiskWrite} (hstore : storeWebPageOnDisk add.Url.toList abPage = some w) : w ∈ writes := by
  obtain ⟨mbPage, rfl⟩ := cmdRetrieve_eq_ok hrun
  refine List.mem_append_right _ (List.mem_filterMap.mpr ⟨add, hadd, ?_⟩)
  rw [hdec]
  exact hstore

/-- **No `..`, no escape.**  When the path of no retrieved URL holds a `..`
element, every folder and file that `cmdRetrieve` writes lies within
`cachePath`. -/
theorem cmdRetrieve_writes_isWithin (hrun : cmdRetrieve b64 parseHtml render main adds = .ok writes)
    (hdd : ∀ page ∈ main :: adds, ∀ u, GoURL.parse page.Url.toList = .ok u → GoPath.dotdot ∉ GoPath.parts u.Path)
    {w : DiskWrite} (hw : w ∈ writes) : GoPath.IsWithin cachePath w.folder ∧ GoPath.IsWithin cachePath w.file := by
  obtain ⟨page, hpage, bData, hstore⟩ := mem_cmdRetrieve hrun hw
  have hpath := (storeWebPageOnDisk_eq_some.mp hstore).1
  obtain ⟨u, hu, -⟩ := GoURL.map_eq_ok.mp hpath
  obtain ⟨folderPath, filePath, hfp, hfolder, hfile⟩ := getFolderAndFilePath_isWithin hu (hdd page hpage u hu)
  rw [hpath] at hfp
  obtain ⟨rfl, rfl⟩ := Prod.mk.inj (Except.ok.inj hfp)
  exact ⟨hfolder, hfile⟩

/-- **A `..` escapes.**  An additional page at
`http://a.com/../../../../etc/x`, as `ExtractPageExternalLinks` keeps an
absolute link that a page names, is written to `/etc/x`. -/
theorem cmdRetrieve_writes_outside_cachePath (hrun : cmdRetrieve b64 parseHtml render main adds = .ok writes)
    {add : Webstore Sig} (hadd : add ∈ adds) (hurl : add.Url = "http://a.com/../../../../etc/x")
    {abPage : Bytes} (hdec : b64.decode add.Page = .ok abPage) :
    ⟨"/etc".toList, "/etc/x".toList, abPage⟩ ∈ writes ∧
      ¬ GoPath.IsWithin cachePath "/etc".toList ∧ ¬ GoPath.IsWithin cachePath "/etc/x".toList := by
  have hpath : getFolderAndFilePath add.Url.toList = .ok ("/etc".toList, "/etc/x".toList) := by
    rw [hurl]
    decide
  exact ⟨mem_cmdRetrieve_of_add hrun hadd hdec (storeWebPageOnDisk_eq_some.mpr ⟨hpath, rfl⟩),
    by decide, by decide⟩

theorem cmdRetrieve_writes_etc_x :
    (⟨"/etc".toList, "/etc/x".toList, []⟩ : DiskWrite) ∈
        [⟨"/tmp/cocache/com/a".toList, "/tmp/cocache/com/a/index.html".toList, []⟩,
          ⟨"/etc".toList, "/etc/x".toList, []⟩] ∧
      ¬ GoPath.IsWithin cachePath "/etc".toList ∧ ¬ GoPath.IsWithin cachePath "/etc/x".toList :=
  cmdRetrieve_writes_outside_cachePath
    (show cmdRetrieve ⟨fun _ => "", fun _ => .ok []⟩ (fun _ => .ok (.mk false [] [] [])) (fun _ => [])
        (⟨"http://a.com/", "text/html", none, "", [], ""⟩ : Webstore Unit)
        [⟨"http://a.com/../../../../etc/x", "image/png", none, "", [], ""⟩] =
      .ok [⟨"/tmp/cocache/com/a".toList, "/tmp/cocache/com/a/index.html".toList, []⟩,
        ⟨"/etc".toList, "/etc/x".toList, []⟩] from rfl)
    (List.mem_singleton_self _) rfl rfl

end Retrieve

/-! ## The image sources against the archived resources -/

section Images

/-- The loop of `changeNodeImgSrc` stops at the first `src`. -/
theorem changeSrcAttr_of_first_src (url : List Char) {pre : List (List Char × List Char)}
    (hpre : ∀ kv ∈ pre, kv.1 ≠ "src".toList) (val : List Char) (post : List (List Char × List Char)) :
    changeSrcAttr url (pre ++ ("src".toList, val) :: post) =
      (newImgSrc url val).map fun newSrc => pre ++ ("src".toList, newSrc) :: post := by
  induction pre with
  | nil =>
      rw [List.nil_append, changeSrcAttr, if_pos rfl]
      rfl
  | cons kv pre ih =>
      obtain ⟨key, v⟩ := kv
      rw [List.cons_append, changeSrcAttr, if_neg (hpre _ List.mem_cons_self),
        ih fun kv hkv => hpre kv (List.mem_cons_of_mem _ hkv)]
      cases newImgSrc url val <;> rfl

theorem changeNodeImgSrc_img (url : List Char) {attrs attrs' : List (List Char × List Char)}
    (h : changeSrcAttr url attrs = .ok attrs') (cs : List DomNode) :
    changeNodeImgSrc url (.mk true "img".toList attrs cs) =
      (.mk true "img".toList attrs' (changeChildren url cs), none) := by
  rw [changeNodeImgSrc, if_pos ⟨rfl, rfl⟩, h]

/-- **The paths differ for a document-relative `src`.**  On the page
`http://a.com/dir/page.html`, the conode resolves the `src` `img.png` to
`http://a.com/dir/img.png` and the client stores it at
`/tmp/cocache/com/a/dir/img.png`; `changeNodeImgSrc` appends the `src` to
the page's URL and points the image at
`/tmp/cocache/com/a/dir/page.html/img.png`. -/
theorem changeNodeImgSrc_differs_from_archived_path {pre : List (List Char × List Char)}
    (hpre : ∀ kv ∈ pre, kv.1 ≠ "src".toList) (post : List (List Char × List Char)) (cs : List DomNode)
    (bData : Bytes) :
    extractPageExternalLinks "http://a.com/dir/page.html".toList ["img.png".toList] =
        ["http://a.com/dir/img.png".toList] ∧
      storeWebPageOnDisk "http://a.com/dir/img.png".toList bData =
        some ⟨"/tmp/cocache/com/a/dir".toList, "/tmp/cocache/com/a/dir/img.png".toList, bData⟩ ∧
      changeNodeImgSrc "http://a.com/dir/page.html".toList
          (.mk true "img".toList (pre ++ ("src".toList, "img.png".toList) :: post) cs) =
        (.mk true "img".toList (pre ++ ("src".toList, "/tmp/cocache/com/a/dir/page.html/img.png".toList) :: post)
          (changeChildren "http://a.com/dir/page.html".toList cs), none) := by
  have hsrc : newImgSrc "http://a.com/dir/page.html".toList "img.png".toList =
      .ok "/tmp/cocache/com/a/dir/page.html/img.png".toList := by decide
  refine ⟨by decide, storeWebPageOnDisk_eq_some.mpr ⟨by dsimp only; decide, rfl⟩, ?_⟩
  rw [changeNodeImgSrc_img _ (by rw [changeSrcAttr_of_first_src _ hpre, hsrc]; rfl)]

theorem changeNodeImgSrc_differs_on_page_html :
    (extractPageExternalLinks "http://a.com/dir/page.html".toList ["img.png".toList] =
        ["http://a.com/dir/img.png".toList] ∧
      storeWebPageOnDisk "http://a.com/dir/img.png".toList [] =
        some ⟨"/tmp/cocache/com/a/dir".toList, "/tmp/cocache/com/a/dir/img.png".toList, []⟩ ∧
      changeNodeImgSrc "http://a.com/dir/page.html".toList
          (.mk true "img".toList ([] ++ ("src".toList, "img.png".toList) :: []) []) =
        (.mk true "img".toList ([] ++ ("src".toList, "/tmp/cocache/com/a/dir/page.html/img.png".toList) :: [])
          (changeChildren "http://a.com/dir/page.html".toList []), none)) :=
  changeNodeImgSrc_differs_from_archived_path (fun _ h => absurd h List.not_mem_nil) [] [] []

end Images

end Decenarch
