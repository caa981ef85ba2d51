import Mathlib.Data.List.Infix
import Mathlib.Data.List.TakeWhile

/-!
# Go's `path` package

The lexical operations of Go's `path` package on slash-separated paths, with
a Go `string` as the list of its characters.  `Clean` applies its four rules
(drop empty and `.` elements, let `..` remove the element before it, drop a
`..` at the root) as a stack machine over the elements; `Join` cleans the
elements from the first non-empty one joined with `/`; `Split` cuts after
the last `/`.

The results here say when a cleaned path stays below a directory: a path
`dir/q` whose elements hold no `..` cleans to `dir` followed by the normal
elements of `q` (`clean_append_of_no_dotdot`), so it lies within `dir`.
-/

namespace GoPath

/-- An element of a path. -/
abbrev Part := List Char

/-- The element `..`. -/
def dotdot : Part := ['.', '.']

/-- The elements of a path, split at every `/`. -/
def parts (path : List Char) : List Part := path.splitOn '/'

/-- The elements joined with `/`. -/
def joinParts (ps : List Part) : List Char := ['/'].intercalate ps

/-- One element of `Clean`'s scan, with the stack's top at its head: empty
and `.` elements vanish, `..` removes the element before it unless that is
itself a `..`, and at the root of a rooted path it vanishes. -/
def pushPart (rooted : Bool) (st : List Part) (p : Part) : List Part :=
  if p = [] ∨ p = ['.'] then st
  else if p = dotdot then
    match st with
    | [] => if rooted then [] else [dotdot]
    | top :: rest => if top = dotdot then dotdot :: top :: rest else rest
  else p :: st

/-- `path.Clean`. -/
def clean (path : List Char) : List Char :=
  let rooted := path.head? = some '/'
  let st := (parts path).foldl (pushPart rooted) []
  if rooted then '/' :: joinParts st.reverse
  else if st = [] then ['.'] else joinParts st.reverse

/-- `path.Join`: the elements from the first non-empty one, joined with `/`
and cleaned; all empty gives the empty path. -/
def join (elem : List (List Char)) : List Char :=
  match elem.dropWhile List.isEmpty with
  | [] => []
  | es => clean (joinParts es)

/-- `path.Split`: the path up to and including its last `/`, and the rest. -/
def split (path : List Char) : List Char × List Char :=
  ((path.reverse.dropWhile (· ≠ '/')).reverse, (path.reverse.takeWhile (· ≠ '/')).reverse)

/-- `p` is the directory `dir` or a path below it. -/
def IsWithin (dir p : List Char) : Prop := p = dir ∨ dir ++ ['/'] <+: p

instance (dir p : List Char) : Decidable (IsWithin dir p) := by
  unfold IsWithin
  infer_instance

/-- An element that `Clean` keeps as it is. -/
def Normal (p : Part) : Prop := p ≠ [] ∧ p ≠ ['.'] ∧ p ≠ dotdot

instance (p : Part) : Decidable (Normal p) := by
  unfold Normal
  infer_instance

/-! ## Splitting and joining -/

theorem parts_append_slash (a b : List Char) : parts (a ++ '/' :: b) = parts a ++ parts b :=
  List.splitOn_append_cons_self a b

theorem parts_cons_slash (b : List Char) : parts ('/' :: b) = [] :: parts b := by
  rw [show '/' :: b = [] ++ '/' :: b from rfl, parts_append_slash]
  rfl

theorem parts_joinParts {ps : List Part} (h : ∀ p ∈ ps, '/' ∉ p) (hne : ps ≠ []) :
    parts (joinParts ps) = ps :=
  List.splitOn_intercalate '/' h hne

@[simp] theorem joinParts_singleton (p : Part) : joinParts [p] = p := by
  simp [joinParts]

theorem joinParts_cons {ps : List Part} (hps : ps ≠ []) (p : Part) :
    joinParts (p :: ps) = p ++ '/' :: joinParts ps := by
  rw [joinParts, List.intercalate_cons_of_ne_nil hps, List.append_assoc, List.singleton_append]
  rfl

theorem joinParts_append : ∀ {A B : List Part}, A ≠ [] → B ≠ [] →
    joinParts (A ++ B) = joinParts A ++ '/' :: joinParts B
  | [], _, hA, _ => absurd rfl hA
  | [a], B, _, hB => by rw [List.singleton_append, joinParts_cons hB, joinParts_singleton]
  | a :: a' :: A, B, _, hB => by
      rw [List.cons_append, joinParts_cons (by simp : a' :: A ++ B ≠ []),
        joinParts_append (List.cons_ne_nil a' A) hB, joinParts_cons (List.cons_ne_nil a' A),
        List.append_assoc, List.cons_append]

/-- `Split` cuts the path in two. -/
theorem split_append (path : List Char) : (split path).1 ++ (split path).2 = path := by
  rw [split, ← List.reverse_append, List.takeWhile_append_dropWhile, List.reverse_reverse]

/-- The file part of `Split` holds no `/`. -/
theorem slash_notMem_split_snd (path : List Char) : '/' ∉ (split path).2 := by
  intro h
  simpa using List.mem_takeWhile_imp (List.mem_reverse.mp h)

/-- The directory part of `Split` is empty or ends with `/`. -/
theorem split_fst_eq (path : List Char) :
    (split path).1 = [] ∨ ∃ d, (split path).1 = d ++ ['/'] := by
  rw [split]
  cases h : path.reverse.dropWhile (· ≠ '/') with
  | nil => exact Or.inl rfl
  | cons c rest =>
      -- the scan stops at a `/`
      have hc : c = '/' := by
        have hhead := List.head?_dropWhile_not (fun c => decide (c ≠ '/')) path.reverse
        rw [h] at hhead
        simpa using hhead
      exact Or.inr ⟨rest.reverse, by simp [hc]⟩

section SplitOn

variable {α : Type*} [BEq α] [LawfulBEq α] {a : α}

/-- A piece of a split holds no separator. -/
theorem notMem_of_mem_splitOn : ∀ {s l : List α}, l ∈ s.splitOn a → a ∉ l
  | [], l, hl => by
      rw [List.splitOn_nil, List.mem_singleton] at hl
      exact hl ▸ List.not_mem_nil
  | y :: ys, l, hl => by
      rw [List.splitOn_cons_eq_if_modifyHead] at hl
      split_ifs at hl with hy
      · rcases List.mem_cons.mp hl with rfl | hl
        · exact List.not_mem_nil
        · exact notMem_of_mem_splitOn hl
      · -- the first piece gains `y`, which is not the separator
        obtain ⟨p, ps, hsplit⟩ := List.exists_cons_of_ne_nil (List.splitOn_ne_nil a ys)
        rw [hsplit, List.modifyHead_cons] at hl
        have hya : y ≠ a := fun h => hy (by simp [h])
        rcases List.mem_cons.mp hl with rfl | hl
        · rw [List.mem_cons, not_or]
          exact ⟨Ne.symm hya, notMem_of_mem_splitOn (hsplit ▸ List.mem_cons_self)⟩
        · exact notMem_of_mem_splitOn (hsplit ▸ List.mem_cons_of_mem _ hl)

omit [LawfulBEq α] in
/-- A piece of a split is made of elements of the list. -/
theorem mem_of_mem_splitOn : ∀ {s l : List α} {x : α}, l ∈ s.splitOn a → x ∈ l → x ∈ s
  | [], l, x, hl, hx => by
      rw [List.splitOn_nil, List.mem_singleton] at hl
      exact absurd (hl ▸ hx) List.not_mem_nil
  | y :: ys, l, x, hl, hx => by
      rw [List.splitOn_cons_eq_if_modifyHead] at hl
      split_ifs at hl with hy
      · rcases List.mem_cons.mp hl with rfl | hl
        · exact absurd hx List.not_mem_nil
        · exact List.mem_cons_of_mem _ (mem_of_mem_splitOn hl hx)
      · obtain ⟨p, ps, hsplit⟩ := List.exists_cons_of_ne_nil (List.splitOn_ne_nil a ys)
        rw [hsplit, List.modifyHead_cons] at hl
        rcases List.mem_cons.mp hl with rfl | hl
        · rcases List.mem_cons.mp hx with rfl | hx
          · exact List.mem_cons_self
          · exact List.mem_cons_of_mem _ (mem_of_mem_splitOn (hsplit ▸ List.mem_cons_self) hx)
        · exact List.mem_cons_of_mem _ (mem_of_mem_splitOn (hsplit ▸ List.mem_cons_of_mem _ hl) hx)

end SplitOn

theorem slash_notMem_of_mem_parts {path : List Char} {p : Part} (h : p ∈ parts path) : '/' ∉ p :=
  notMem_of_mem_splitOn h

/-- A path with no `/` is one element. -/
theorem parts_of_slash_notMem {p : List Char} (h : '/' ∉ p) : parts p = [p] := by
  rw [parts, List.splitOn, List.splitOnP_eq_singleton]
  intro c hc
  simpa using fun hslash : c = '/' => h (hslash ▸ hc)

/-- The elements of `Split`'s directory part are those of the path, and the
empty element after its final `/`. -/
theorem mem_parts_of_mem_parts_split_fst {path : List Char} {p : Part} (hp : p ∈ parts (split path).1) :
    p = [] ∨ p ∈ parts path := by
  have hpath := split_append path
  rcases split_fst_eq path with hd | ⟨d, hd⟩
  · rw [hd] at hp
    exact Or.inl (List.mem_singleton.mp hp)
  · -- `path = d ++ '/' :: file`, and the directory part is `d ++ '/' :: []`
    rw [hd, List.append_assoc, List.singleton_append] at hpath
    rw [hd, parts_append_slash] at hp
    rcases List.mem_append.mp hp with hp | hp
    · rw [← hpath, parts_append_slash]
      exact Or.inr (List.mem_append_left _ hp)
    · exact Or.inl (List.mem_singleton.mp hp)

/-- The file part of `Split` is the last element of the path. -/
theorem split_snd_mem_parts (path : List Char) : (split path).2 ∈ parts path := by
  have hpath := split_append path
  have hfile := parts_of_slash_notMem (slash_notMem_split_snd path)
  generalize (split path).2 = f at hpath hfile ⊢
  rcases split_fst_eq path with hd | ⟨d, hd⟩
  · rw [hd, List.nil_append] at hpath
    rw [← hpath, hfile]
    exact List.mem_singleton_self f
  · rw [hd, List.append_assoc, List.singleton_append] at hpath
    rw [← hpath, parts_append_slash, hfile]
    exact List.mem_append_right _ (List.mem_singleton_self f)

/-! ## The stack machine of `Clean` -/

/-- Elements other than `..` push exactly the normal ones. -/
theorem foldl_pushPart_of_no_dotdot (rooted : Bool) :
    ∀ (ps : List Part) (st : List Part), dotdot ∉ ps →
      ps.foldl (pushPart rooted) st = (ps.filter fun p => decide (Normal p)).reverse ++ st
  | [], st, _ => rfl
  | p :: ps, st, hdd => by
      have hp : p ≠ dotdot := fun h => hdd (h ▸ List.mem_cons_self)
      have hps : dotdot ∉ ps := fun h => hdd (List.mem_cons_of_mem _ h)
      rw [List.foldl_cons, foldl_pushPart_of_no_dotdot rooted ps _ hps]
      by_cases hskip : p = [] ∨ p = ['.']
      · have hnorm : ¬ Normal p := fun hn => hskip.elim hn.1 hn.2.1
        simp [pushPart, hskip, hnorm]
      · have hnorm : Normal p := ⟨fun h => hskip (Or.inl h), fun h => hskip (Or.inr h), hp⟩
        simp [pushPart, hskip, hp, hnorm]

/-- **Cleaning below a directory.**  Below a rooted directory of normal
elements, a path whose elements hold no `..` cleans to the directory followed
by its normal elements. -/
theorem clean_append_of_no_dotdot {D : List Part} (hD : ∀ p ∈ D, Normal p) (hDsl : ∀ p ∈ D, '/' ∉ p)
    (hDne : D ≠ []) {q : List Char} (hq : dotdot ∉ parts q) :
    clean ('/' :: joinParts D ++ '/' :: q) =
      '/' :: joinParts (D ++ (parts q).filter fun p => decide (Normal p)) := by
  have hparts : parts ('/' :: (joinParts D ++ '/' :: q)) = [] :: (D ++ parts q) := by
    rw [parts_cons_slash, parts_append_slash, parts_joinParts hDsl hDne]
  have hdd : dotdot ∉ [] :: (D ++ parts q) := by
    simp only [List.mem_cons, List.mem_append, not_or]
    exact ⟨by decide, fun h => (hD _ h).2.2 rfl, hq⟩
  have hfilter : D.filter (fun p => decide (Normal p)) = D :=
    List.filter_eq_self.mpr fun p hp => by simpa using hD p hp
  have hempty : ¬ Normal [] := fun h => h.1 rfl
  simp only [clean, List.cons_append, hparts, foldl_pushPart_of_no_dotdot _ _ [] hdd]
  simp [hfilter, hempty]

/-- `Join` of elements that start with a non-empty one cleans them all,
joined. -/
theorem join_cons_of_ne_nil {e : List Char} (he : e ≠ []) (es : List (List Char)) :
    join (e :: es) = clean (joinParts (e :: es)) := by
  obtain ⟨c, e, rfl⟩ := List.exists_cons_of_ne_nil he
  rfl

/-- **Joining below a rooted directory**, `clean_append_of_no_dotdot` for
`Join`. -/
theorem join_rooted_of_no_dotdot {D : List Part} (hD : ∀ p ∈ D, Normal p) (hDsl : ∀ p ∈ D, '/' ∉ p)
    (hDne : D ≠ []) {es : List (List Char)} (hes : es ≠ []) (hq : dotdot ∉ parts (joinParts es)) :
    join (('/' :: joinParts D) :: es) =
      '/' :: joinParts (D ++ (parts (joinParts es)).filter fun p => decide (Normal p)) := by
  rw [join_cons_of_ne_nil (List.cons_ne_nil _ _), joinParts_cons hes]
  exact clean_append_of_no_dotdot hD hDsl hDne hq

/-- The elements that `join_rooted_of_no_dotdot` leaves are normal again. -/
theorem normal_of_mem_append_filter {D : List Part} (hD : ∀ p ∈ D, Normal p) (q : List Char) :
    ∀ p ∈ D ++ (parts q).filter (fun p => decide (Normal p)), Normal p := by
  intro p hp
  rcases List.mem_append.mp hp with hp | hp
  · exact hD p hp
  · simpa using (List.mem_filter.mp hp).2

/-- The elements that `join_rooted_of_no_dotdot` leaves hold no `/`. -/
theorem slash_notMem_of_mem_append_filter {D : List Part} (hDsl : ∀ p ∈ D, '/' ∉ p) (q : List Char) :
    ∀ p ∈ D ++ (parts q).filter (fun p => decide (Normal p)), '/' ∉ p := by
  intro p hp
  rcases List.mem_append.mp hp with hp | hp
  · exact hDsl p hp
  · exact slash_notMem_of_mem_parts (List.mem_filter.mp hp).1

/-- What `clean_append_of_no_dotdot` leaves lies within the directory. -/
theorem isWithin_joinParts_append {D N : List Part} (hDne : D ≠ []) :
    IsWithin ('/' :: joinParts D) ('/' :: joinParts (D ++ N)) := by
  cases N with
  | nil => exact Or.inl (by rw [List.append_nil])
  | cons n N =>
      refine Or.inr ⟨joinParts (n :: N), ?_⟩
      rw [joinParts_append hDne (List.cons_ne_nil n N)]
      simp

end GoPath
