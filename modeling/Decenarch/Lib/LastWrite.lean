import Mathlib.Data.List.Perm.Basic
import Mathlib.Data.Option.Basic

/-!
# Fields written by a sequence of events

A field of a state that each event either overwrites or leaves alone holds,
after a run, the value of the last event that writes it, or its value before
the run when no event does.  The events that write a field are read off a
function `write : ε → Option β`; `lastWrite write evs` is the last write of
the run `evs`, found by searching the run backwards.
-/

namespace LastWrite

variable {σ ε β : Type*}

/-- The value that the last event of `evs` writing the field gives it. -/
def lastWrite (write : ε → Option β) (evs : List ε) : Option β :=
  evs.reverse.findSome? write

variable {write : ε → Option β}

@[simp] theorem lastWrite_nil : lastWrite write [] = none := rfl

theorem lastWrite_append (evs evs' : List ε) :
    lastWrite write (evs ++ evs') = (lastWrite write evs').or (lastWrite write evs) := by
  simp only [lastWrite, List.reverse_append, List.findSome?_append]

theorem lastWrite_cons (e : ε) (evs : List ε) :
    lastWrite write (e :: evs) = (lastWrite write evs).or (write e) := by
  rw [← List.singleton_append, lastWrite_append]
  congr 1
  cases hw : write e <;> simp [lastWrite, hw]

theorem lastWrite_eq_none_iff {evs : List ε} : lastWrite write evs = none ↔ ∀ e ∈ evs, write e = none := by
  simp [lastWrite, List.findSome?_eq_none_iff]

/-- The last write is the write of an event of the run. -/
theorem exists_of_lastWrite_eq_some {evs : List ε} {b : β} (h : lastWrite write evs = some b) :
    ∃ e ∈ evs, write e = some b := by
  obtain ⟨e, he, hw⟩ := List.exists_of_findSome?_eq_some h
  exact ⟨e, List.mem_reverse.mp he, hw⟩

/-- A run whose writes all give `b`, and which writes at least once, leaves
`b`, in whatever order its events come. -/
theorem lastWrite_eq_of_forall {evs : List ε} {b : β} (hall : ∀ e ∈ evs, ∀ b', write e = some b' → b' = b)
    (hex : ∃ e ∈ evs, write e = some b) : lastWrite write evs = some b := by
  cases hl : lastWrite write evs with
  | none =>
      obtain ⟨e, he, hw⟩ := hex
      rw [lastWrite_eq_none_iff.mp hl e he] at hw
      cases hw
  | some b' =>
      obtain ⟨e, he, hw⟩ := exists_of_lastWrite_eq_some hl
      rw [hall e he b' hw]

/-- A field that each event either overwrites with `write e` or leaves alone
holds, after the run `evs`, its last write, or its first value. -/
theorem get_foldl (upd : σ → ε → σ) (get : σ → β) (hupd : ∀ s e, get (upd s e) = (write e).getD (get s)) :
    ∀ (evs : List ε) (s : σ), get (evs.foldl upd s) = (lastWrite write evs).getD (get s)
  | [], _ => rfl
  | e :: evs, s => by
      rw [List.foldl_cons, get_foldl upd get hupd evs, hupd, lastWrite_cons]
      cases lastWrite write evs <;> rfl

end LastWrite
