import Mathlib.Data.List.Perm.Basic
import Mathlib.Data.List.Nodup
import Mathlib.Data.List.Range

/-!
# Chunked parallel loops over a slice

A loop over the positions `0, …, n-1` is often split into goroutines of `w`
positions each:

    for i := 0; i < n; i += w { go func(i int) { for j := 0; j < w && j+i < n; j++ { body(i+j) } }(i) }

`chunks w n` lists the positions of each goroutine, in the order the loop
starts them.  For `0 < w` the goroutines visit every position below `n`
exactly once, whatever `n` (`flatten_chunks_perm`).  A body that writes
position `p` of a slice from position `p` alone commutes with the bodies at
the other positions, so any interleaving of the goroutines leaves the slice
that the sequential loop leaves (`foldl_modify_of_perm`).
-/

namespace ChunkedLoop

/-- The positions that the goroutine started at `i` visits: `i + j` for
`j < w` with `j + i < n`. -/
def chunk (w n i : ℕ) : List ℕ := (List.range (min w (n - i))).map (i + ·)

/-- The values `0, w, 2w, …` below `n` that the loop variable `i` takes. -/
def starts (w n : ℕ) : List ℕ := (List.range n).filter (· % w = 0)

/-- The positions of each goroutine, in the order the loop starts them. -/
def chunks (w n : ℕ) : List (List ℕ) := (starts w n).map (chunk w n)

theorem mem_chunk {w n i p : ℕ} : p ∈ chunk w n i ↔ i ≤ p ∧ p < i + w ∧ p < n := by
  simp only [chunk, List.mem_map, List.mem_range]
  constructor
  · rintro ⟨j, hj, rfl⟩
    omega
  · intro h
    exact ⟨p - i, by omega, by omega⟩

theorem nodup_chunk (w n i : ℕ) : (chunk w n i).Nodup :=
  (List.nodup_range).map fun _ _ h => Nat.add_left_cancel h

theorem mem_starts {w n i : ℕ} : i ∈ starts w n ↔ i < n ∧ i % w = 0 := by
  simp [starts]

/-- Two starting points of the loop are at least `w` apart. -/
theorem add_le_of_mem_starts {w n i i' : ℕ} (hi : i ∈ starts w n) (hi' : i' ∈ starts w n)
    (hlt : i < i') : i + w ≤ i' := by
  obtain ⟨-, hiw⟩ := mem_starts.mp hi
  obtain ⟨-, hiw'⟩ := mem_starts.mp hi'
  obtain ⟨a, rfl⟩ := Nat.dvd_of_mod_eq_zero hiw
  obtain ⟨b, rfl⟩ := Nat.dvd_of_mod_eq_zero hiw'
  have hab : a + 1 ≤ b := Nat.lt_of_mul_lt_mul_left hlt
  calc w * a + w = w * (a + 1) := (Nat.mul_succ w a).symm
    _ ≤ w * b := Nat.mul_le_mul_left w hab

/-- With chunks of positive width, a position below `n` belongs to the
goroutine started at the multiple of `w` just below it. -/
theorem mem_flatten_chunks {w n p : ℕ} (hw : 0 < w) : p ∈ (chunks w n).flatten ↔ p < n := by
  simp only [chunks, List.mem_flatten, List.mem_map]
  constructor
  · rintro ⟨_, ⟨i, _, rfl⟩, hp⟩
    exact (mem_chunk.mp hp).2.2
  · intro hp
    have hdiv := Nat.div_add_mod p w
    have hmod := Nat.mod_lt p hw
    refine ⟨_, ⟨w * (p / w), mem_starts.mpr ⟨by omega, Nat.mul_mod_right w _⟩, rfl⟩, ?_⟩
    exact mem_chunk.mpr ⟨by omega, by omega, hp⟩

theorem nodup_flatten_chunks (w n : ℕ) : (chunks w n).flatten.Nodup := by
  refine List.nodup_flatten.mpr ⟨?_, ?_⟩
  · simp only [chunks, List.mem_map]
    rintro _ ⟨i, _, rfl⟩
    exact nodup_chunk w n i
  · -- the chunks of the starting points `i < i'` lie below and above `i + w`
    refine List.pairwise_map.mpr ?_
    have hsorted : (starts w n).Pairwise (· < ·) := List.pairwise_lt_range.filter _
    refine List.Pairwise.imp_of_mem ?_ hsorted
    intro i i' hi hi' hlt p hp hp'
    have hgap := add_le_of_mem_starts hi hi' hlt
    have h₁ := mem_chunk.mp hp
    have h₂ := mem_chunk.mp hp'
    omega

/-- **Every position once.**  The goroutines of a chunked loop of positive
width visit the positions below `n`, each once. -/
theorem flatten_chunks_perm {w : ℕ} (hw : 0 < w) (n : ℕ) : (chunks w n).flatten.Perm (List.range n) :=
  (List.perm_ext_iff_of_nodup (nodup_flatten_chunks w n) List.nodup_range).mpr fun p => by
    rw [mem_flatten_chunks hw, List.mem_range]

/-! ## Writes of disjoint positions -/

section Writes

variable {α : Type*} (g : ℕ → α → α)

/-- The sequential loop over the positions below `k`. -/
theorem foldl_modify_range (l : List α) :
    ∀ k, (List.range k).foldl (fun acc p => acc.modify p (g p)) l =
      l.mapIdx fun p a => if p < k then g p a else a
  | 0 => by
      apply List.ext_getElem (by simp)
      intro p _ _
      simp
  | k + 1 => by
      rw [List.range_succ, List.foldl_concat, foldl_modify_range l k]
      apply List.ext_getElem (by simp)
      intro p h₁ h₂
      rw [List.getElem_modify, List.getElem_mapIdx, List.getElem_mapIdx]
      by_cases hp : k = p
      · subst hp
        simp
      · by_cases hpk : p < k
        · simp [hp, hpk, show p < k + 1 by omega]
        · simp [hp, hpk, show ¬ p < k + 1 by omega]

/-- **Any interleaving.**  Writes of the positions below `k`, each position
written once from its own entry, in any order: the slice that the sequential
loop leaves. -/
theorem foldl_modify_of_perm (l : List α) {k : ℕ} {order : List ℕ} (h : order.Perm (List.range k)) :
    order.foldl (fun acc p => acc.modify p (g p)) l = l.mapIdx fun p a => if p < k then g p a else a := by
  have hcomm : ∀ x ∈ order, ∀ y ∈ order, ∀ acc : List α,
      (acc.modify x (g x)).modify y (g y) = (acc.modify y (g y)).modify x (g x) := by
    intro x _ y _ acc
    by_cases hxy : x = y
    · rw [hxy]
    · exact List.modify_modify_ne _ _ acc hxy
  rw [h.foldl_eq' hcomm l, foldl_modify_range g l k]

/-- **Filling a fresh slice.**  Writes of `some (f p)` into the slots below
`n` that `make` left empty, in any order, give the slice `l` when `f p` is
its entry `p`. -/
theorem foldl_fill_of_perm {β : Type*} (f : ℕ → β) {n : ℕ} {l : List β} (hl : l.length = n)
    (hf : ∀ p < n, l[p]? = some (f p)) {order : List ℕ} (h : order.Perm (List.range n)) :
    order.foldl (fun slots p => slots.modify p fun _ => some (f p)) (List.replicate n none) = l.map some := by
  rw [foldl_modify_of_perm _ _ h]
  apply List.ext_getElem (by simp [hl])
  intro p h₁ h₂
  have hp : p < n := by simpa using h₁
  have hentry := hf p hp
  rw [List.getElem?_eq_getElem (by omega), Option.some_inj] at hentry
  simp [hp, hentry]

end Writes

end ChunkedLoop
