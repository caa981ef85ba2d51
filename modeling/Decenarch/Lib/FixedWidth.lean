import Mathlib.Data.List.Basic

/-!
# Fixed-width encodings of lists

A list is encoded by concatenating a code of the same width `n` for each
element; a decoder reads the `i`-th element back from the `n` symbols after
position `n * i`.  When the element decoder inverts the element encoder, the
whole decoder inverts the whole encoder.
-/

namespace List

variable {α β γ : Type*}

/-- Concatenated codes of width `n` have `n` symbols per element. -/
theorem length_flatMap_of_width (f : α → List β) (n : ℕ) (hf : ∀ a, (f a).length = n) :
    ∀ l : List α, (l.flatMap f).length = n * l.length
  | [] => by simp
  | a :: l => by
      rw [flatMap_cons, length_append, hf a, length_flatMap_of_width f n hf l, length_cons,
        Nat.mul_succ, Nat.add_comm]

/-- The `i`-th block of width `n` of concatenated codes is the code of the
`i`-th element. -/
theorem take_drop_flatMap_of_width (f : α → List β) (n : ℕ) (hf : ∀ a, (f a).length = n) :
    ∀ (l : List α) (i : ℕ) (hi : i < l.length), ((l.flatMap f).drop (n * i)).take n = f l[i]
  | [], _, hi => absurd hi (by simp)
  | a :: l, 0, _ => by
      rw [flatMap_cons, Nat.mul_zero, drop_zero, take_left' (hf a)]
      rfl
  | a :: l, i + 1, hi => by
      have hdrop : ((f a ++ l.flatMap f).drop (n * (i + 1))) = (l.flatMap f).drop (n * i) := by
        rw [Nat.mul_succ, Nat.add_comm, ← drop_drop, drop_left' (hf a)]
      rw [flatMap_cons, hdrop, take_drop_flatMap_of_width f n hf l i (by simpa using hi)]
      rfl

/-- Decoding every block of width `n` with a left inverse of the element
code gives back the list. -/
theorem map_range_decode_flatMap (f : α → List β) (g : List β → α) (n : ℕ)
    (hf : ∀ a, (f a).length = n) (hg : ∀ a, g (f a) = a) (l : List α) :
    (range l.length).map (fun i => g (((l.flatMap f).drop (n * i)).take n)) = l := by
  apply ext_getElem (by simp)
  intro i hi _
  rw [getElem_map, getElem_range, take_drop_flatMap_of_width f n hf l i (by simpa using hi), hg]

end List
