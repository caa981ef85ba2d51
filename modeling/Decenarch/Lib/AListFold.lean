import Mathlib.Data.List.AList

/-!
# Maps built by a sequence of insertions

A loop that writes `m[key i] = val i` for each `i` of a list, in order, builds
`insertList key val is m`.  A key that no element writes keeps its value in
`m`; with distinct keys the last write of each key is its only one, so the
map holds `val i` at `key i`; and writing fresh distinct keys adds exactly
their values to those of `m`, in some order.
-/

namespace AList

variable {α ι β : Type*} [DecidableEq α]

/-- The map after writing `val i` at `key i` for each `i` of `is` in turn. -/
def insertList (key : ι → α) (val : ι → β) (is : List ι) (m : AList fun _ : α => β) :
    AList fun _ : α => β :=
  is.foldl (fun m i => m.insert (key i) (val i)) m

variable (key : ι → α) (val : ι → β)

@[simp] theorem insertList_nil (m : AList fun _ : α => β) : insertList key val [] m = m := rfl

@[simp] theorem insertList_cons (i : ι) (is : List ι) (m : AList fun _ : α => β) :
    insertList key val (i :: is) m = insertList key val is (m.insert (key i) (val i)) := rfl

theorem insertList_append (is js : List ι) (m : AList fun _ : α => β) :
    insertList key val (is ++ js) m = insertList key val js (insertList key val is m) :=
  List.foldl_append ..

/-- A key that no element writes keeps its value. -/
theorem lookup_insertList_of_forall_ne {k : α} :
    ∀ {is : List ι} (m : AList fun _ : α => β), (∀ i ∈ is, key i ≠ k) →
      (insertList key val is m).lookup k = m.lookup k
  | [], _, _ => rfl
  | i :: is, m, h => by
      rw [insertList_cons, lookup_insertList_of_forall_ne _ fun j hj => h j (by simp [hj]),
        lookup_insert_ne (h i (by simp)).symm]

/-- With distinct keys, each element's value is at its key. -/
theorem lookup_insertList_of_mem :
    ∀ {is : List ι} (m : AList fun _ : α => β), (is.map key).Nodup → ∀ {i}, i ∈ is →
      (insertList key val is m).lookup (key i) = some (val i)
  | [], _, _, _, hi => absurd hi (by simp)
  | j :: is, m, hnodup, i, hi => by
      rw [List.map_cons, List.nodup_cons] at hnodup
      rw [insertList_cons]
      rcases List.mem_cons.mp hi with rfl | hi
      · rw [lookup_insertList_of_forall_ne key val (k := key i) _ fun j hj hkey =>
          hnodup.1 (hkey ▸ List.mem_map_of_mem hj), lookup_insert]
      · exact lookup_insertList_of_mem _ hnodup.2 hi

/-- A value found after the writes was written by one of them or was in
`m`. -/
theorem lookup_insertList_eq_some {k : α} {v : β} :
    ∀ {is : List ι} {m : AList fun _ : α => β}, (insertList key val is m).lookup k = some v →
      (∃ i ∈ is, key i = k ∧ val i = v) ∨ m.lookup k = some v
  | [], _, h => Or.inr h
  | i :: is, m, h => by
      rw [insertList_cons] at h
      rcases lookup_insertList_eq_some h with ⟨j, hj, hkey, hval⟩ | h
      · exact Or.inl ⟨j, by simp [hj], hkey, hval⟩
      · by_cases hk : k = key i
        · subst hk
          rw [lookup_insert, Option.some_inj] at h
          exact Or.inl ⟨i, by simp, rfl, h⟩
        · rw [lookup_insert_ne hk] at h
          exact Or.inr h

/-- Writing fresh distinct keys adds their values to those of `m`. -/
theorem values_insertList_perm :
    ∀ {is : List ι} (m : AList fun _ : α => β), (is.map key).Nodup → (∀ i ∈ is, key i ∉ m) →
      ((insertList key val is m).entries.map Sigma.snd).Perm (m.entries.map Sigma.snd ++ is.map val)
  | [], m, _, _ => by simp
  | i :: is, m, hnodup, hfresh => by
      rw [List.map_cons, List.nodup_cons] at hnodup
      have hfresh' : ∀ j ∈ is, key j ∉ m.insert (key i) (val i) := by
        intro j hj hmem
        rcases (mem_insert _).mp hmem with heq | hmem
        · exact hnodup.1 (heq ▸ List.mem_map_of_mem hj)
        · exact hfresh j (by simp [hj]) hmem
      rw [insertList_cons]
      refine (values_insertList_perm _ hnodup.2 hfresh').trans ?_
      rw [entries_insert_of_notMem (hfresh i (by simp)), List.map_cons, List.map_cons]
      exact List.perm_middle.symm

/-- Writing fresh distinct keys adds one entry per key. -/
theorem length_entries_insertList {is : List ι} (m : AList fun _ : α => β) (hnodup : (is.map key).Nodup)
    (hfresh : ∀ i ∈ is, key i ∉ m) :
    (insertList key val is m).entries.length = m.entries.length + is.length := by
  have h := (values_insertList_perm key val m hnodup hfresh).length_eq
  simpa only [List.length_map, List.length_append] using h

/-- Writing a fresh key adds one entry. -/
theorem length_entries_insert_of_notMem {s : AList fun _ : α => β} {a : α} {b : β} (h : a ∉ s) :
    (s.insert a b).entries.length = s.entries.length + 1 := by
  rw [entries_insert_of_notMem h, List.length_cons]

/-- Writing a key that the map holds adds no entry. -/
theorem length_entries_insert_of_mem {s : AList fun _ : α => β} {a : α} {b : β} (h : a ∈ s) :
    (s.insert a b).entries.length = s.entries.length := by
  have hkeys : (s.insert a b).keys.length = s.keys.length := by
    rw [keys_insert, List.length_cons, List.length_erase_of_mem (mem_keys.mp h)]
    have := List.length_pos_of_mem (mem_keys.mp h)
    omega
  have hk₁ : (s.insert a b).keys.length = (s.insert a b).entries.length := List.length_map _
  have hk₂ : s.keys.length = s.entries.length := List.length_map _
  omega

/-- Writing a key adds at most one entry. -/
theorem length_entries_insert_le (s : AList fun _ : α => β) (a : α) (b : β) :
    (s.insert a b).entries.length ≤ s.entries.length + 1 := by
  by_cases h : a ∈ s
  · have hkeys : (s.insert a b).keys.length = s.keys.length := by
      rw [keys_insert, List.length_cons, List.length_erase_of_mem (mem_keys.mp h)]
      have := List.length_pos_of_mem (mem_keys.mp h)
      omega
    have hk₁ : (s.insert a b).keys.length = (s.insert a b).entries.length := List.length_map _
    have hk₂ : s.keys.length = s.entries.length := List.length_map _
    omega
  · rw [length_entries_insert_of_notMem h]

/-- A value of a map is at one of its keys. -/
theorem exists_lookup_of_mem_values {m : AList fun _ : α => β} {v : β}
    (h : v ∈ m.entries.map Sigma.snd) : ∃ k, m.lookup k = some v := by
  obtain ⟨⟨k, v'⟩, hmem, rfl⟩ := List.mem_map.mp h
  exact ⟨k, mem_lookup_iff.mpr hmem⟩

end AList
