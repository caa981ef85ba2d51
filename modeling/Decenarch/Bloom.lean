import Decenarch.Html
import Decenarch.Suite
import Decenarch.Lib.Outcome
import Mathlib.Algebra.Order.Group.Int
import Mathlib.Algebra.BigOperators.Group.List.Basic
import Mathlib.Data.List.GetD
import Mathlib.Tactic.Ring
import Mathlib.Tactic.Linarith

/-!
# The counting Bloom filter (`lib/bloom.go`)

A `CBF` holds a counter vector `Set` with `M` buckets and `K` hash
functions.  `hashes` reads the SHA-256 and BLAKE2b digests of an element as
two big integers; the model takes that pair of digests as a parameter
`hashes`, so every result holds for every pair of hash functions.  The `i`-th
location is `(h₀ + i h₁) mod M`, where `big.Int.Mod` by a zero `M` panics.

`Add` sets each of the `K` counters of an element to `1` if it was `0`, so a
filter filled from one tree is a 0/1 vector.  `Count` returns the least of the
`K` counters, starting from `255`.
-/

namespace Decenarch

/-- `CBF`. -/
structure CBF where
  Set : List ℤ
  M : ℕ
  K : ℕ

/-- `[]byte(s)`. -/
def stringBytes (s : String) : Bytes := s.toUTF8.data.toList

variable (hashes : Bytes → ℕ × ℕ)

/-- The value `(h₀ + i h₁) mod M` that `CBF.location` computes. -/
def bloomLoc (M : ℕ) (h : ℕ × ℕ) (i : ℕ) : ℕ := (h.1 + i * h.2) % M

namespace CBF

/-- `CBF.location`. -/
def location (c : CBF) (h : ℕ × ℕ) (i : ℕ) : Outcome ℕ :=
  if c.M = 0 then .panic else .ok (bloomLoc c.M h i)

/-- One iteration of the loop of `Add`. -/
def addAt (h : ℕ × ℕ) (c : CBF) (i : ℕ) : Outcome CBF :=
  c.location h i >>= fun loc =>
    match c.Set[loc]? with
    | none => .panic
    | some v => .ok (if v = 0 then { c with Set := c.Set.set loc (v + 1) } else c)

/-- `CBF.Add`. -/
def add (c : CBF) (e : Bytes) : Outcome CBF :=
  (List.range c.K).foldlM (addAt (hashes e)) c

/-- One iteration of the loop of `Count`. -/
def countAt (c : CBF) (h : ℕ × ℕ) (min : ℤ) (i : ℕ) : Outcome ℤ :=
  c.location h i >>= fun loc =>
    match c.Set[loc]? with
    | none => .panic
    | some counter => .ok (if counter < min then counter else min)

/-- `CBF.Count`. -/
def count (c : CBF) (e : Bytes) : Outcome ℤ :=
  (List.range c.K).foldlM (c.countAt (hashes e)) 255

/-- `AddUniqueLeaves`. -/
def addUniqueLeaves (c : CBF) (root : Node) : Outcome CBF :=
  (listUniqueDataLeaves root).foldlM (fun c l => c.add hashes (stringBytes l)) c

end CBF

/-- `NewBloomFilter([M, K])`. -/
def newBloomFilter (param : ℕ × ℕ) : CBF :=
  ⟨List.replicate param.1 0, param.1, param.2⟩

/-- `BloomFilterFromSet`. -/
def bloomFilterFromSet (set : List ℤ) (param : ℕ × ℕ) : CBF :=
  ⟨set, param.1, param.2⟩

/-- `NewFilledBloomFilter`. -/
def newFilledBloomFilter (param : ℕ × ℕ) (root : Node) : Outcome CBF :=
  (newBloomFilter param).addUniqueLeaves hashes root

/-- The elementwise sum of `M`-bucket counter vectors. -/
def sumSets (M : ℕ) (sets : List (List ℤ)) : List ℤ :=
  sets.foldl (List.zipWith (· + ·)) (List.replicate M 0)

end Decenarch

namespace Decenarch

namespace CBF

variable {hashes : Bytes → ℕ × ℕ}

/-- The `i`-th location of the element with digests `h`, when `M ≠ 0`. -/
def loc (c : CBF) (h : ℕ × ℕ) (i : ℕ) : ℕ := bloomLoc c.M h i

/-- A counter vector of `M` entries, each `0` or `1`. -/
structure ZeroOne (c : CBF) : Prop where
  length_eq : c.Set.length = c.M
  zero_one : ∀ v ∈ c.Set, v = 0 ∨ v = 1

theorem location_eq {c : CBF} (hM : c.M ≠ 0) (h : ℕ × ℕ) (i : ℕ) :
    c.location h i = .ok (c.loc h i) := by
  simp [location, loc, hM]

theorem loc_lt {c : CBF} (hM : c.M ≠ 0) (h : ℕ × ℕ) (i : ℕ) : c.loc h i < c.M :=
  Nat.mod_lt _ (Nat.pos_of_ne_zero hM)

/-- What an iteration of `Add` guarantees: it returns, keeps the buckets
0/1, keeps every `1`, and leaves a `1` at its location. -/
theorem addAt_spec {c : CBF} (hM : c.M ≠ 0) (hc : c.ZeroOne) (h : ℕ × ℕ) (i : ℕ) :
    ∃ c', c.addAt h i = .ok c' ∧ c'.ZeroOne ∧ c'.M = c.M ∧ c'.K = c.K ∧
      (∀ j : ℕ, c.Set[j]? = some 1 → c'.Set[j]? = some 1) ∧ c'.Set[c.loc h i]? = some 1 := by
  have hlt : c.loc h i < c.Set.length := hc.length_eq ▸ loc_lt hM h i
  have hget : c.Set[c.loc h i]? = some (c.Set[c.loc h i]) := List.getElem?_eq_getElem hlt
  rcases hc.zero_one _ (List.getElem_mem hlt) with h0 | h1
  · -- a zero counter becomes one
    refine ⟨{ c with Set := c.Set.set (c.loc h i) 1 }, ?_, ⟨?_, ?_⟩, rfl, rfl, ?_, ?_⟩
    · simp [addAt, location_eq hM, hget, h0]
    · simp [hc.length_eq]
    · intro v hv
      rcases List.mem_or_eq_of_mem_set hv with hv | rfl
      · exact hc.zero_one v hv
      · exact Or.inr rfl
    · intro j hj
      by_cases hjl : j = c.loc h i
      · simp [hjl, hlt]
      · simpa [List.getElem?_set_ne (Ne.symm hjl)] using hj
    · simp [hlt]
  · -- a counter at one stays as it is
    exact ⟨c, by simp [addAt, location_eq hM, hget, h1], hc, rfl, rfl, fun _ hj => hj,
      by rw [hget, h1]⟩

/-- The loop of `Add` over the indices `is`. -/
theorem foldlM_addAt_spec (h : ℕ × ℕ) :
    ∀ (is : List ℕ) {c : CBF}, c.M ≠ 0 → c.ZeroOne →
      ∃ c', is.foldlM (addAt h) c = .ok c' ∧ c'.ZeroOne ∧ c'.M = c.M ∧ c'.K = c.K ∧
        (∀ j : ℕ, c.Set[j]? = some 1 → c'.Set[j]? = some 1) ∧
        ∀ i ∈ is, c'.Set[c.loc h i]? = some 1
  | [], c, _, hc => ⟨c, rfl, hc, rfl, rfl, fun _ hj => hj, by simp⟩
  | i :: is, c, hM, hc => by
      obtain ⟨c₁, h₁, hc₁, hM₁, hK₁, hmono₁, hloc₁⟩ := addAt_spec hM hc h i
      obtain ⟨c₂, h₂, hc₂, hM₂, hK₂, hmono₂, hloc₂⟩ :=
        foldlM_addAt_spec h is (hM₁ ▸ hM) hc₁
      have hloc : ∀ k, c₁.loc h k = c.loc h k := fun k => by simp [loc, hM₁]
      refine ⟨c₂, by simp [List.foldlM_cons, h₁, h₂], hc₂, hM₂.trans hM₁, hK₂.trans hK₁,
        fun j hj => hmono₂ j (hmono₁ j hj), ?_⟩
      intro k hk
      rcases List.mem_cons.mp hk with rfl | hk
      · exact hmono₂ _ hloc₁
      · rw [← hloc k]
        exact hloc₂ k hk

/-- `Add` returns, keeps the buckets 0/1 and sets every location of the
element to `1`. -/
theorem add_spec {c : CBF} (hM : c.M ≠ 0) (hc : c.ZeroOne) (e : Bytes) :
    ∃ c', c.add hashes e = .ok c' ∧ c'.ZeroOne ∧ c'.M = c.M ∧ c'.K = c.K ∧
      (∀ j : ℕ, c.Set[j]? = some 1 → c'.Set[j]? = some 1) ∧
      ∀ i < c.K, c'.Set[c.loc (hashes e) i]? = some 1 := by
  obtain ⟨c', h, hc', hM', hK', hmono, hloc⟩ := foldlM_addAt_spec (hashes e) (List.range c.K) hM hc
  exact ⟨c', h, hc', hM', hK', hmono, fun i hi => hloc i (List.mem_range.mpr hi)⟩

/-- The loop of `AddUniqueLeaves` over the strings `ls`. -/
theorem foldlM_add_spec :
    ∀ (ls : List String) {c : CBF}, c.M ≠ 0 → c.ZeroOne →
      ∃ c', ls.foldlM (fun c l => c.add hashes (stringBytes l)) c = .ok c' ∧ c'.ZeroOne ∧
        c'.M = c.M ∧ c'.K = c.K ∧ (∀ j : ℕ, c.Set[j]? = some 1 → c'.Set[j]? = some 1) ∧
        ∀ l ∈ ls, ∀ i < c.K, c'.Set[c.loc (hashes (stringBytes l)) i]? = some 1
  | [], c, _, hc => ⟨c, rfl, hc, rfl, rfl, fun _ hj => hj, by simp⟩
  | l :: ls, c, hM, hc => by
      obtain ⟨c₁, h₁, hc₁, hM₁, hK₁, hmono₁, hloc₁⟩ :=
        @add_spec hashes c hM hc (stringBytes l)
      obtain ⟨c₂, h₂, hc₂, hM₂, hK₂, hmono₂, hloc₂⟩ := foldlM_add_spec ls (hM₁ ▸ hM) hc₁
      have hloc : ∀ h k, c₁.loc h k = c.loc h k := fun _ _ => by simp [loc, hM₁]
      refine ⟨c₂, by simp [List.foldlM_cons, h₁, h₂], hc₂, hM₂.trans hM₁, hK₂.trans hK₁,
        fun j hj => hmono₂ j (hmono₁ j hj), ?_⟩
      intro l' hl' i hi
      rcases List.mem_cons.mp hl' with rfl | hl'
      · -- the locations of `l'` were set by its own `Add`; later ones only add ones
        exact hmono₂ _ (hloc₁ i hi)
      · rw [← hloc]
        exact hloc₂ l' hl' i (hK₁ ▸ hi)

/-- The loop of `Count` from the seed `m0` returns a value at least every
common lower bound of the seed and of the counters it reads. -/
theorem foldlM_countAt_ge {c : CBF} (hM : c.M ≠ 0) (hlen : c.Set.length = c.M) (h : ℕ × ℕ) :
    ∀ (is : List ℕ) (m0 : ℤ), ∃ v, is.foldlM (c.countAt h) m0 = .ok v ∧
      ∀ b, b ≤ m0 → (∀ i ∈ is, b ≤ c.Set.getD (c.loc h i) 0) → b ≤ v
  | [], m0 => ⟨m0, rfl, fun _ hb _ => hb⟩
  | i :: is, m0 => by
      have hlt : c.loc h i < c.Set.length := hlen ▸ loc_lt hM h i
      set m1 := if c.Set[c.loc h i] < m0 then c.Set[c.loc h i] else m0 with hm1
      have hstep : c.countAt h m0 i = .ok m1 := by
        simp [countAt, location_eq hM, List.getElem?_eq_getElem hlt, hm1]
      obtain ⟨v, hv, hge⟩ := foldlM_countAt_ge hM hlen h is m1
      refine ⟨v, by simp [List.foldlM_cons, hstep, hv], fun b hb hall => hge b ?_ ?_⟩
      · have hbi := hall i (by simp)
        rw [List.getD_eq_getElem _ _ hlt] at hbi
        rw [hm1]
        split_ifs <;> assumption
      · exact fun k hk => hall k (by simp [hk])

end CBF

variable (hashes : Bytes → ℕ × ℕ)

/-- A filter filled from the tree `T`, seen through its counter vector:
`M` counters, each `0` or `1`, with every location of every leaf at `1`. -/
structure FilledFrom (M K : ℕ) (T : Node) (set : List ℤ) : Prop where
  length_eq : set.length = M
  zero_one : ∀ v ∈ set, v = 0 ∨ v = 1
  marked : ∀ l ∈ listUniqueDataLeaves T, ∀ i < K, set.getD (bloomLoc M (hashes (stringBytes l)) i) 0 = 1

/-- `NewFilledBloomFilter([M, K], T)` returns, for `M ≥ 1`, a filter filled
from `T`. -/
theorem newFilledBloomFilter_spec {M : ℕ} (hM : 0 < M) (K : ℕ) (T : Node) :
    ∃ c, newFilledBloomFilter hashes (M, K) T = .ok c ∧ c.M = M ∧ c.K = K ∧
      FilledFrom hashes M K T c.Set := by
  have hz : (newBloomFilter (M, K)).ZeroOne :=
    ⟨by simp [newBloomFilter], fun v hv => Or.inl (List.eq_of_mem_replicate hv)⟩
  obtain ⟨c, hc, hzo, hcM, hcK, -, hloc⟩ :=
    @CBF.foldlM_add_spec hashes (listUniqueDataLeaves T) (newBloomFilter (M, K))
      (Nat.pos_iff_ne_zero.mp hM) hz
  refine ⟨c, hc, hcM, hcK, ⟨hzo.length_eq.trans hcM, hzo.zero_one, ?_⟩⟩
  intro l hl i hi
  have h1 := hloc l hl i hi
  simp only [CBF.loc, newBloomFilter] at h1
  rw [List.getD_eq_getElem?_getD, h1, Option.getD_some]

/-- The counter vectors of the filters filled from each tree in turn. -/
def filledSets (param : ℕ × ℕ) (trees : List Node) : Outcome (List (List ℤ)) :=
  Outcome.traverseList (fun T => (newFilledBloomFilter hashes param T).map CBF.Set) trees

theorem filledSets_spec {M : ℕ} (hM : 0 < M) (K : ℕ) :
    ∀ trees : List Node, ∃ sets, filledSets hashes (M, K) trees = .ok sets ∧
      List.Forall₂ (FilledFrom hashes M K) trees sets
  | [] => ⟨[], rfl, List.Forall₂.nil⟩
  | T :: trees => by
      obtain ⟨c, hc, -, -, hfill⟩ := newFilledBloomFilter_spec hashes hM K T
      obtain ⟨sets, hsets, hall⟩ := filledSets_spec hM K trees
      refine ⟨c.Set :: sets, ?_, List.Forall₂.cons hfill hall⟩
      unfold filledSets at hsets ⊢
      simp [Outcome.traverseList_cons, hc, hsets]

/-- Every vector filled from a list of trees has `M` counters, each 0 or 1. -/
theorem FilledFrom.of_mem {M K : ℕ} :
    ∀ {trees : List Node} {sets : List (List ℤ)}, List.Forall₂ (FilledFrom hashes M K) trees sets →
      ∀ set ∈ sets, set.length = M ∧ ∀ v ∈ set, v = 0 ∨ v = 1
  | [], [], List.Forall₂.nil => by simp
  | _ :: _, _ :: _, List.Forall₂.cons hfill hall => by
      intro set hset
      rcases List.mem_cons.mp hset with rfl | hset
      · exact ⟨hfill.length_eq, hfill.zero_one⟩
      · exact FilledFrom.of_mem hall set hset

/-- An elementwise sum keeps the length of the accumulator and adds up the
entries. -/
theorem foldl_zipWith_add :
    ∀ (sets : List (List ℤ)) (acc : List ℤ), (∀ set ∈ sets, set.length = acc.length) →
      (sets.foldl (List.zipWith (· + ·)) acc).length = acc.length ∧
      ∀ j < acc.length, (sets.foldl (List.zipWith (· + ·)) acc).getD j 0 =
        acc.getD j 0 + (sets.map (·.getD j 0)).sum
  | [], acc, _ => ⟨rfl, fun j _ => by simp⟩
  | set :: sets, acc, hlen => by
      have hset := hlen set (by simp)
      have hacc : (List.zipWith (· + ·) acc set).length = acc.length := by simp [hset]
      obtain ⟨hl, hget⟩ := foldl_zipWith_add sets (List.zipWith (· + ·) acc set)
        (fun s hs => (hlen s (by simp [hs])).trans hacc.symm)
      refine ⟨by simpa [hacc] using hl, fun j hj => ?_⟩
      simp only [List.foldl_cons, List.map_cons, List.sum_cons]
      rw [hget j (hacc ▸ hj), List.getD_eq_getElem _ _ (hacc ▸ hj),
        List.getD_eq_getElem _ _ hj, List.getD_eq_getElem _ _ (hset ▸ hj)]
      simp only [List.getElem_zipWith]
      ring

/-- Summed filled filters count, at each location of a string, at least the
trees whose leaves contain it. -/
theorem countP_le_sum_getD {M K : ℕ} (s : String) {i : ℕ} (hi : i < K) :
    ∀ {trees : List Node} {sets : List (List ℤ)}, List.Forall₂ (FilledFrom hashes M K) trees sets →
      (trees.countP fun T => decide (s ∈ listUniqueDataLeaves T) : ℤ) ≤
        (sets.map (·.getD (bloomLoc M (hashes (stringBytes s)) i) 0)).sum
  | [], [], List.Forall₂.nil => by simp
  | T :: trees, set :: sets, List.Forall₂.cons hfill hall => by
      have ih := countP_le_sum_getD s hi hall
      have hentry : ((if s ∈ listUniqueDataLeaves T then 1 else 0 : ℕ) : ℤ) ≤
          set.getD (bloomLoc M (hashes (stringBytes s)) i) 0 := by
        split_ifs with hs
        · rw [hfill.marked s hs i hi]
          simp
        · -- a counter of a 0/1 vector, or the default, is nonnegative
          rw [List.getD_eq_getElem?_getD]
          cases hget : set[bloomLoc M (hashes (stringBytes s)) i]? with
          | none => simp
          | some v =>
              rcases hfill.zero_one v (List.mem_of_getElem? hget) with rfl | rfl <;> simp
      simp only [List.countP_cons, List.map_cons, List.sum_cons, decide_eq_true_eq]
      push_cast at hentry ih ⊢
      linarith

/-- For `M ≥ 1`, `Count` on the sum of the filters filled from `trees` is at
least `255` or the number of trees containing the string, whichever is
smaller. -/
theorem count_sumSets_ge {M : ℕ} (hM : 0 < M) (K : ℕ) (trees : List Node) :
    ∃ sets, filledSets hashes (M, K) trees = .ok sets ∧
      (∀ set ∈ sets, ∀ v ∈ set, v = 0 ∨ v = 1) ∧
      ∀ s : String, ∃ v, (bloomFilterFromSet (sumSets M sets) (M, K)).count hashes (stringBytes s) =
        .ok v ∧ min 255 (trees.countP fun T => decide (s ∈ listUniqueDataLeaves T) : ℤ) ≤ v := by
  obtain ⟨sets, hsets, hall⟩ := filledSets_spec hashes hM K trees
  have hlen : ∀ set ∈ sets, set.length = (List.replicate M (0 : ℤ)).length := fun set hset => by
    simpa using (FilledFrom.of_mem hashes hall set hset).1
  obtain ⟨hsl, hsum⟩ := foldl_zipWith_add sets _ hlen
  refine ⟨sets, hsets, fun set hset => (FilledFrom.of_mem hashes hall set hset).2, fun s => ?_⟩
  · have hMne : (bloomFilterFromSet (sumSets M sets) (M, K)).M ≠ 0 := Nat.pos_iff_ne_zero.mp hM
    have hSl : (bloomFilterFromSet (sumSets M sets) (M, K)).Set.length =
        (bloomFilterFromSet (sumSets M sets) (M, K)).M := by
      simpa [bloomFilterFromSet, sumSets] using hsl
    obtain ⟨v, hv, hge⟩ := CBF.foldlM_countAt_ge hMne hSl (hashes (stringBytes s)) (List.range K) 255
    refine ⟨v, hv, hge _ (min_le_left _ _) fun i hi => ?_⟩
    have hlt : bloomLoc M (hashes (stringBytes s)) i < (List.replicate M (0 : ℤ)).length := by
      simpa [bloomLoc] using Nat.mod_lt _ hM
    have hcount := countP_le_sum_getD hashes s (List.mem_range.mp hi) hall
    have hzero : (List.replicate M (0 : ℤ)).getD (bloomLoc M (hashes (stringBytes s)) i) 0 = 0 := by
      simp [List.getD_eq_getElem?_getD]
    simp only [CBF.loc, bloomFilterFromSet, sumSets]
    rw [hsum _ hlt, hzero, zero_add]
    exact le_trans (min_le_right _ _) hcount

/-- Two pages, one of them with the leaf `text`, hashed by length into two
counters: every string is counted at least as often as the pages that hold
it. -/
theorem count_sumSets_ge_two_pages :
    ∃ sets, filledSets (fun b => (b.length, 1)) (2, 1) [.mk "p" [.mk "text" []], .mk "p" []] = .ok sets ∧
      (∀ set ∈ sets, ∀ v ∈ set, v = 0 ∨ v = 1) ∧
      ∀ s : String, ∃ v, (bloomFilterFromSet (sumSets 2 sets) (2, 1)).count (fun b => (b.length, 1))
          (stringBytes s) = .ok v ∧
        min 255 (([.mk "p" [.mk "text" []], .mk "p" []] : List Node).countP
          fun T => decide (s ∈ listUniqueDataLeaves T) : ℤ) ≤ v :=
  count_sumSets_ge (fun b => (b.length, 1)) (by decide) 1 _

/-! ### More than 255 trees sharing a leaf

`Count` seeds its minimum with `255`, so once more than 255 filled filters
share a leaf, the count of the sum stops at `255`. -/

theorem listUniqueDataLeaves_leaf (d : String) : listUniqueDataLeaves (Node.mk d []) = [d] := rfl

/-- With `M = K = 1`, 256 one-node trees with the leaf `"a"` fill 256
filters `[1]`, and `Count` on their sum returns `255` for `"a"`. -/
theorem count_sumSets_of_256_leaves :
    filledSets hashes (1, 1) (List.replicate 256 (Node.mk "a" [])) = .ok (List.replicate 256 [1]) ∧
      (bloomFilterFromSet (sumSets 1 (List.replicate 256 [1])) (1, 1)).count hashes
        (stringBytes "a") = .ok 255 ∧
      (List.replicate 256 (Node.mk "a" [])).countP
        (fun T => decide ("a" ∈ listUniqueDataLeaves T)) = 256 := by
  have hfill : newFilledBloomFilter hashes (1, 1) (Node.mk "a" []) = .ok ⟨[1], 1, 1⟩ := by
    simp [newFilledBloomFilter, CBF.addUniqueLeaves, listUniqueDataLeaves_leaf, CBF.add, CBF.addAt,
      CBF.location, bloomLoc, newBloomFilter, Nat.mod_one]
  -- the sum of the 256 vectors `[1]` is the one counter `256`
  obtain ⟨hl, hg⟩ := foldl_zipWith_add (List.replicate 256 [1]) (List.replicate 1 0)
    (fun set hset => by rw [(List.mem_replicate.mp hset).2]; rfl)
  have hsum : (sumSets 1 (List.replicate 256 [1]))[0]? = some 256 := by
    have h0 := hg 0 (by decide)
    have hl' : (sumSets 1 (List.replicate 256 [1])).length = 1 := hl
    simp only [List.map_replicate, List.sum_replicate] at h0
    rw [← sumSets, List.getD_eq_getElem?_getD] at h0
    generalize sumSets 1 (List.replicate 256 [1]) = S at h0 hl' ⊢
    cases h : S[0]? with
    | none => rw [List.getElem?_eq_none_iff] at h; omega
    | some v => rw [h] at h0; simpa using h0
  refine ⟨?_, ?_, ?_⟩
  · have := Outcome.traverseList_of_ok (fun T => (newFilledBloomFilter hashes (1, 1) T).map CBF.Set)
      (fun _ => [1]) (List.replicate 256 (Node.mk "a" []))
      (fun T hT => by rw [(List.mem_replicate.mp hT).2, hfill]; rfl)
    rwa [List.map_replicate] at this
  · generalize sumSets 1 (List.replicate 256 [1]) = S at hsum ⊢
    simp [CBF.count, CBF.countAt, CBF.location, bloomLoc, bloomFilterFromSet, Nat.mod_one, hsum]
  · rw [List.countP_replicate, listUniqueDataLeaves_leaf]
    rfl

end Decenarch
