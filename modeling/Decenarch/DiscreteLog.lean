import Decenarch.Crypto
import Mathlib.Algebra.Order.Group.Abs
import Mathlib.Tactic.Linarith

/-!
# The memoised discrete logarithm (`lib/crypto.go`)

`discreteLog` decodes a point `m • B` to the integer `m`.  It first looks the
point up in the package map `PointToInt`; on a miss it takes `mutex`, resumes
the search from the high-water mark (`currentGreatestM`, `currentGreatestInt`)
and walks `Bi = m • B` upwards, storing every point it passes, until `Bi` or
`-Bi` is the point or `m` reaches `MaxHomomorphicInt`.  It then stores
`Neg(B) ↦ -m` and `Bi ↦ m` and moves the high-water mark.  On the failure
path it returns `0` with the mutex still held.

The map is keyed by `Point.String()`; with that string injective the model
keys it by the point itself.  The calls are sequential, so a held mutex is
never released: a later miss blocks forever.
-/

namespace Decenarch

variable {G : Type*} [AddCommGroup G] [DecidableEq G]

/-- The package state that `discreteLog` reads and writes. -/
structure DlogTable (G : Type*) where
  PointToInt : G → Option ℤ
  currentGreatestM : G
  currentGreatestInt : ℤ
  /-- Whether `mutex` is held. -/
  locked : Bool

/-- The state at program start: an empty map and a zero high-water mark. -/
def DlogTable.initial : DlogTable G := ⟨fun _ => none, 0, 0, false⟩

/-- The `for` loop of `discreteLog`, run for at most `fuel` iterations. -/
def searchLoop (B P : G) (checkNeg : Bool) :
    ℕ → G → ℤ → (G → Option ℤ) → G × ℤ × (G → Option ℤ)
  | 0, Bi, m, t => (Bi, m, t)
  | fuel + 1, Bi, m, t =>
      if Bi ≠ P ∧ -Bi ≠ P ∧ m < MaxHomomorphicInt then
        let t := if checkNeg then Function.update t (-Bi) (some (-m)) else t
        searchLoop B P checkNeg fuel (Bi + B) (m + 1) (Function.update t Bi (some m))
      else (Bi, m, t)

/-- `discreteLog(P, checkNeg)` on the table `s`. -/
def discreteLog (B P : G) (checkNeg : Bool) (s : DlogTable G) : Outcome (ℤ × DlogTable G) :=
  match s.PointToInt P with
  | some v => .ok (v, s)
  | none =>
      if s.locked then .block
      else
        let start := if s.currentGreatestInt = 0 then (0 : G) else s.currentGreatestM
        let r := searchLoop B P checkNeg (MaxHomomorphicInt - s.currentGreatestInt).toNat start
          s.currentGreatestInt s.PointToInt
        let t := Function.update (Function.update r.2.2 (-B) (some (-r.2.1))) r.1 (some r.2.1)
        if r.2.1 = MaxHomomorphicInt then .ok (0, ⟨t, r.1, r.2.1, true⟩)
        else .ok (if -r.1 = P then -r.2.1 else r.2.1, ⟨t, r.1, r.2.1, false⟩)

/-- `GetPointToInt`. -/
def getPointToInt (B P : G) (s : DlogTable G) : Outcome (ℤ × DlogTable G) :=
  discreteLog B P false s

/-- Sequential calls of `GetPointToInt`, threading the package state. -/
def runGetPointToInt (B : G) : List G → DlogTable G → Outcome (List ℤ × DlogTable G)
  | [], s => .ok ([], s)
  | P :: Ps, s =>
      getPointToInt B P s >>= fun (v, s₁) =>
        runGetPointToInt B Ps s₁ >>= fun (vs, s₂) => .ok (v :: vs, s₂)

section DecryptInt

variable {F : Type*} [Field F] [Module F G]

/-- `DecryptInt`. -/
def decryptInt (B : G) (prikey : F) (cipher : CipherText G) (s : DlogTable G) :
    Outcome (ℤ × DlogTable G) :=
  discreteLog B (decryptPoint prikey cipher) false s

/-- `DecryptIntVector`: `DecryptInt` on each entry in order. -/
def decryptIntVector (B : G) (prikey : F) :
    CipherVector G → DlogTable G → Outcome (List ℤ × DlogTable G)
  | [], s => .ok ([], s)
  | c :: cs, s =>
      decryptInt B prikey c s >>= fun (v, s₁) =>
        decryptIntVector B prikey cs s₁ >>= fun (vs, s₂) => .ok (v :: vs, s₂)

/-- Decrypting a vector is decoding the decrypted points in order. -/
theorem decryptIntVector_eq (B : G) (prikey : F) :
    ∀ (cv : CipherVector G) (s : DlogTable G),
      decryptIntVector B prikey cv s = runGetPointToInt B (cv.map (decryptPoint prikey)) s
  | [], _ => rfl
  | c :: cs, s => by
      simp only [decryptIntVector, runGetPointToInt, List.map_cons, decryptInt, getPointToInt,
        decryptIntVector_eq B prikey cs]

end DecryptInt

section Loop

variable {B P Bi : G} {checkNeg : Bool} {m : ℤ} {t : G → Option ℤ}

/-- The loop stops at once when its condition fails. -/
theorem searchLoop_of_not_cond (h : ¬(Bi ≠ P ∧ -Bi ≠ P ∧ m < MaxHomomorphicInt)) (fuel : ℕ) :
    searchLoop B P checkNeg fuel Bi m t = (Bi, m, t) := by
  cases fuel with
  | zero => rfl
  | succ fuel => simp only [searchLoop, if_neg h]

theorem searchLoop_succ_of_cond (h : Bi ≠ P ∧ -Bi ≠ P ∧ m < MaxHomomorphicInt) (fuel : ℕ) :
    searchLoop B P false (fuel + 1) Bi m t =
      searchLoop B P false fuel (Bi + B) (m + 1) (Function.update t Bi (some m)) := by
  simp only [searchLoop, if_pos h, Bool.false_eq_true, if_false]

end Loop

/-! ### Queries of nonnegative values

When every query so far decoded a value in `[0, MaxHomomorphicInt)`, the
table maps each stored point to its logarithm, except for the `Neg(B)` entry,
which holds `-currentGreatestInt`; and it covers every value below the mark.
A group whose base has order above `2 * MaxHomomorphicInt` then decodes every
further nonnegative query correctly. -/

/-- No nonzero multiple `n • B` with `|n| ≤ N` vanishes. -/
def OrderExceeds (B : G) (N : ℤ) : Prop :=
  ∀ n : ℤ, n • B = 0 → |n| ≤ N → n = 0

omit [DecidableEq G] in
theorem OrderExceeds.smul_inj {B : G} {N a b : ℤ} (hB : OrderExceeds B N)
    (h : a • B = b • B) (hab : |a - b| ≤ N) : a = b := by
  have h0 : (a - b) • B = 0 := by rw [sub_smul, h, sub_self]
  have := hB (a - b) h0 hab
  omega

/-- The table invariant under queries of nonnegative values. -/
structure NonnegTable (B : G) (s : DlogTable G) : Prop where
  unlocked : s.locked = false
  mark_nonneg : 0 ≤ s.currentGreatestInt
  mark_lt : s.currentGreatestInt < MaxHomomorphicInt
  mark_point : s.currentGreatestInt ≠ 0 → s.currentGreatestM = s.currentGreatestInt • B
  sound : ∀ P v, s.PointToInt P = some v →
    (P = v • B ∧ 0 ≤ v ∧ v ≤ s.currentGreatestInt) ∨ (P = -B ∧ v = -s.currentGreatestInt)
  complete : ∀ j, 0 ≤ j → j < s.currentGreatestInt → s.PointToInt (j • B) = some j

omit [DecidableEq G] in
theorem NonnegTable.initial (B : G) : NonnegTable B DlogTable.initial where
  unlocked := rfl
  mark_nonneg := le_rfl
  mark_lt := by simp [DlogTable.initial, MaxHomomorphicInt]
  mark_point := fun h => absurd rfl h
  sound := fun _ _ h => by simp [DlogTable.initial] at h
  complete := fun _ h0 hj => absurd hj (not_lt.mpr h0)

/-- The invariant of the search loop for the point `i • B`, started at the
mark `m0`: `Bi = m • B`, stored entries are correct (or the `Neg(B)` entry of
the old mark) and every value below `m` is stored. -/
structure SearchInv (B : G) (i m0 : ℤ) (Bi : G) (m : ℤ) (t : G → Option ℤ) : Prop where
  point : Bi = m • B
  start_le : m0 ≤ m
  le_target : m ≤ i
  sound : ∀ P v, t P = some v →
    (P = v • B ∧ 0 ≤ v ∧ (v ≤ m0 ∨ v < m)) ∨ (P = -B ∧ v = -m0)
  complete : ∀ j, 0 ≤ j → j < m → t (j • B) = some j

section Nonneg

variable {B : G} (hB : OrderExceeds B (2 * MaxHomomorphicInt))
include hB

/-- One iteration keeps the search invariant. -/
theorem SearchInv.step {i m0 m : ℤ} {Bi : G} {t : G → Option ℤ} (h0 : 0 ≤ m0)
    (h : SearchInv B i m0 Bi m t) (hlt : m < i) (hi : i < MaxHomomorphicInt) :
    SearchInv B i m0 (Bi + B) (m + 1) (Function.update t Bi (some m)) where
  point := by rw [h.point, add_smul, one_smul]
  start_le := by linarith [h.start_le]
  le_target := by omega
  sound := by
    intro P v hP
    by_cases hPB : P = Bi
    · subst hPB
      simp only [Function.update_self, Option.some.injEq] at hP
      subst hP
      exact Or.inl ⟨h.point, by linarith [h.start_le], Or.inr (lt_add_one _)⟩
    · rw [Function.update_of_ne hPB] at hP
      rcases h.sound P v hP with ⟨hv, hv0, hvm⟩ | hneg
      · exact Or.inl ⟨hv, hv0, hvm.imp id (fun hv => by omega)⟩
      · exact Or.inr hneg
  complete := by
    intro j hj0 hj
    rcases lt_or_eq_of_le (Int.lt_add_one_iff.mp hj) with hjm | rfl
    · have hne : j • B ≠ Bi := by
        rw [h.point]
        intro hjB
        have := hB.smul_inj hjB (by rw [abs_le]; constructor <;> linarith [h.start_le])
        omega
      rw [Function.update_of_ne hne]
      exact h.complete j hj0 hjm
    · rw [← h.point, Function.update_self]

omit [DecidableEq G] in
/-- The loop condition holds at every value below the target. -/
theorem search_cond_of_lt {i m : ℤ} (h0 : 0 ≤ m) (hlt : m < i) (hi : i < MaxHomomorphicInt) :
    m • B ≠ i • B ∧ -(m • B) ≠ i • B ∧ m < MaxHomomorphicInt := by
  have hmax : MaxHomomorphicInt = 100000 := rfl
  refine ⟨fun he => ?_, fun he => ?_, by omega⟩
  · have := hB.smul_inj he (by rw [abs_le]; constructor <;> omega)
    omega
  · have h2 : (m + i) • B = 0 := by rw [add_smul, ← he, add_neg_cancel]
    have := hB (m + i) h2 (by rw [abs_le]; constructor <;> omega)
    omega

/-- The search for `i • B` from a state of the invariant stops at `m = i`. -/
theorem searchLoop_of_searchInv {i m0 : ℤ} (h0 : 0 ≤ m0) (hi : i < MaxHomomorphicInt) :
    ∀ (fuel : ℕ) (Bi : G) (m : ℤ) (t : G → Option ℤ), SearchInv B i m0 Bi m t →
      i - m ≤ fuel →
      ∃ t', searchLoop B (i • B) false fuel Bi m t = (i • B, i, t') ∧ SearchInv B i m0 (i • B) i t'
  | fuel, Bi, m, t, h, hfuel => by
      rcases lt_or_eq_of_le h.le_target with hlt | rfl
      · obtain ⟨fuel, rfl⟩ : ∃ f, fuel = f + 1 := ⟨fuel - 1, by omega⟩
        have hcond := search_cond_of_lt hB (le_trans h0 h.start_le) hlt hi
        rw [← h.point] at hcond
        rw [searchLoop_succ_of_cond hcond]
        exact searchLoop_of_searchInv h0 hi fuel _ _ _ (h.step hB h0 hlt hi) (by omega)
      · have hstop : ¬(Bi ≠ m • B ∧ -Bi ≠ m • B ∧ m < MaxHomomorphicInt) :=
          fun hc => hc.1 h.point
        exact ⟨t, by rw [searchLoop_of_not_cond hstop, h.point], by rwa [← h.point]⟩

/-- A query of `i • B` with `0 ≤ i < MaxHomomorphicInt` returns `i` and keeps
the invariant. -/
theorem discreteLog_of_nonnegTable {s : DlogTable G} (hs : NonnegTable B s) {i : ℤ}
    (hi0 : 0 ≤ i) (hi : i < MaxHomomorphicInt) :
    ∃ s', discreteLog B (i • B) false s = .ok (i, s') ∧ NonnegTable B s' := by
  have hmax : MaxHomomorphicInt = 100000 := rfl
  cases hP : s.PointToInt (i • B) with
  | some v =>
      -- a hit: the stored value is the logarithm, and `Neg(B)` is no nonnegative query
      refine ⟨s, ?_, hs⟩
      rcases hs.sound _ v hP with ⟨hv, hv0, hvm⟩ | ⟨hneg, -⟩
      · have := hB.smul_inj hv (by have := hs.mark_lt; rw [abs_le]; constructor <;> omega)
        subst this
        simp [discreteLog, hP]
      · have h1 : (i + 1) • B = 0 := by rw [add_smul, one_smul, hneg, neg_add_cancel]
        have := hB (i + 1) h1 (by rw [abs_le]; constructor <;> omega)
        omega
  | none =>
      -- a miss: the value is at or above the mark, and the search resumes there
      have hmark : s.currentGreatestInt ≤ i := by
        by_contra hlt
        have := hs.complete i hi0 (not_le.mp hlt)
        rw [hP] at this
        simp at this
      have hstart : (if s.currentGreatestInt = 0 then (0 : G) else s.currentGreatestM) =
          s.currentGreatestInt • B := by
        by_cases hz : s.currentGreatestInt = 0
        · simp [hz]
        · rw [if_neg hz, hs.mark_point hz]
      have hinv : SearchInv B i s.currentGreatestInt (s.currentGreatestInt • B)
          s.currentGreatestInt s.PointToInt :=
        { point := rfl
          start_le := le_rfl
          le_target := hmark
          sound := fun P v hPv => (hs.sound P v hPv).imp (fun h => ⟨h.1, h.2.1, Or.inl h.2.2⟩) id
          complete := hs.complete }
      obtain ⟨t', hloop, hinv'⟩ := searchLoop_of_searchInv hB hs.mark_nonneg hi
        (MaxHomomorphicInt - s.currentGreatestInt).toNat _ _ _ hinv (by omega)
      have hret : (if -(i • B) = i • B then -i else i) = i := by
        split_ifs with hneg
        · have h2 : (i + i) • B = 0 := by rw [add_smul, ← neg_add_cancel (i • B), hneg]
          have := hB (i + i) h2 (by rw [abs_le]; constructor <;> omega)
          omega
        · rfl
      have hnegB : ∀ j : ℤ, 0 ≤ j → j ≤ MaxHomomorphicInt → j • B ≠ -B := by
        intro j hj0 hj hjB
        have h1 : (j + 1) • B = 0 := by rw [add_smul, one_smul, hjB, neg_add_cancel]
        have := hB (j + 1) h1 (by rw [abs_le]; constructor <;> omega)
        omega
      refine ⟨⟨Function.update (Function.update t' (-B) (some (-i))) (i • B) (some i), i • B, i,
        false⟩, ?_, ?_⟩
      · simp only [discreteLog, hP, hs.unlocked, Bool.false_eq_true, if_false, hstart, hloop,
          show i ≠ MaxHomomorphicInt from ne_of_lt hi, hret]
      · refine ⟨rfl, hi0, hi, fun _ => rfl, ?_, ?_⟩
        · intro Q v hQ
          dsimp only at hQ ⊢
          by_cases hQi : Q = i • B
          · subst hQi
            simp only [Function.update_self, Option.some.injEq] at hQ
            exact Or.inl ⟨by rw [hQ], by omega, by omega⟩
          · rw [Function.update_of_ne hQi] at hQ
            by_cases hQB : Q = -B
            · subst hQB
              simp only [Function.update_self, Option.some.injEq] at hQ
              exact Or.inr ⟨rfl, hQ.symm⟩
            · rw [Function.update_of_ne hQB] at hQ
              rcases hinv'.sound Q v hQ with ⟨hv, hv0, hvm⟩ | ⟨hQB', -⟩
              · exact Or.inl ⟨hv, hv0, by omega⟩
              · exact absurd hQB' hQB
        · intro j hj0 hj
          dsimp only at hj ⊢
          have hji : j • B ≠ i • B := fun he =>
            absurd (hB.smul_inj he (by rw [abs_le]; constructor <;> omega)) (ne_of_lt hj)
          rw [Function.update_of_ne hji, Function.update_of_ne (hnegB j hj0 (by omega))]
          exact hinv'.complete j hj0 hj

/-- Sequential queries of nonnegative values below `MaxHomomorphicInt` all
return, each with its own value, whatever came before. -/
theorem runGetPointToInt_of_nonnegTable :
    ∀ (is : List ℤ) {s : DlogTable G}, NonnegTable B s →
      (∀ i ∈ is, 0 ≤ i ∧ i < MaxHomomorphicInt) →
      ∃ s', runGetPointToInt B (is.map (· • B)) s = .ok (is, s') ∧ NonnegTable B s'
  | [], s, hs, _ => ⟨s, rfl, hs⟩
  | i :: is, s, hs, hall => by
      obtain ⟨hi0, hi⟩ := hall i (by simp)
      obtain ⟨s₁, h₁, hs₁⟩ := discreteLog_of_nonnegTable hB hs hi0 hi
      obtain ⟨s₂, h₂, hs₂⟩ :=
        runGetPointToInt_of_nonnegTable is hs₁ (fun j hj => hall j (by simp [hj]))
      exact ⟨s₂, by simp [runGetPointToInt, getPointToInt, h₁, h₂], hs₂⟩

end Nonneg

/-! ### The `Neg(B)` entry

After any miss, `discreteLog` stores `Neg(B) ↦ -m` for the value `m` it just
decoded.  A first query of `0 • B` therefore stores `Neg(B) ↦ 0`, and a
second query of `(-1) • B` is answered from that entry with `0`. -/

/-- `GetPointToInt(0 • B)` then `GetPointToInt((-1) • B)` from the initial
state return `0` and `0`, in every group. -/
theorem getPointToInt_neg_base_after_zero (B : G) :
    (runGetPointToInt B [(0 : ℤ) • B, (-1 : ℤ) • B] DlogTable.initial).map Prod.fst =
      .ok [0, 0] := by
  have hloop : searchLoop B 0 false 100000 0 0 (fun _ => none) = (0, 0, fun _ => none) :=
    searchLoop_of_not_cond (by simp) _
  simp [runGetPointToInt, getPointToInt, discreteLog, DlogTable.initial, MaxHomomorphicInt, hloop,
    Function.update_apply]

end Decenarch
