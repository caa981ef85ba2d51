import Mathlib.Logic.Relation
import Mathlib.Data.List.Basic

/-!
# Transition systems

A system is a set of initial states and a labelled step relation.  This
module fixes what a reachable state is, the induction rule for invariants of
reachable states, and runs: the finite sequences of labels that lead from one
state to another.  For a system whose step is a function of the label, a run
is a left fold, and the same invariant rule is stated for folds.
-/

namespace Transition

variable {σ L : Type*}

/-- The states reachable from `init` through any number of `step`s. -/
inductive Reachable (init : σ → Prop) (step : σ → L → σ → Prop) : σ → Prop where
  | init {s : σ} : init s → Reachable init step s
  | step {s s' : σ} {l : L} : Reachable init step s → step s l s' → Reachable init step s'

/-- A finite run: the labels `ls`, taken in order, lead from `s` to `s'`. -/
inductive Run (step : σ → L → σ → Prop) : σ → List L → σ → Prop where
  | nil (s : σ) : Run step s [] s
  | cons {s s₁ s' : σ} {l : L} {ls : List L} :
      step s l s₁ → Run step s₁ ls s' → Run step s (l :: ls) s'

section Relation

variable {init : σ → Prop} {step : σ → L → σ → Prop}

/-- The invariant rule: a property of the initial states that every step
keeps holds of every reachable state. -/
theorem Reachable.invariant {I : σ → Prop} (h0 : ∀ s, init s → I s)
    (hstep : ∀ s l s', I s → step s l s' → I s') {s : σ}
    (hs : Reachable init step s) : I s := by
  induction hs with
  | init h => exact h0 _ h
  | step _ hst ih => exact hstep _ _ _ ih hst

/-- The invariant rule where each step may also use that its source state
is reachable (so that other invariants, proved before, apply to it). -/
theorem Reachable.invariant_of_reachable {I : σ → Prop} (h0 : ∀ s, init s → I s)
    (hstep : ∀ s l s', Reachable init step s → I s → step s l s' → I s') {s : σ}
    (hs : Reachable init step s) : I s := by
  induction hs with
  | init h => exact h0 _ h
  | step hr hst ih => exact hstep _ _ _ hr ih hst

theorem Run.append {s s₁ s' : σ} {ls ms : List L} (h₁ : Run step s ls s₁)
    (h₂ : Run step s₁ ms s') : Run step s (ls ++ ms) s' := by
  induction h₁ with
  | nil => exact h₂
  | cons hst _ ih => exact Run.cons hst (ih h₂)

/-- The end of a run from a reachable state is reachable. -/
theorem Run.reachable {s s' : σ} {ls : List L} (hr : Run step s ls s')
    (hs : Reachable init step s) : Reachable init step s' := by
  induction hr with
  | nil => exact hs
  | cons hst _ ih => exact ih (Reachable.step hs hst)

/-- No step leaves `s`: every run that reaches `s` ends there. -/
def Stuck (step : σ → L → σ → Prop) (s : σ) : Prop := ∀ l s', ¬ step s l s'

/-- A measure that every step decreases bounds the length of every run:
the system has no infinite run, whatever the order of its steps. -/
theorem Run.length_add_le {μ : σ → ℕ} (hμ : ∀ s l s', step s l s' → μ s' < μ s) {s s' : σ}
    {ls : List L} (h : Run step s ls s') : ls.length + μ s' ≤ μ s := by
  induction h with
  | nil => simp
  | cons hst _ ih =>
      have := hμ _ _ _ hst
      rw [List.length_cons]
      omega

/-- With a measure that every step decreases, every state has a run to a
state that no step leaves: taking steps in any order, the system ends. -/
theorem exists_run_stuck {μ : σ → ℕ} (hμ : ∀ s l s', step s l s' → μ s' < μ s) (s : σ) :
    ∃ ls s', Run step s ls s' ∧ Stuck step s' := by
  by_cases hs : Stuck step s
  · exact ⟨[], s, Run.nil s, hs⟩
  · obtain ⟨l, s₁, hst⟩ : ∃ l s₁, step s l s₁ := by
      simpa [Stuck] using hs
    obtain ⟨ls, s', hr, hs'⟩ := exists_run_stuck hμ s₁
    exact ⟨l :: ls, s', Run.cons hst hr, hs'⟩
termination_by μ s
decreasing_by exact hμ _ _ _ hst

end Relation

/-! ## Simulation

A relation `R` between the states of two systems on the same labels is a
simulation when every step from a state is matched, with the same label, by
a step from each related state, to related states.  Reachable states and
runs then carry over. -/

section Simulation

variable {τ : Type*} {init : σ → Prop} {step : σ → L → σ → Prop} {init' : τ → Prop}
  {step' : τ → L → τ → Prop} {R : σ → τ → Prop}
  (hsim : ∀ s t l s', R s t → step s l s' → ∃ t', step' t l t' ∧ R s' t')
include hsim

/-- A run is matched, label by label, by a run from every related state. -/
theorem Run.simulate {s s' : σ} {ls : List L} (h : Run step s ls s') {t : τ} (hR : R s t) :
    ∃ t', Run step' t ls t' ∧ R s' t' := by
  induction h generalizing t with
  | nil => exact ⟨t, Run.nil t, hR⟩
  | cons hst _ ih =>
      obtain ⟨t₁, hst', hR₁⟩ := hsim _ _ _ _ hR hst
      obtain ⟨t', hrun, hR'⟩ := ih hR₁
      exact ⟨t', Run.cons hst' hrun, hR'⟩

/-- Every reachable state is related to a reachable state, when every
initial state is related to an initial state. -/
theorem Reachable.simulate (hinit : ∀ s, init s → ∃ t, init' t ∧ R s t) {s : σ}
    (hs : Reachable init step s) : ∃ t, Reachable init' step' t ∧ R s t := by
  induction hs with
  | init h =>
      obtain ⟨t, ht, hR⟩ := hinit _ h
      exact ⟨t, Reachable.init ht, hR⟩
  | step _ hst ih =>
      obtain ⟨t, ht, hR⟩ := ih
      obtain ⟨t', hst', hR'⟩ := hsim _ _ _ _ hR hst
      exact ⟨t', Reachable.step ht hst', hR'⟩

end Simulation

section Function

variable {next : σ → L → σ}

/-- The invariant rule for a system whose step is the function `next`: a run
is the fold of `next` over its labels. -/
theorem foldl_invariant {I : σ → Prop} (hstep : ∀ s l, I s → I (next s l)) :
    ∀ (ls : List L) (s : σ), I s → I (ls.foldl next s)
  | [], _, h => h
  | l :: ls, s, h => foldl_invariant hstep ls (next s l) (hstep s l h)

/-- A fold of `next` is a run of the step relation `next s l = s'`. -/
theorem run_foldl :
    ∀ (ls : List L) (s : σ), Run (fun s l s' => next s l = s') s ls (ls.foldl next s)
  | [], s => Run.nil s
  | l :: ls, s => Run.cons rfl (run_foldl ls (next s l))

end Function

end Transition
