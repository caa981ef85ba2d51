import Mathlib.Logic.Basic
import Mathlib.Data.List.Forall2

/-!
# Outcomes of a call that may panic or block

A call in a language with runtime panics and blocking synchronisation either
returns a value, stops the program with a panic (an index out of range, a
nil dereference), or never returns (it waits on a lock or a channel that no
one will release).  `Outcome` records which of the three happened; its bind
runs the continuation only after a normal return, so a panic or a block in
any step is the outcome of the whole sequence.
-/

universe u v

/-- The result of running a piece of code to completion. -/
inductive Outcome (α : Type u) where
  /-- The code returned normally with this value. -/
  | ok (a : α)
  /-- The code stopped the program with a runtime panic. -/
  | panic
  /-- The code waits forever. -/
  | block
  deriving DecidableEq, Repr

namespace Outcome

variable {α β γ : Type u}

/-- Run `f` on the value of a normal return. -/
def bind : Outcome α → (α → Outcome β) → Outcome β
  | ok a, f => f a
  | panic, _ => panic
  | block, _ => block

instance : Monad Outcome where
  pure := ok
  bind := bind

instance : LawfulMonad Outcome :=
  LawfulMonad.mk' Outcome (fun x => by cases x <;> rfl) (fun _ _ => rfl)
    (fun x _ _ => by cases x <;> rfl)

@[simp] theorem pure_eq (a : α) : (pure a : Outcome α) = ok a := rfl

@[simp] theorem ok_bind (a : α) (f : α → Outcome β) : (ok a >>= f) = f a := rfl

@[simp] theorem panic_bind (f : α → Outcome β) : (panic >>= f) = panic := rfl

@[simp] theorem block_bind (f : α → Outcome β) : (block >>= f) = block := rfl

/-- The one inversion lemma for sequencing: a sequence returns normally
exactly when its first part does and the rest returns from that value. -/
theorem bind_eq_ok {x : Outcome α} {f : α → Outcome β} {b : β} :
    (x >>= f) = ok b ↔ ∃ a, x = ok a ∧ f a = ok b := by
  cases x with
  | ok a => simp
  | panic => simp
  | block => simp

/-- Apply `f` to the value of a normal return. -/
def map {δ : Type v} (f : α → δ) : Outcome α → Outcome δ
  | ok a => ok (f a)
  | panic => panic
  | block => block

@[simp] theorem map_ok {δ : Type v} (f : α → δ) (a : α) : (ok a).map f = ok (f a) := rfl

@[simp] theorem map_panic {δ : Type v} (f : α → δ) : (panic : Outcome α).map f = panic := rfl

@[simp] theorem map_block {δ : Type v} (f : α → δ) : (block : Outcome α).map f = block := rfl

theorem map_eq_ok {δ : Type v} {f : α → δ} {x : Outcome α} {b : δ} :
    x.map f = ok b ↔ ∃ a, x = ok a ∧ f a = b := by
  cases x with
  | ok a => simp
  | panic => simp
  | block => simp

/-- A normal return, forgetting the value. -/
def returns : Outcome α → Prop
  | ok _ => True
  | _ => False

@[simp] theorem returns_ok (a : α) : (ok a).returns := trivial

@[simp] theorem not_returns_panic : ¬ (panic : Outcome α).returns := id

@[simp] theorem not_returns_block : ¬ (block : Outcome α).returns := id

/-- The value of a normal return, or `d`. -/
def getD : Outcome α → α → α
  | ok a, _ => a
  | _, d => d

@[simp] theorem getD_ok (a d : α) : (ok a).getD d = a := rfl

/-- Run a list of calls one after another, collecting the returned values. -/
def traverseList (f : α → Outcome β) : List α → Outcome (List β)
  | [] => ok []
  | a :: as => f a >>= fun b => traverseList f as >>= fun bs => ok (b :: bs)

@[simp] theorem traverseList_nil (f : α → Outcome β) : traverseList f [] = ok [] := rfl

theorem traverseList_cons (f : α → Outcome β) (a : α) (as : List α) :
    traverseList f (a :: as) =
      (f a >>= fun b => traverseList f as >>= fun bs => ok (b :: bs)) := rfl

/-- Calls that all return give the list of their values. -/
theorem traverseList_of_ok (f : α → Outcome β) (g : α → β) :
    ∀ as : List α, (∀ a ∈ as, f a = ok (g a)) → traverseList f as = ok (as.map g)
  | [], _ => rfl
  | a :: as, h => by
      have ha := h a (by simp)
      have hs := traverseList_of_ok f g as (fun x hx => h x (by simp [hx]))
      simp [traverseList_cons, ha, hs]

/-- Calls that each return a value related to their argument run, one after
another, to a list of such values. -/
theorem traverseList_of_forall_exists (f : α → Outcome β) {R : α → β → Prop} :
    ∀ as : List α, (∀ a ∈ as, ∃ b, f a = ok b ∧ R a b) →
      ∃ bs, traverseList f as = ok bs ∧ List.Forall₂ R as bs
  | [], _ => ⟨[], rfl, List.Forall₂.nil⟩
  | a :: as, h => by
      obtain ⟨b, hb, hR⟩ := h a (by simp)
      obtain ⟨bs, hbs, hall⟩ := traverseList_of_forall_exists f as fun x hx => h x (by simp [hx])
      exact ⟨b :: bs, by simp [traverseList_cons, hb, hbs], List.Forall₂.cons hR hall⟩

/-- A value that a list of calls returned is the value of one of the calls. -/
theorem exists_of_traverseList_eq_ok {f : α → Outcome β} :
    ∀ {as : List α} {bs : List β}, traverseList f as = ok bs → ∀ b ∈ bs, ∃ a ∈ as, f a = ok b
  | [], bs, h => by
      rw [traverseList_nil] at h
      cases h
      simp
  | a :: as, bs, h => by
      rw [traverseList_cons] at h
      obtain ⟨b, hb, h'⟩ := bind_eq_ok.mp h
      obtain ⟨bs', hbs', h''⟩ := bind_eq_ok.mp h'
      cases h''
      intro c hc
      rcases List.mem_cons.mp hc with rfl | hc
      · exact ⟨a, List.mem_cons_self, hb⟩
      · obtain ⟨a', ha', hfa'⟩ := exists_of_traverseList_eq_ok hbs' c hc
        exact ⟨a', List.mem_cons_of_mem a ha', hfa'⟩

/-- A left fold whose every step returns and keeps `I` returns with `I`. -/
theorem foldlM_ok_of_invariant {f : β → α → Outcome β} {I : β → Prop}
    (h : ∀ b a, I b → ∃ b', f b a = ok b' ∧ I b') :
    ∀ (as : List α) (b : β), I b → ∃ b', as.foldlM f b = ok b' ∧ I b'
  | [], b, hb => ⟨b, rfl, hb⟩
  | a :: as, b, hb => by
      obtain ⟨b₁, h₁, hI₁⟩ := h b a hb
      obtain ⟨b₂, h₂, hI₂⟩ := foldlM_ok_of_invariant h as b₁ hI₁
      exact ⟨b₂, by simp [List.foldlM_cons, h₁, h₂], hI₂⟩

end Outcome

/-- Every element on the right of `Forall₂ R` is related to one on the left. -/
theorem List.Forall₂.exists_of_mem_right {α β : Type*} {R : α → β → Prop} :
    ∀ {as : List α} {bs : List β}, List.Forall₂ R as bs → ∀ {b}, b ∈ bs → ∃ a ∈ as, R a b
  | _, _, .nil, _, hb => absurd hb List.not_mem_nil
  | a :: _, _ :: _, .cons hab h, _, hb => by
      rcases List.mem_cons.mp hb with rfl | hb
      · exact ⟨a, List.mem_cons_self, hab⟩
      · obtain ⟨a', ha', h'⟩ := h.exists_of_mem_right hb
        exact ⟨a', List.mem_cons_of_mem _ ha', h'⟩

/-- Lists related elementwise by `R` have the same images under maps that
agree on related elements. -/
theorem List.Forall₂.map_eq_map {α β γ : Type*} {R : α → β → Prop} {f : α → γ} {g : β → γ}
    (hfg : ∀ a b, R a b → f a = g b) {as : List α} {bs : List β} (h : List.Forall₂ R as bs) :
    as.map f = bs.map g := by
  have hmap : List.Forall₂ (· = ·) (as.map f) (bs.map g) :=
    List.forall₂_map_left_iff.mpr (List.forall₂_map_right_iff.mpr (h.imp hfg))
  rwa [List.forall₂_eq_eq_eq] at hmap

/-- Two elementwise relations between the same lists hold together. -/
theorem List.Forall₂.and {α β : Type*} {R Q : α → β → Prop} :
    ∀ {as : List α} {bs : List β}, List.Forall₂ R as bs → List.Forall₂ Q as bs →
      List.Forall₂ (fun a b => R a b ∧ Q a b) as bs
  | _, _, .nil, .nil => .nil
  | _, _, .cons hR hRs, .cons hQ hQs => .cons ⟨hR, hQ⟩ (hRs.and hQs)

/-- A relation through some middle element, held elementwise, is two
elementwise relations through a list of middle elements. -/
theorem List.Forall₂.exists_middle {α β γ : Type*} {P : α → β → Prop} {Q : β → γ → Prop} :
    ∀ {as : List α} {cs : List γ}, List.Forall₂ (fun a c => ∃ b, P a b ∧ Q b c) as cs →
      ∃ bs, List.Forall₂ P as bs ∧ List.Forall₂ Q bs cs
  | _, _, .nil => ⟨[], .nil, .nil⟩
  | _, _, .cons ⟨b, hP, hQ⟩ h => by
      obtain ⟨bs, hPs, hQs⟩ := h.exists_middle
      exact ⟨b :: bs, .cons hP hPs, .cons hQ hQs⟩

/-- Two elementwise relations through a middle list compose. -/
theorem List.Forall₂.comp {α β γ : Type*} {P : α → β → Prop} {Q : β → γ → Prop} :
    ∀ {as : List α} {bs : List β} {cs : List γ}, List.Forall₂ P as bs → List.Forall₂ Q bs cs →
      List.Forall₂ (fun a c => ∃ b, P a b ∧ Q b c) as cs
  | _, _, _, .nil, .nil => .nil
  | _, _, _, .cons hP hPs, .cons hQ hQs => .cons ⟨_, hP, hQ⟩ (hPs.comp hQs)

/-- Lists with equal images are related elementwise by the equality of the
images. -/
theorem List.forall₂_of_map_eq {α β γ : Type*} {f : α → γ} {g : β → γ} :
    ∀ {as : List α} {bs : List β}, as.map f = bs.map g → List.Forall₂ (fun a b => f a = g b) as bs
  | [], [], _ => .nil
  | a :: as, b :: bs, h => by
      rw [List.map_cons, List.map_cons, List.cons.injEq] at h
      exact .cons h.1 (List.forall₂_of_map_eq h.2)
  | [], _ :: _, h => absurd h (by simp)
  | _ :: _, [], h => absurd h (by simp)
