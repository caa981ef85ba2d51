import Mathlib.LinearAlgebra.Lagrange

/-!
# Interpolation at zero, in the exponent

A threshold scheme shares a secret `f(0)` as the values `f(x i)` of a
polynomial of degree below the threshold, and recovers a point `f(0) • P`
from the points `f(x i) • P` of as many nodes as the threshold: the value at
zero is a fixed linear combination of the values at the nodes.  The weight
of a node is the one of Lagrange's basis polynomial at zero, computed as
threshold implementations compute it, as the product of the other nodes over
the product of their differences to it.

The identity is Mathlib's `Lagrange.eq_interpolate` evaluated at zero.  The
weights also sum to one, so the combination of points `C - v i • K` is
`C - (∑ w i * v i) • K`: recovering a partial decryption interpolates the
shares `v i`, whichever they are.
-/

open Polynomial Finset

namespace Shamir

variable {F G ι : Type*} [Field F] [AddCommGroup G] [Module F G] [DecidableEq ι]

/-- The weight of the node `i` in the value at zero of an interpolation over
the nodes `x j`, `j ∈ s`. -/
def weightAtZero (s : Finset ι) (x : ι → F) (i : ι) : F :=
  (∏ j ∈ s.erase i, x j) / ∏ j ∈ s.erase i, (x j - x i)

/-- The value at zero, in the exponent, of the points `(x i, y i)`,
`i ∈ s`. -/
def interpolateAtZero (s : Finset ι) (x : ι → F) (y : ι → G) : G :=
  ∑ i ∈ s, weightAtZero s x i • y i

variable {s : Finset ι} {x : ι → F}

theorem interpolateAtZero_congr {y y' : ι → G} (h : ∀ i ∈ s, y i = y' i) :
    interpolateAtZero s x y = interpolateAtZero s x y' :=
  Finset.sum_congr rfl fun i hi => by rw [h i hi]

/-- The weight of a node is the value at zero of its Lagrange basis
polynomial. -/
theorem weightAtZero_eq_eval_basis (i : ι) :
    weightAtZero s x i = (Lagrange.basis s x i).eval 0 := by
  rw [weightAtZero, Lagrange.basis, eval_prod, ← prod_div_distrib]
  refine prod_congr rfl fun j _ => ?_
  rw [Lagrange.basisDivisor, eval_mul, eval_C, eval_sub, eval_X, eval_C, zero_sub,
    ← neg_sub (x j) (x i), inv_neg, div_eq_mul_inv]
  ring

/-- The weights interpolate every polynomial of degree below the number of
nodes. -/
theorem sum_weightAtZero_mul_eval (hx : Set.InjOn x s) {p : F[X]} (hp : p.degree < #s) :
    ∑ i ∈ s, weightAtZero s x i * p.eval (x i) = p.eval 0 := by
  conv_rhs => rw [Lagrange.eq_interpolate hx hp]
  rw [Lagrange.interpolate_apply, eval_finsetSum]
  refine sum_congr rfl fun i _ => ?_
  rw [eval_mul, eval_C, weightAtZero_eq_eval_basis, mul_comm]

theorem sum_weightAtZero (hx : Set.InjOn x s) (hs : s.Nonempty) :
    ∑ i ∈ s, weightAtZero s x i = 1 := by
  have hdeg : (1 : F[X]).degree < #s := by
    rw [degree_one]
    exact_mod_cast card_pos.mpr hs
  simpa using sum_weightAtZero_mul_eval hx hdeg

/-- Interpolating the points `C - v i • K` interpolates the scalars `v i`. -/
theorem interpolateAtZero_sub_smul (hx : Set.InjOn x s) (hs : s.Nonempty) (C K : G) (v : ι → F) :
    interpolateAtZero s x (fun i => C - v i • K) = C - (∑ i ∈ s, weightAtZero s x i * v i) • K := by
  simp only [interpolateAtZero, smul_sub, sum_sub_distrib, smul_smul]
  rw [← sum_smul, sum_weightAtZero hx hs, one_smul, ← sum_smul]

end Shamir
