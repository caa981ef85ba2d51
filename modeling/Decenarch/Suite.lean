import Mathlib.Algebra.Module.Basic
import Mathlib.Algebra.Field.ZMod
import Mathlib.Algebra.Field.Rat
import Decenarch.Lib.ElGamal

/-!
# The cryptographic suite

The repository computes with `decenarch.Suite` (the cothority suite on
edwards25519) and calls kyber's Schnorr signatures, DLEQ proofs and point
encoding, none of which is in the repository.  A `Suite` collects those
primitives as parameters.  Points are a module `G` over the scalar field `F`
(the prime-order group and its field); `Proof` is the type of DLEQ proofs.

Go functions that return an `error` return `Option String` here: `none` is a
nil error.  What the repository relies on about each primitive is stated
below as a named property of the suite (`SchnorrComplete`, `DLEQSound`, ...);
a theorem assumes exactly the properties it needs.
-/

namespace Decenarch

/-- A Go `[]byte`. -/
abbrev Bytes := List UInt8

/-- The primitives of kyber and of the cothority suite that the repository
calls. -/
structure Suite (F G Proof : Type*) where
  /-- `Suite.Point().Base()`. -/
  Base : G
  /-- `Point.MarshalBinary()`. -/
  MarshalBinary : G → Bytes
  /-- The point that `Point.UnmarshalBinary(b)` leaves in its receiver. -/
  UnmarshalBinary : Bytes → G
  /-- Whether `Point.UnmarshalBinary(b)` returns a non-nil error. -/
  UnmarshalFails : Bytes → Bool
  /-- `Point.String()`. -/
  PointString : G → String
  /-- `Suite.Hash().Sum(b)`: `b` followed by the digest of the empty input. -/
  HashSum : Bytes → Bytes
  /-- `schnorr.Sign(suite, private, msg)`. -/
  SchnorrSign : F → Bytes → Bytes
  /-- `schnorr.Verify(suite, public, msg, sig)`. -/
  SchnorrVerify : G → Bytes → Bytes → Option String
  /-- `dleq.NewDLEQProof(suite, G, H, x)`, which proves `log_G (x G) = log_H (x H)`. -/
  NewDLEQProof : G → G → F → Proof
  /-- `proof.Verify(suite, G, H, xG, xH)`. -/
  DLEQVerify : Proof → G → G → G → G → Option String

variable {F G Proof : Type*} [Field F] [AddCommGroup G] [Module F G]

namespace Suite

variable (S : Suite F G Proof)

/-- A Schnorr signature made with `x` verifies under `x • B`. -/
def SchnorrComplete : Prop :=
  ∀ (x : F) (m : Bytes), S.SchnorrVerify (x • S.Base) m (S.SchnorrSign x m) = none

/-- A DLEQ proof made with `x` verifies for the points `x • g` and `x • h`. -/
def DLEQComplete : Prop :=
  ∀ (g h : G) (x : F), S.DLEQVerify (S.NewDLEQProof g h x) g h (x • g) (x • h) = none

/-- A point encodes to 32 bytes that decode, without error, to the point. -/
def MarshalRoundTrip : Prop :=
  ∀ P : G, (S.MarshalBinary P).length = 32 ∧ S.UnmarshalBinary (S.MarshalBinary P) = P ∧
    S.UnmarshalFails (S.MarshalBinary P) = false

/-- Distinct points have distinct strings. -/
def PointStringInjective : Prop :=
  Function.Injective S.PointString

/-! ## A suite in which every property holds

The field with seven elements acts on itself, with base point `1`.  A DLEQ
proof is its witness scalar and a Schnorr signature is the signer's scalar,
so completeness and soundness hold by construction; a point encodes as its
value in the first of 32 bytes.  Witnesses evaluate the model in this
suite, which shows that the properties a theorem assumes can hold together. -/

instance : Fact (Nat.Prime 7) := ⟨by decide⟩

/-- The suite on `ZMod 7`. -/
def zmod7 : Suite (ZMod 7) (ZMod 7) (ZMod 7) where
  Base := 1
  MarshalBinary P := P.val.toUInt8 :: List.replicate 31 0
  UnmarshalBinary b := ((b.headD 0).toNat : ZMod 7)
  UnmarshalFails _ := false
  PointString P := toString P.val
  HashSum b := b ++ [0]
  SchnorrSign x _ := [x.val.toUInt8]
  SchnorrVerify X _ sig := if sig = [X.val.toUInt8] then none else some "schnorr: invalid signature"
  NewDLEQProof _ _ x := x
  DLEQVerify x g h xg xh := if x • g = xg ∧ x • h = xh then none else some "invalid proof"

theorem zmod7_schnorrComplete : zmod7.SchnorrComplete := by
  intro x m
  simp [zmod7]

theorem zmod7_dleqComplete : zmod7.DLEQComplete := by
  intro g h x
  simp [zmod7]

theorem zmod7_marshalRoundTrip : zmod7.MarshalRoundTrip := by
  intro P
  refine ⟨by simp [zmod7], ?_, rfl⟩
  revert P
  decide

/-- A suite on `ℚ`, whose base point `1` has infinite order, for the
witnesses that decode values up to `MaxHomomorphicInt`.  A DLEQ proof is its
witness scalar, as in `zmod7`; the encodings are not used. -/
def rat : Suite ℚ ℚ ℚ where
  Base := 1
  MarshalBinary _ := List.replicate 32 0
  UnmarshalBinary _ := 0
  UnmarshalFails _ := false
  PointString P := toString P
  HashSum b := b ++ [0]
  SchnorrSign _ _ := []
  SchnorrVerify _ _ _ := none
  NewDLEQProof _ _ x := x
  DLEQVerify x g h xg xh := if x • g = xg ∧ x • h = xh then none else some "invalid proof"

end Suite

end Decenarch
