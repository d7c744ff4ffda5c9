import Mathlib.Data.Rat.Floor
import Mathlib.Algebra.Order.Ring.Rat

/-!
# Floating-point arithmetic

The arithmetic of `double` is a parameter of the model: `DoubleArith` lists the operations
the code performs and asks no law of them, and the instance at `ℚ` reads them as exact
rational arithmetic. `Double` rounds: its numbers have 53 significant bits, as those of binary64
that neither overflow nor underflow.
-/

namespace TieredKVCache

/-- The `double` operations of the code, with its conversions from and to `std::size_t`
and `std::uint64_t`. -/
class DoubleArith (D : Type) extends Zero D, Add D, Sub D, Mul D, Div D, LT D, LE D where
  ofSize : Nat → D
  toSize : D → Nat
  decLT : DecidableLT D
  decLE : DecidableLE D

instance DoubleArith.instDecidableLT {D : Type} [DoubleArith D] : DecidableLT D :=
  DoubleArith.decLT

instance DoubleArith.instDecidableLE {D : Type} [DoubleArith D] : DecidableLE D :=
  DoubleArith.decLE

instance : DoubleArith ℚ where
  ofSize n := n
  toSize q := ⌊q⌋.toNat
  decLT := inferInstance
  decLE := inferInstance

/-! ## Rounding -/

/-- `2 ^ e`. -/
def powTwo : Int → ℚ
  | .ofNat n => (2 ^ n : Nat)
  | .negSucc n => 1 / (2 ^ (n + 1) : Nat)

/-- The largest `e` with `2 ^ e ≤ q`, of a positive number. -/
def binaryExponent (q : ℚ) : Int :=
  let e : Int := (Nat.log2 q.num.natAbs : Int) - Nat.log2 q.den
  if q < powTwo e then e - 1 else e

/-- The nearest integer, and the even one of two. -/
def roundHalfEven (q : ℚ) : Int :=
  let rest := q - ⌊q⌋
  if rest < 1 / 2 then ⌊q⌋
  else if 1 / 2 < rest then ⌊q⌋ + 1
  else if ⌊q⌋ % 2 = 0 then ⌊q⌋
  else ⌊q⌋ + 1

/-- The nearest number with 53 significant bits. -/
def roundDouble (q : ℚ) : ℚ :=
  if q = 0 then 0
  else
    let ulp := powTwo (binaryExponent |q| - 52)
    roundHalfEven (q / ulp) * ulp

/-- A `double`, by the number it stands for. -/
structure Double where
  value : ℚ
deriving DecidableEq

instance : DoubleArith Double where
  zero := ⟨0⟩
  add x y := ⟨roundDouble (x.value + y.value)⟩
  sub x y := ⟨roundDouble (x.value - y.value)⟩
  mul x y := ⟨roundDouble (x.value * y.value)⟩
  div x y := ⟨roundDouble (x.value / y.value)⟩
  lt x y := x.value < y.value
  le x y := x.value ≤ y.value
  ofSize n := ⟨roundDouble n⟩
  toSize x := ⌊x.value⌋.toNat
  decLT x y := inferInstanceAs (Decidable (x.value < y.value))
  decLE x y := inferInstanceAs (Decidable (x.value ≤ y.value))

end TieredKVCache
