/-
Floating-point values of 64 bits, kept as their bits: which of them are finite, when two are equal
as numbers, and the one nearest to an integer.
-/

namespace QueryTree

/-- A floating-point value: one sign bit, eleven of exponent and fifty-two of fraction. -/
structure Double where
  bits : UInt64
  deriving DecidableEq, Repr

namespace Double

/-! ## Parts -/

def isNegative (x : Double) : Bool := Nat.pow 2 63 ≤ x.bits.toNat

def exponent (x : Double) : Nat := x.bits.toNat / Nat.pow 2 52 % Nat.pow 2 11

def fraction (x : Double) : Nat := x.bits.toNat % Nat.pow 2 52

def isFinite (x : Double) : Bool := x.exponent ≠ 2047

def isNaN (x : Double) : Bool := x.exponent = 2047 ∧ x.fraction ≠ 0

def isZero (x : Double) : Bool := x.exponent = 0 ∧ x.fraction = 0

/-- A finite value without its sign is `significand · 2 ^ power`. -/
def significand (x : Double) : Nat :=
  if x.exponent = 0 then x.fraction else Nat.pow 2 52 + x.fraction

def power (x : Double) : Int := (max x.exponent 1 : Nat) - 1075

/-! ## Equality as numbers -/

/-- Equality as numbers: no NaN equals anything, and the two zeros are equal. -/
def numEq (x y : Double) : Bool :=
  !x.isNaN && !y.isNaN && (x == y || (x.isZero && y.isZero))

/-! ## From integers -/

/-- `n / 2 ^ k` to the nearest integer, a half to the even one. -/
def roundedShift (n k : Nat) : Nat :=
  let q := n / Nat.pow 2 k
  let twice := 2 * (n % Nat.pow 2 k)
  if Nat.pow 2 k < twice || (twice == Nat.pow 2 k && q % 2 == 1) then q + 1 else q

/-- The bits of the value nearest to `n`, which is below `2 ^ 1023`. A significand rounded up to
`2 ^ 53` carries into the exponent. -/
def bitsOfNat (n : Nat) : Nat :=
  if n = 0 then 0
  else
    let top := n.log2
    let significand := if top ≤ 52 then n * Nat.pow 2 (52 - top) else roundedShift n (top - 52)
    (top + 1023) * Nat.pow 2 52 + (significand - Nat.pow 2 52)

/-- The value nearest to an integer. -/
def ofInt (n : Int) : Double :=
  ⟨UInt64.ofNat (bitsOfNat n.natAbs + if n < 0 then Nat.pow 2 63 else 0)⟩

end Double

end QueryTree
