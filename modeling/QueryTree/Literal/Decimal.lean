/-
The shortest decimal text of a floating-point value. Of all decimals that round to the value the
text is one on the coarsest decimal grid, and there the one nearest to the value, of two equally
near the larger. It is always positional: no exponent, and no point where there is no fraction.
-/
import QueryTree.Literal.Double

namespace QueryTree

/-- `digits · 10 ^ power`. -/
structure Decimal where
  digits : Nat
  power : Int
  deriving DecidableEq, Repr

namespace Decimal

/-! ## Comparison with a binary value -/

/-- The order of `d` and `n · 2 ^ e`, both brought to integers. -/
def compareBinary (d : Decimal) (n : Nat) (e : Int) : Ordering :=
  compare (d.digits * Nat.pow 10 d.power.toNat * Nat.pow 2 (-e).toNat)
    (n * Nat.pow 2 e.toNat * Nat.pow 10 (-d.power).toNat)

/-- `d` rounds to the finite value `x`, sign aside: it lies between the midpoints to the two
neighbours of `x`, or on one of them if the significand is even. Below a power of two the neighbour
is half as far. -/
def roundsTo (d : Decimal) (x : Double) : Bool :=
  let m := x.significand
  let below := if x.fraction = 0 && 1 < x.exponent then 4 * m - 1 else 4 * m - 2
  let low := d.compareBinary below (x.power - 2)
  let high := d.compareBinary (4 * m + 2) (x.power - 2)
  (low == .gt && high == .lt) || (m % 2 == 0 && (low == .eq || high == .eq))

/-! ## The shortest decimal -/

/-- The multiple of `10 ^ p` that is nearest to `x` among the two next to it that round to `x`. -/
def onGrid? (x : Double) (p : Int) : Option Decimal :=
  let floor := x.significand * Nat.pow 2 x.power.toNat * Nat.pow 10 (-p).toNat
    / (Nat.pow 2 (-x.power).toNat * Nat.pow 10 p.toNat)
  let down : Decimal := ⟨floor, p⟩
  let up : Decimal := ⟨floor + 1, p⟩
  let half : Decimal := ⟨10 * floor + 5, p - 1⟩
  match down.roundsTo x, up.roundsTo x with
  | true, true => some (if half.compareBinary x.significand x.power == .gt then down else up)
  | true, false => some down
  | false, true => some up
  | false, false => none

/-- The grids of all finite values, the coarsest first: no value reaches `10 ^ 309`, and any two
neighbours are more than `10 ^ (-324)` apart. -/
def grids : List Int := (List.range 634).map fun (i : Nat) => 309 - (i : Int)

/-- The shortest decimal that rounds to a finite value other than zero. -/
def shortest (x : Double) : Decimal := (grids.findSome? (onGrid? x)).getD ⟨0, 0⟩

/-! ## Text -/

/-- Digits before and after a point, without exponent. -/
def positional (d : Decimal) : String :=
  let digits := Nat.toDigits 10 d.digits
  let places := (-d.power).toNat
  let whole := digits ++ List.replicate d.power.toNat '0'
  if places = 0 then String.ofList whole
  else
    let padded := List.replicate (places + 1 - digits.length) '0' ++ digits
    let point := padded.length - places
    String.ofList (padded.take point ++ '.' :: padded.drop point)

end Decimal

/-- The text of a floating-point value. -/
def Double.toText (x : Double) : String :=
  if x.isNaN then "NaN"
  else (if x.isNegative then "-" else "")
    ++ if !x.isFinite then "inf" else if x.isZero then "0" else (Decimal.shortest x).positional

end QueryTree
