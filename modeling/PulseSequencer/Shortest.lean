import PulseSequencer.Binary64

/-!
# The fewest decimal digits that read back

`Magnitude.shortest` gives a decimal `digits * 10 ^ scale` with as few digits as possible among those
that round to the same 64-bit float; of two such decimals the nearer is taken, and at equal
distance the even one.
-/

namespace PulseSequencer

/-- The number `digits * 10 ^ scale`. -/
structure Decimal where
  digits : Nat
  scale : Int
  deriving DecidableEq, Repr

/-- Moves trailing zeros of the digits into the scale. -/
def Decimal.trim (digits : Nat) (scale : Int) : Decimal :=
  if h : digits ≠ 0 ∧ digits % 10 = 0 then trim (digits / 10) (scale + 1) else ⟨digits, scale⟩
termination_by digits
decreasing_by omega

namespace Magnitude

/-- The number `p` with `10 ^ (p - 1) ≤ x < 10 ^ p`, for a positive `x` of the float range. -/
def decimalPoint (x : Magnitude) : Int :=
  ((Nat.toDigits 10 (x.numerator * Nat.pow 10 400 / x.denominator)).length : Int) - 400

/-- The decimal of the grid `10 ^ scale` that rounds to the float `x`, if there is one. All
quantities are measured in quarters of the spacing of `x`. -/
def onGrid? (x : Magnitude) (scale : Int) : Option Decimal :=
  let e := x.exponent - 2
  let unit := Nat.pow 10 (-scale).toNat <<< e.toNat
  let step := Nat.pow 10 scale.toNat <<< (-e).toNat
  let here := 4 * x.mantissa * unit
  let narrow := x.mantissa = 1 <<< 52 ∧ -1074 < x.exponent
  let low := (4 * x.mantissa - if narrow then 1 else 2) * unit
  let high := (4 * x.mantissa + 2) * unit
  let closed := x.mantissa % 2 = 0
  let inside (n : Nat) : Bool :=
    (low < n * step ∧ n * step < high) ∨ (closed ∧ (low = n * step ∨ n * step = high))
  let below := here / step
  let above := below + 1
  let lower : Option Decimal := if inside below then some (.trim below scale) else none
  let upper : Option Decimal := if inside above then some (.trim above scale) else none
  match lower, upper with
  | some l, some u =>
    let down := here - below * step
    let up := above * step - here
    if down < up ∨ (down = up ∧ below % 2 = 0) then some l else some u
  | some l, none => some l
  | none, u => u

/-- The decimal with the fewest digits that rounds to the positive float `x`. Seventeen digits
always suffice. -/
def shortest (x : Magnitude) : Decimal :=
  let p := x.decimalPoint
  ((List.range 17).findSome? fun (n : Nat) => x.onGrid? (p - 1 - n)).getD ⟨x.mantissa, 0⟩

end Magnitude

end PulseSequencer
