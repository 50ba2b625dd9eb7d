import PulseSequencer.Rounding

/-!
# Binary floating-point numbers, read exactly

A 64-bit float is a sign and a magnitude `mantissa * 2 ^ exponent`, an infinity, or not a number.

* `Magnitude` — a non-negative dyadic number, with its nearest, lower and upper integers.
* `Magnitude.fit`, `Magnitude.nearest` — the 53-bit magnitude nearest to a magnitude or a quotient, a
  half going to even.
* `Binary64.ofFloat` — the exact reading of a float.
* `Binary64.nearestInt` — the nearest integer; there is none for infinities and non-numbers.
-/

namespace PulseSequencer

/-- The non-negative number `mantissa * 2 ^ exponent`. -/
structure Magnitude where
  mantissa : Nat
  exponent : Int
  deriving DecidableEq, Repr

namespace Magnitude

/-- Numerator over `denominator`. -/
def numerator (x : Magnitude) : Nat := x.mantissa <<< x.exponent.toNat

def denominator (x : Magnitude) : Nat := 1 <<< (-x.exponent).toNat

/-- The nearest integer, a half going to even. -/
def round (x : Magnitude) : Nat :=
  match x.exponent with
  | .ofNat e => x.mantissa <<< e
  | .negSucc e => roundQuotient x.mantissa (1 <<< (e + 1))

/-- The largest integer that is not above. -/
def floor (x : Magnitude) : Nat := x.numerator / x.denominator

/-- The smallest integer that is not below. -/
def ceil (x : Magnitude) : Nat := (x.numerator + x.denominator - 1) / x.denominator

/-- The magnitude nearest to `x` that has a mantissa of 53 bits, a half going to even. Below the
normal range the spacing stays at `2 ^ (-1074)`; above it the exponent is not bounded. -/
def fit (x : Magnitude) : Magnitude :=
  let dropped := max (x.mantissa.log2 - 52) (-1074 - x.exponent).toNat
  ⟨roundQuotient x.mantissa (1 <<< dropped), x.exponent + dropped⟩

/-- The exponent `k` with `2 ^ k ≤ num / den < 2 ^ (k + 1)`, for positive `num` and `den`. -/
def binaryExponent (num den : Nat) : Int :=
  let k : Int := (num.log2 : Int) - (den.log2 : Int)
  if num <<< (-k).toNat < den <<< k.toNat then k - 1 else k

/-- The magnitude nearest to `num / den` in the sense of `fit`. -/
def nearest (num den : Nat) : Magnitude :=
  if num = 0 then ⟨0, 0⟩
  else
    let e := max (-1074) (binaryExponent num den - 52)
    ⟨roundQuotient (num <<< (-e).toNat) (den <<< e.toNat), e⟩

/-- Whether the magnitude is too large for a 64-bit float. -/
def overflows (x : Magnitude) : Bool := x.denominator <<< 1024 ≤ x.numerator

end Magnitude

/-- What the bits of a float denote. -/
inductive Binary64 where
  | nan
  | infinite (negative : Bool)
  | finite (negative : Bool) (magnitude : Magnitude)
  deriving DecidableEq, Repr

/-- Why a float has no nearest integer. -/
inductive NoInteger where
  | nan
  | infinite
  deriving DecidableEq, Repr

namespace Binary64

/-- Splits the bits of a float into sign, exponent and mantissa. -/
def ofBits (bits : UInt64) : Binary64 :=
  let negative := bits >>> 63 == 1
  let biased : Nat := ((bits >>> 52) &&& 0x7ff).toNat
  let fraction : Nat := (bits &&& 0xfffffffffffff).toNat
  if biased = 2047 then
    if fraction = 0 then .infinite negative else .nan
  else if biased = 0 then .finite negative (if fraction = 0 then ⟨0, 0⟩ else ⟨fraction, -1074⟩)
  else .finite negative ⟨0x10000000000000 + fraction, (biased : Int) - 1075⟩

def ofFloat (x : Float) : Binary64 := if x.isNaN then .nan else ofBits x.toBits

/-- `n` with a sign. -/
def signed (negative : Bool) (n : Nat) : Int := if negative then -(n : Int) else n

/-- The nearest integer, a half going to even. -/
def nearestInt : Binary64 → Except NoInteger Int
  | .nan => .error .nan
  | .infinite _ => .error .infinite
  | .finite negative x => .ok (signed negative x.round)

/-- The integer part, toward zero. -/
def truncate : Binary64 → Except NoInteger Int
  | .nan => .error .nan
  | .infinite _ => .error .infinite
  | .finite negative x => .ok (signed negative x.floor)

end Binary64

/-- One cycle in radians. -/
def fullTurn : Float := 2.0 * 3.141592653589793

end PulseSequencer
