import PulseSequencer.Binary64
import PulseSequencer.Hardware

/-!
# Levels of the analog outputs

An analog output has the levels from `-8191` to `8191`. A number `x` is given the level nearest to
`8191 * x`: the product is rounded to a 64-bit float, then to an integer, each with a half going to
even, and the result is cut to the range.

* `Sample` — a complex sample.
* `Level` — a level, or none for what is not a number.
* `Sample.clamp` (`clamp_to_dac`) — the levels of both parts of a sample.
-/

namespace PulseSequencer

/-- A complex sample before it is given a level. -/
structure Sample where
  re : Float
  im : Float

/-- The sample of a square pulse. -/
def Sample.one : Sample := ⟨1.0, 0.0⟩

/-- The product of complex numbers, each operation rounded. -/
def Sample.mul (a b : Sample) : Sample :=
  ⟨a.re * b.re - a.im * b.im, a.re * b.im + a.im * b.re⟩

/-- The rotation by an angle in radians; at zero it is exactly one. -/
def Sample.rotation (angle : Float) : Sample :=
  if angle == 0.0 then ⟨1.0, angle⟩ else ⟨angle.cos, angle.sin⟩

/-- A level of an output; `none` for what is not a number. -/
abbrev Level := Option Int

/-- The level of a number. -/
def Binary64.level : Binary64 → Level
  | .nan => none
  | .infinite negative => some (signed negative Hardware.maxLevel)
  | .finite negative x =>
    let product : Magnitude := ⟨Hardware.maxLevel * x.mantissa, x.exponent⟩
    some (signed negative (min Hardware.maxLevel product.fit.round))

/-- The levels of the two outputs of an analog pair. -/
structure DacSample where
  inPhase : Level
  quadrature : Level
  deriving DecidableEq, Repr

/-- The levels of a sample. A quadrature part that is not a number spoils both parts. -/
def Sample.clamp (s : Sample) : DacSample :=
  match (Binary64.ofFloat s.im).level with
  | none => ⟨none, none⟩
  | some q => ⟨(Binary64.ofFloat s.re).level, some q⟩

end PulseSequencer
