import PulseSequencer.Fault
import PulseSequencer.Hardware

/-!
# Lengths in samples

* `toSamples` (`to_samples`) — the number of samples nearest to a duration.
* `quantizeLength` (`quantize_length`) — a length rounded up to whole units, through the 64-bit float nearest
  to the quotient.
* `isQuantized` (`is_quantized`) — whether a length is a whole number of units.
* `quanta` — the quanta that cover a number of samples.
-/

namespace PulseSequencer

/-- The number of samples nearest to a duration in seconds, a half going to even. -/
def toSamples (duration rate : Float) : Except Fault Int := nearestInt (duration * rate)

/-- `unit` times the quotient rounded up. The quotient is first rounded to a 64-bit float, which is
exact enough for all lengths up to `2 ^ 53`. -/
def quantizeLength (samples unit : Int) : Except Fault Int :=
  if unit = 0 then .error .zeroUnit
  else
    let q := Magnitude.nearest samples.natAbs unit.natAbs
    if q.overflows then .error .quotientTooLarge
    else if (decide (samples < 0)) != (decide (unit < 0)) then .ok (unit * -(q.floor : Int))
    else .ok (unit * q.ceil)

def isQuantized (samples unit : Int) : Except Fault Bool :=
  if unit = 0 then .error .zeroModulus else .ok (samples % unit == 0)

/-- The number of quanta that cover `n` samples. -/
def quanta (n : Nat) : Nat := (n + (Hardware.quantum - 1)) / Hardware.quantum

end PulseSequencer
