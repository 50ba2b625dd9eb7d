import PulseSequencer.Hardware
import PulseSequencer.Word

/-!
# Modulator instructions

* `tuningWord`, `frameWord`, `phaseWord` (`get_nco_set_frequency_arguments`, `get_nco_frame_arguments`,
  `get_nco_phase_arguments`) — frequencies and angles as fractions of a cycle with 28 fractional bits.
* `Modulator.setFrequency` (`set_frequency`) and the other instructions of the modulator.
-/

namespace PulseSequencer

/-- Steps in a cycle of an oscillator. -/
def ncoSteps : Nat := 1 <<< Hardware.ncoBits

/-- `x` modulo one cycle, from zero up to one; not a number for infinities. -/
def cycleFraction (x : Float) : Float :=
  match Binary64.ofFloat x with
  | .finite negative m =>
    let r := x - Float.ofInt (Binary64.signed negative m.floor)
    if r < 0.0 then r + 1.0 else if r == 0.0 then 0.0 else r
  | _ => 0.0 / 0.0

/-- The phase increment per cycle of the modulator, with the sign that the modulator takes. -/
def tuningWord (frequency : Float) : Except Fault Int :=
  nearestInt (-frequency / Hardware.fpgaClock * Float.ofNat ncoSteps)

/-- A fraction of a cycle in steps. -/
def cycleWord (fraction : Float) : Except Fault Int := do
  let n ← nearestInt (fraction * Float.ofNat ncoSteps)
  return n % ncoSteps

/-- A rotation of the frame by an angle in cycles, taken in the negative sense. -/
def frameWord (angle : Float) : Except Fault Int := cycleWord (cycleFraction (-angle))

/-- A phase in radians. -/
def phaseWord (phase : Float) : Except Fault Int :=
  cycleWord (cycleFraction (phase / fullTurn))

namespace Modulator

/-- The operation with a raw code. -/
def encode (code nco payload : Int) : Except Fault Word :=
  match ModulationOp.ofCode? code with
  | some op => Word.modulation op nco payload
  | none => .error (.unsupported (.modulation code))

/-- Zeros phase and frame. -/
def resetPhase (nco : Int) : Except Fault Word := Word.modulation .resetPhase nco 0

def setFrequency (nco : Int) (frequency : Float) : Except Fault Word := do
  Word.modulation .setFrequency nco (← tuningWord frequency)

def setPhase (nco : Int) (phase : Float) : Except Fault Word := do
  Word.modulation .setPhase nco (← phaseWord phase)

def updateFrame (nco : Int) (angle : Float) : Except Fault Word := do
  Word.modulation .updateFrame nco (← frameWord angle)

/-- Lets the oscillators run along an envelope of `count + 1` quanta. -/
def modulate (nco count : Int) : Except Fault Word := Word.modulation .modulate nco count

end Modulator

end PulseSequencer
