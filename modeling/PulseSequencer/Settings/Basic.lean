import PulseSequencer.Hardware

/-!
# Settings

For phase and for frequency offsets of analog pulses one of two policies is active: they are folded
into the samples, or the modulator applies them when the pulse is played.
-/

namespace PulseSequencer

structure Settings where
  /-- Apply the phase of a pulse by an instruction. -/
  phaseByInstruction : Bool := false
  /-- Apply the frequency offset of a pulse by instructions. -/
  frequencyByInstruction : Bool := false
  /-- The oscillators that drive the analog pair, one bit each. -/
  ncoSelect : Fin 16 := Hardware.ncoSelect
  /-- The oscillators that are reset before a trigger, one bit each. -/
  resetNcoSelect : Fin 16 := Hardware.resetNcoSelect
  deriving DecidableEq, Repr

end PulseSequencer
