import PulseSequencer.Text.Quoted

/-!
# Channels

A channel is an output lane: an analog pair driven through the modulator at a carrier frequency, a
digital marker, or a lane of no particular kind. A frequency that is not a number is equal to none, so
analog channels carry a serial number by which such ones are told apart.

* `Channel.key` — two channels with the same key are the same channel.
* `Channel.text` — a channel as messages show it.
-/

namespace PulseSequencer

inductive Channel where
  | analog (label : String) (frequency : Float) (serial : Nat)
  | marker (label : String)
  | plain (label : String)

namespace Channel

def label : Channel → String
  | .analog l _ _ => l
  | .marker l => l
  | .plain l => l

def isAnalog : Channel → Bool
  | .analog _ _ _ => true
  | _ => false

inductive Kind where
  | analog
  | marker
  | plain
  deriving DecidableEq, Repr

/-- What tells frequencies apart. -/
inductive Tuning where
  | bits (b : UInt64)
  | undefined (serial : Nat)
  deriving DecidableEq, Repr

/-- The tuning of a frequency; both zeros have the same one. -/
def tuning (x : Float) (serial : Nat) : Tuning :=
  if x.isNaN then .undefined serial
  else if x.toBits = 0x8000000000000000 then .bits 0
  else .bits x.toBits

/-- What tells channels apart. -/
structure Key where
  kind : Kind
  label : String
  tuning : Tuning
  deriving DecidableEq, Repr

def key : Channel → Key
  | .analog l f n => ⟨.analog, l, Channel.tuning f n⟩
  | .marker l => ⟨.marker, l, .bits 0⟩
  | .plain l => ⟨.plain, l, .bits 0⟩

instance : BEq Channel := ⟨fun c d => c.key == d.key⟩

theorem beq_iff (c d : Channel) : (c == d) = true ↔ c.key = d.key := by
  change (c.key == d.key) = true ↔ _
  simp

theorem beq_self (c : Channel) : (c == c) = true := (beq_iff c c).2 rfl

/-- A channel as messages show it. -/
def text : Channel → String
  | .analog l f _ => s!"AnalogChannel(label={quoted l}, frequency={floatText f})"
  | .marker l => s!"MarkerChannel(label={quoted l})"
  | .plain l => s!"Channel(label={quoted l})"

end Channel

end PulseSequencer
