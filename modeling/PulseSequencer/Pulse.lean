import PulseSequencer.Text.Quoted

/-!
# Pulses

A pulse has a duration, an amplitude, a phase, a frequency offset and a shape. Every pulse has a
number of its own, `uid`, under which its encoding is kept.

* `Shape` — square, listed samples, or a polynomial of the time.
* `Pulse.text`, `Frame.text` — as messages show them.
-/

namespace PulseSequencer

/-- A listed sample, written as a real or as a complex number. -/
inductive ShapeSample where
  | real (x : Float)
  | complex (re im : Float)

/-- The normalised form of a pulse. A polynomial is taken at the time in seconds times `scale`. -/
inductive Shape where
  | square
  | samples (values : List ShapeSample)
  | polynomial (coefficients : List Float) (scale : Float)

structure Pulse where
  uid : Nat
  label : String
  /-- Duration in seconds. -/
  length : Float
  amp : Float := 1.0
  /-- Phase in radians. -/
  phase : Float := 0.0
  /-- Offset in hertz from the carrier of the channel. -/
  frequency : Float := 0.0
  shape : Shape := .square

/-- A rotation of the phase frame of a channel by `angle` cycles, which takes no time. -/
structure Frame where
  angle : Float
  label : String := "Z"

def Shape.isSquare : Shape → Bool
  | .square => true
  | _ => false

def ShapeSample.text : ShapeSample → String
  | .real x => floatText x
  | .complex re im => complexText re im

def Shape.text : Shape → String
  | .square => "None"
  | .samples values => bracketed (values.map ShapeSample.text)
  | .polynomial _ _ => "Poly"

namespace Pulse

/-- A pulse as messages show it. -/
def text (p : Pulse) : String :=
  s!"Pulse(label={quoted p.label}, length={floatText p.length}, amp={floatText p.amp}, " ++
  s!"phase={floatText p.phase}, frequency={floatText p.frequency}, shape={p.shape.text})"

end Pulse

/-- A frame change as messages show it. -/
def Frame.text (f : Frame) : String :=
  s!"FramePulse(angle={floatText f.angle}, label={quoted f.label})"

end PulseSequencer
