import PulseSequencer.Text.Quoted

/-!
# The log

What is worth a note while a sequence is compiled, with severity and wording.
-/

namespace PulseSequencer

inductive Severity where
  | debug
  | info
  | warning
  deriving DecidableEq, Repr

/-- A note of the log. -/
inductive Event where
  /-- A pulse of `samples` was filled up with zeros. -/
  | padded (label : String) (samples filled : Nat)
  | encoded (label : String) (address count : Int) (isTa : Bool)
  | serialized (words : Nat) (durations : List Int)
  | compiled (words : Nat) (samples : Int)
  deriving DecidableEq, Repr

namespace Event

def severity : Event → Severity
  | .padded _ _ _ => .warning
  | .encoded _ _ _ _ => .debug
  | .serialized _ _ => .debug
  | .compiled _ _ => .info

def flagText (b : Bool) : String := if b then "True" else "False"

def text : Event → String
  | .padded label samples filled =>
    s!"Pulse {quoted label} has {samples} samples, which is not a multiple of 4; " ++
    s!"padding with zeros to {filled}."
  | .encoded label address count isTa =>
    s!"Encoded pulse {quoted label}: addr={address}, count={count}, " ++
    s!"isTA={flagText isTa}."
  | .serialized words durations =>
    s!"Serialized pulse block into {words} instructions; " ++
    s!"channel durations {bracketed (durations.map toString)} quanta."
  | .compiled words samples => s!"Compiled {words} instructions and {samples} waveform samples."

end Event

end PulseSequencer
