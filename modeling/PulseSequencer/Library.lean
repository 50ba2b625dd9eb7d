import PulseSequencer.Word

/-!
# Encoded pulses

* `Waveform`, `Marker` — what is kept of an encoded pulse.
* `Record.word` — the word that plays it.
* `Library` (`InstructionLibrary`) — the records by the number of their pulse.
-/

namespace PulseSequencer

/-- An analog pulse in waveform memory. -/
structure Waveform where
  /-- Start in quanta. -/
  address : Int
  /-- Duration in quanta, less one. -/
  count : Int
  /-- A constant pulse: one quantum is stored and played for the whole duration. -/
  isTa : Bool
  deriving DecidableEq, Repr

/-- A digital pulse. -/
structure Marker where
  /-- The marker output, counted from one. -/
  select : Int
  state : Bool
  /-- Duration in whole quanta. -/
  count : Int
  /-- Where in the last quantum the output changes. -/
  transition : Nat
  deriving DecidableEq, Repr

/-- The word that plays a waveform. The count field is that of the stored quanta. -/
def Waveform.word (w : Waveform) : Word :=
  Word.waveform w.address (if w.isTa then 0 else w.count) w.isTa true

/-- The word that plays a marker. -/
def Marker.word (m : Marker) : Word := Word.marker m.select m.state m.count m.transition true

inductive Record where
  | waveform (w : Waveform)
  | marker (m : Marker)
  deriving DecidableEq, Repr

namespace Record

def count : Record → Int
  | .waveform w => w.count
  | .marker m => m.count

def word : Record → Word
  | .waveform w => w.word
  | .marker m => m.word

end Record

/-- The records of pulses, by pulse number. -/
abbrev Library := Table Nat Record

/-- The record of a pulse. -/
def Library.record (lib : Library) (p : Pulse) : Except Fault Record :=
  match lib.find? p.uid with
  | some r => .ok r
  | none => .error (.notEncoded p)

end PulseSequencer
