import PulseSequencer.Library
import PulseSequencer.Log
import PulseSequencer.Memory
import PulseSequencer.Sampling

/-!
# Encoding of pulses

Encoders work on a session, which holds waveform memory, the library of records and the log. A failed
encoder leaves the session as it was when the failure was met.

* `encodeWaveform` (`encode_waveform`) — stores an analog pulse.
* `encodeMarker` (`encode_marker`) — the record of a digital pulse.
* `encodeWaveforms` (`create_wf_instrs`), `encodeMarkers` (`create_marker_instrs`) — lists of pulses, into
  the library.
-/

namespace PulseSequencer

structure Session where
  memory : Memory := {}
  library : Library := .empty
  log : Array Event := #[]

/-- A computation on a session that may fail. -/
abbrev Encoder := EStateM Fault Session

namespace Encoder

/-- Fails if the given result is a failure. -/
def ofExcept {α : Type} : Except Fault α → Encoder α
  | .ok a => pure a
  | .error f => throw f

def note (e : Event) : Encoder Unit := modify fun s => { s with log := s.log.push e }

/-- Stores cells in the memory of the session (`WaveformMemory.allocate`). -/
def allocate (cells : List Cell) : Encoder Int := do
  let (start, memory) ← ofExcept ((← get).memory.allocate cells)
  modify fun s => { s with memory := memory }
  return start

/-- Keeps the record of a pulse. -/
def keep (p : Pulse) (r : Record) : Encoder Unit :=
  modify fun s => { s with library := s.library.insert p.uid r }

end Encoder

/-- Whether both parts are numbers. -/
def DacSample.isNumber (s : DacSample) : Bool := s.inPhase.isSome && s.quadrature.isSome

/-- Whether all samples have the same levels. What is not a number differs from itself. -/
def isConstant : List DacSample → Bool
  | [] => true
  | s :: rest => s.isNumber && rest.all (· == s)

/-- What is stored of samples: one quantum if they are constant, else all of them, filled up with
zeros to whole quanta. -/
def storedCells (samples : List DacSample) : List Cell :=
  if isConstant samples then
    (samples.take 1).flatMap fun s => List.replicate Hardware.quantum s.cell
  else
    samples.map DacSample.cell ++
      List.replicate (Hardware.quantum * quanta samples.length - samples.length) Cell.zero

/-- Encodes an analog pulse and stores its samples (`encode_waveform`). The length is checked before the
warning, the count before memory changes, the address after it. -/
def encodeWaveform (settings : Settings) (p : Pulse) : Encoder Waveform := do
  let n ← .ofExcept (p.sampleCount Hardware.dacClock)
  let _ ← .ofExcept (checkRange (.pulseLength p.label) n Hardware.memoryCapacity 1)
  let samples := p.shapeLevels settings n
  let isTa := isConstant samples
  let q := quanta n
  if !isTa && Hardware.quantum * q != n then
    Encoder.note (.padded p.label n (Hardware.quantum * q))
  let count ← .ofExcept (checkRange (.pulseCount p.label) (q - 1) Layout.count.top 0)
  let start ← Encoder.allocate (storedCells samples)
  let address ← .ofExcept (checkRange .waveformAddress (start / Hardware.quantum) Layout.address.top 0)
  Encoder.note (.encoded p.label address count isTa)
  return ⟨address, count, isTa⟩

/-- Whether the marker output is high during a pulse. -/
def Pulse.isHigh (p : Pulse) : Bool := p.amp > 0.5

/-- The transition word of a marker with `left` samples after whole quanta (`RISING_TRANSITION_WORDS`,
`FALLING_TRANSITION_WORDS`). -/
def transitionWord (state : Bool) (left : Nat) : Nat :=
  ((if state then Hardware.rising else Hardware.falling)[left]?).getD 0

/-- Encodes a digital pulse for a marker output (`encode_marker`). -/
def encodeMarker (p : Pulse) (select : Int) : Except Fault Marker := do
  if select < 1 ∨ (Hardware.markerCount : Int) < select then
    throw (.channelMap (.markerIndex select p.label))
  let n ← toSamples p.length Hardware.dacClock
  let n ← checkRange (.markerLength p.label) n Hardware.maxMarkerLength 0
  let count ← checkRange (.markerCount p.label) (n / Hardware.quantum) Layout.quads.top 0
  return ⟨select, p.isHigh, count, transitionWord p.isHigh (n % Hardware.quantum).toNat⟩

/-- Encodes analog pulses in order; each is stored afresh (`create_wf_instrs`). -/
def encodeWaveforms (settings : Settings) (pulses : List Pulse) : Encoder Unit :=
  pulses.forM fun p => do
    let w ← encodeWaveform settings p
    Encoder.keep p (.waveform w)

/-- Encodes the digital pulses of a marker output in order (`create_marker_instrs`). -/
def encodeMarkers (select : Int) (pulses : List Pulse) : Encoder Unit :=
  pulses.forM fun p => do
    let m ← .ofExcept (encodeMarker p select)
    Encoder.keep p (.marker m)

end PulseSequencer
