import PulseSequencer.Dac
import PulseSequencer.Fault

/-!
# Waveform memory

Waveform memory holds pairs of 16-bit values in the order in which they were stored.

* `Cell` — one pair.
* `Memory.allocate` (`WaveformMemory.allocate`) — appends cells and gives their start.
* `Memory.inPhase`, `Memory.quadrature` (`WaveformMemory.to_arrays`) — the images of both outputs.
-/

namespace PulseSequencer

/-- One stored sample. -/
structure Cell where
  inPhase : Int16
  quadrature : Int16
  deriving DecidableEq

def Cell.zero : Cell := ⟨0, 0⟩

/-- A level as it is stored; what is not a number is stored as zero. -/
def Level.stored (l : Level) : Int16 := Int16.ofInt (l.getD 0)

def DacSample.cell (s : DacSample) : Cell := ⟨s.inPhase.stored, s.quadrature.stored⟩

/-- A number as it is stored: cut toward zero to an integer of 32 bits, of which the low 16 are
kept. Numbers beyond 32 bits are stored as zero. -/
def storedFloat (x : Float) : Int16 :=
  match (Binary64.ofFloat x).truncate with
  | .ok n => if -0x80000000 ≤ n ∧ n < 0x80000000 then Int16.ofInt n else 0
  | .error _ => 0

def Sample.cell (s : Sample) : Cell := ⟨storedFloat s.re, storedFloat s.im⟩

/-- The memory image; `size` is where the next allocation starts. -/
structure Memory where
  cells : List Cell := []
  size : Int := 0

namespace Memory

/-- Appends cells, unless they do not fit, and gives the start of the allocation. -/
def allocate (m : Memory) (cells : List Cell) : Except Fault (Int × Memory) := do
  let size ← checkRange .memorySize (m.size + cells.length) Hardware.memoryCapacity 0
  return (m.size, ⟨m.cells ++ cells, size⟩)

/-- The image of the first analog output. -/
def inPhase (m : Memory) : List Int := m.cells.map (·.inPhase.toInt)

/-- The image of the second analog output. -/
def quadrature (m : Memory) : List Int := m.cells.map (·.quadrature.toInt)

end Memory

end PulseSequencer
