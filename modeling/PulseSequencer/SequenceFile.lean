import PulseSequencer.Program

/-!
# Sequence files

The content of a sequence file: instructions of 64 bits and the memory images of both analog outputs
in 16 bits.

* `SequenceFile.ofInts?` — from integers, if all of them fit.
-/

namespace PulseSequencer

structure SequenceFile where
  instructions : List UInt64
  inPhase : List Int16
  quadrature : List Int16

/-- An instruction of 64 bits. -/
def instruction64? (n : Int) : Option UInt64 :=
  if 0 ≤ n ∧ n < 0x10000000000000000 then some (UInt64.ofNat n.toNat) else none

/-- A stored value of 16 bits. -/
def stored16? (n : Int) : Option Int16 :=
  if -0x8000 ≤ n ∧ n < 0x8000 then some (Int16.ofInt n) else none

namespace SequenceFile

/-- The file with the given numbers, if all of them fit. -/
def ofInts? (instructions inPhase quadrature : List Int) : Option SequenceFile := do
  let words ← instructions.mapM instruction64?
  let i ← inPhase.mapM stored16?
  let q ← quadrature.mapM stored16?
  return ⟨words, i, q⟩

/-- The file of a compiled sequence. -/
def ofProgram? (p : Program) : Option SequenceFile :=
  ofInts? (p.words.map Int.ofNat) p.memory.inPhase p.memory.quadrature

end SequenceFile

end PulseSequencer
