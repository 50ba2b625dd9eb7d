import PulseSequencer.Word

/-!
# Instructions

An instruction is a word taken apart into header and payload, with a reading for every field.

* `Instruction.ofWord` (`Instruction.unflatten`), `Instruction.toWord` (`Instruction.flatten`).
* `Instruction.text` — the disassembly.
-/

namespace PulseSequencer

structure Instruction where
  header : Int
  payload : Int
  deriving DecidableEq, Repr

namespace Instruction

def ofWord (w : Int) : Instruction := ⟨Layout.header.get w, Layout.payload.get w⟩

/-- Joins header and payload; only the payload is cut to its width. -/
def toWord (i : Instruction) : Int := i.header * Layout.header.weight + Layout.payload.get i.payload

def opcode (i : Instruction) : Except Fault Opcode :=
  match Opcode.ofCode? (i.header / 16) with
  | some op => .ok op
  | none => .error (.unknownOpcode (i.header / 16))

def engine (i : Instruction) : Nat := Layout.engine.get i.header

def write (i : Instruction) : Bool := Layout.write.getFlag i.header

def waveformOp (i : Instruction) : WaveformOp := .ofCode (Layout.waveformOp.get i.payload)

def isTa (i : Instruction) : Bool := Layout.pair.getFlag i.payload

def count (i : Instruction) : Nat := Layout.count.get i.payload

def address (i : Instruction) : Nat := Layout.address.get i.payload

def markerSelect (i : Instruction) : Nat := i.engine + 1

def state (i : Instruction) : Bool := Layout.state.getFlag i.payload

def transition (i : Instruction) : Nat := Layout.transition.get i.payload

def quads (i : Instruction) : Nat := Layout.quads.get i.payload

def modulationOp (i : Instruction) : Except Fault ModulationOp :=
  let code := Layout.modulationOp.get i.payload
  match ModulationOp.ofCode? code with
  | some op => .ok op
  | none => .error (.unknownModulation code)

def nco (i : Instruction) : Nat := Layout.nco.get i.payload

/-- The signed payload of a modulator word. -/
def immediate (i : Instruction) : Int :=
  let n : Int := Layout.immediate.get i.payload
  if n < 0x80000000 then n else n - 0x100000000

def target (i : Instruction) : Nat := Layout.target.get i.payload

def comparison (i : Instruction) : CompareOp := .ofCode (Layout.comparison.get i.payload)

def comparand (i : Instruction) : Nat := Layout.comparand.get i.payload

/-- A flag as a digit. -/
def bit (b : Bool) : String := if b then "1" else "0"

/-- The part of the disassembly that waveform and marker words share. -/
def engineText (i : Instruction) : String :=
  s!"; engine={i.engine}, write={bit i.write} | {i.waveformOp.name}"

/-- The disassembly of an instruction. -/
def text (i : Instruction) : Except Fault String := do
  let op ← i.opcode
  match op with
  | .waveform =>
    return s!"{op.name}{i.engineText}; TA_bit={bit i.isTa}, count={i.count}, addr={i.address}"
  | .marker =>
    return s!"{op.name}{i.engineText}; state={bit i.state}, " ++
      s!"transition=0b{binaryText 4 i.transition}, count={i.quads}"
  | .modulator =>
    let m ← i.modulationOp
    let head := s!"{op.name} | {m.name}; nco_select=0x" ++ String.ofList (hexDigits i.nco)
    return if m = .resetPhase then head else s!"{head}, payload={i.immediate}"
  | .compare => return s!"{op.name} | {i.comparison.name}, value={i.comparand}"
  | .goto | .call | .decRepeat | .prefetch => return s!"{op.name} | target_addr={i.target}"
  | .loadRepeat => return s!"{op.name} | count={i.target}"
  | .wait | .ret | .sync | .loadCompare => return op.name

end Instruction

end PulseSequencer
