import PulseSequencer.Fault
import PulseSequencer.Field
import PulseSequencer.Opcode

/-!
# Instruction words

A word has a header of eight bits (opcode, engine select, write bit) above a payload of 56 bits whose
fields depend on the opcode. Values wider than their field lose their high bits; only modulator
payloads are refused.

* `Layout` — the fields.
* `Word.pack` (`pack_instruction`) and the constructors of the instruction families
  (`waveform_instruction`, `marker_instruction`, `modulation_instruction`, `control_instruction`).
-/

namespace PulseSequencer

namespace Layout

def header : Field := ⟨56, 8⟩
def payload : Field := ⟨0, 56⟩

/-! Fields of the header. The opcode is all that stands above them. -/

def opcode : Field := ⟨4, 4⟩
def engine : Field := ⟨2, 2⟩
def write : Field := ⟨0, 1⟩

/-! Fields of the payload. -/

def waveformOp : Field := ⟨46, 2⟩
def pair : Field := ⟨45, 1⟩
def count : Field := ⟨24, 20⟩
def address : Field := ⟨0, 24⟩
def transition : Field := ⟨33, 4⟩
def state : Field := ⟨32, 1⟩
def quads : Field := ⟨0, 28⟩
def modulationOp : Field := ⟨44, 4⟩
def nco : Field := ⟨40, 4⟩
def immediate : Field := ⟨0, 32⟩
def target : Field := ⟨0, 26⟩
def comparison : Field := ⟨8, 2⟩
def comparand : Field := ⟨0, 8⟩

end Layout

/-- An instruction word, below `2 ^ 64` for the words made here. -/
abbrev Word := Nat

namespace Word

/-- The header of a word. -/
def header (op : Opcode) (engine : Int) (write : Bool) : Nat :=
  Field.join [(Layout.opcode, op.code), (Layout.engine, engine), (Layout.write, write.toInt)]

/-- Puts a header over a payload. -/
def pack (op : Opcode) (payload engine : Int) (write : Bool) : Word :=
  Field.join [(Layout.header, header op engine write), (Layout.payload, payload)]

/-- Plays `count + 1` quanta from an address on both waveform engines. -/
def waveform (address count : Int) (isTa write : Bool) : Word :=
  pack .waveform (Field.join [(Layout.waveformOp, WaveformOp.play.code), (Layout.pair, isTa.toInt),
    (Layout.count, count), (Layout.address, address)]) 3 write

/-- Brings the waveform at an address into the cache. -/
def waveformPrefetch (address : Int) : Word :=
  pack .waveform (Field.join [(Layout.waveformOp, WaveformOp.prefetch.code), (Layout.address, address)])
    3 true

/-- Plays a marker; markers are counted from one. -/
def marker (select : Int) (state : Bool) (quads transition : Int) (write : Bool) : Word :=
  pack .marker (Field.join [(Layout.waveformOp, WaveformOp.play.code), (Layout.transition, transition),
    (Layout.state, state.toInt), (Layout.quads, quads)]) (select - 1) write

/-- The largest payload of a modulator word. -/
def maxPayload : Int := 0x7fffffff

/-- The smallest payload of a modulator word. -/
def minPayload : Int := -0x80000000

/-- Lets the modulator act on the selected oscillators, with a signed payload of 32 bits. -/
def modulation (op : ModulationOp) (nco payload : Int) : Except Fault Word := do
  let value ← checkRange .modulationPayload payload maxPayload minPayload
  return pack .modulator
    (Field.join [(Layout.modulationOp, op.code), (Layout.nco, nco), (Layout.immediate, value)]) 0 true

/-- A control-flow word. -/
def control (op : Opcode) (payload : Int) (write : Bool) : Word := pack op payload 0 write

/-- Waits until all channels are synchronised. -/
def sync : Word := control .sync (Layout.waveformOp.put WaveformOp.waitSync.code) true

/-- Waits for a trigger. -/
def wait : Word := control .wait (Layout.waveformOp.put WaveformOp.waitTrigger.code) true

end Word

end PulseSequencer
