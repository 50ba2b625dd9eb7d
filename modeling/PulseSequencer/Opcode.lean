/-!
# Operation codes

* `Opcode` — the operation of an instruction word.
* `WaveformOp` — what a waveform or marker engine does.
* `ModulationOp` — what the modulator does.
* `CompareOp` — how the comparison register is compared.

Each has its code, its name and the partial inverse of its code.
-/

namespace PulseSequencer

inductive Opcode where
  | waveform
  | marker
  | wait
  | loadRepeat
  | decRepeat
  | compare
  | goto
  | call
  | ret
  | sync
  | modulator
  | loadCompare
  | prefetch
  deriving DecidableEq, Repr

namespace Opcode

/-- All opcodes, by increasing code. -/
def all : List Opcode :=
  [waveform, marker, wait, loadRepeat, decRepeat, compare, goto, call, ret, sync, modulator,
    loadCompare, prefetch]

def code : Opcode → Nat
  | waveform => 0
  | marker => 1
  | wait => 2
  | loadRepeat => 3
  | decRepeat => 4
  | compare => 5
  | goto => 6
  | call => 7
  | ret => 8
  | sync => 9
  | modulator => 10
  | loadCompare => 11
  | prefetch => 12

def ofCode? (n : Int) : Option Opcode := all.find? (fun op => (op.code : Int) == n)

def name : Opcode → String
  | waveform => "WFM"
  | marker => "MARKER"
  | wait => "WAIT"
  | loadRepeat => "LOAD_REPEAT"
  | decRepeat => "DEC_REPEAT"
  | compare => "CMP"
  | goto => "GOTO"
  | call => "CALL"
  | ret => "RETURN"
  | sync => "SYNC"
  | modulator => "MODULATOR"
  | loadCompare => "LOAD_CMP"
  | prefetch => "PREFETCH"

theorem ofCode?_code (op : Opcode) : ofCode? op.code = some op := by cases op <;> rfl

end Opcode

inductive WaveformOp where
  | play
  | waitTrigger
  | waitSync
  | prefetch
  deriving DecidableEq, Repr

namespace WaveformOp

def all : List WaveformOp := [play, waitTrigger, waitSync, prefetch]

def code : WaveformOp → Nat
  | play => 0
  | waitTrigger => 1
  | waitSync => 2
  | prefetch => 3

/-- The operation with a code of two bits. -/
def ofCode : Nat → WaveformOp
  | 0 => play
  | 1 => waitTrigger
  | 2 => waitSync
  | _ => prefetch

def name : WaveformOp → String
  | play => "PLAY_WFM"
  | waitTrigger => "WAIT_TRIG"
  | waitSync => "WAIT_SYNC"
  | prefetch => "WFM_PREFETCH"

theorem ofCode_code (op : WaveformOp) : ofCode op.code = op := by cases op <;> rfl

end WaveformOp

inductive ModulationOp where
  | modulate
  | resetPhase
  | setFrequency
  | setPhase
  | updateFrame
  deriving DecidableEq, Repr

namespace ModulationOp

def all : List ModulationOp := [modulate, resetPhase, setFrequency, setPhase, updateFrame]

def code : ModulationOp → Nat
  | modulate => 0
  | resetPhase => 2
  | setFrequency => 6
  | setPhase => 10
  | updateFrame => 14

def ofCode? (n : Int) : Option ModulationOp := all.find? (fun op => (op.code : Int) == n)

def name : ModulationOp → String
  | modulate => "MODULATE"
  | resetPhase => "RESET_PHASE"
  | setFrequency => "SET_FREQ"
  | setPhase => "SET_PHASE"
  | updateFrame => "UPDATE_FRAME"

theorem ofCode?_code (op : ModulationOp) : ofCode? op.code = some op := by cases op <;> rfl

end ModulationOp

inductive CompareOp where
  | equal
  | notEqual
  | greaterThan
  | lessThan
  deriving DecidableEq, Repr

namespace CompareOp

def all : List CompareOp := [equal, notEqual, greaterThan, lessThan]

def code : CompareOp → Nat
  | equal => 0
  | notEqual => 1
  | greaterThan => 2
  | lessThan => 3

/-- The operation with a code of two bits. -/
def ofCode : Nat → CompareOp
  | 0 => equal
  | 1 => notEqual
  | 2 => greaterThan
  | _ => lessThan

def name : CompareOp → String
  | equal => "EQUAL"
  | notEqual => "NOTEQUAL"
  | greaterThan => "GREATERTHAN"
  | lessThan => "LESSTHAN"

def symbol : CompareOp → String
  | equal => "=="
  | notEqual => "!="
  | greaterThan => ">"
  | lessThan => "<"

def ofSymbol? (s : String) : Option CompareOp := all.find? (fun op => op.symbol == s)

theorem ofCode_code (op : CompareOp) : ofCode op.code = op := by cases op <;> rfl

end CompareOp

end PulseSequencer
