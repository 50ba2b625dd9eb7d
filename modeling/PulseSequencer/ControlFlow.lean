import PulseSequencer.Hardware
import PulseSequencer.Word

/-!
# Control-flow instructions

`Flow.word` (`encode_control_flow`) is the word of a control-flow operation. An operator is checked before
the value it compares with.
-/

namespace PulseSequencer

def Branch.opcode : Branch → Opcode
  | .goto => .goto
  | .call => .call
  | .repeat => .decRepeat
  | .prefetch => .prefetch

/-- The word of a control-flow operation. -/
def Flow.word : Flow → Except Fault Word
  | .wait => return Word.wait
  | .sync => return Word.sync
  | .ret => return Word.control .ret 0 true
  | .loadCompare => return Word.control .loadCompare 0 true
  | .branch kind target => do
    let address ← checkRange (.target kind) target (Hardware.programCapacity - 1) 0
    return Word.control kind.opcode address true
  | .loadRepeat count => do
    let n ← checkRange .repeatCount count Hardware.maxRepeat 0
    return Word.control .loadRepeat n true
  | .compare operator value => do
    match CompareOp.ofSymbol? operator with
    | none => throw (.unsupported (.comparison operator))
    | some op =>
      let n ← checkRange .comparisonValue value Layout.comparand.top 0
      return Word.control .compare
        (Field.join [(Layout.comparison, op.code), (Layout.comparand, n)]) true
  | .unspecified => throw (.unsupported (.flow .unspecified))

end PulseSequencer
