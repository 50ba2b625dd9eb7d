import PulseSequencer.Channel
import PulseSequencer.Pulse
import PulseSequencer.Table

/-!
# Sequences

A sequence is a list of entries. An entry is a block of simultaneous lanes or a control-flow
operation; the elements of a lane are pulses and frame changes. Anything may be listed anywhere, and
what has no encoding is refused when it is met.

* `Flow` — control-flow operations on absolute instruction addresses.
* `Entry` — what can stand in a sequence or in a lane.
* `Block.on` (`PulseBlock.pulses_for`) — the elements of a block on a channel.
-/

namespace PulseSequencer

/-- Control-flow operations that name an instruction address. -/
inductive Branch where
  | goto
  | call
  | repeat
  | prefetch
  deriving DecidableEq, Repr

def Branch.name : Branch → String
  | .goto => "Goto"
  | .call => "Call"
  | .repeat => "Repeat"
  | .prefetch => "Prefetch"

/-- Control-flow operations. `unspecified` stands for no particular one and has no encoding. -/
inductive Flow where
  | wait
  | sync
  | ret
  | loadCompare
  | branch (kind : Branch) (target : Int)
  | loadRepeat (count : Int)
  | compare (operator : String) (value : Int)
  | unspecified
  deriving DecidableEq, Repr

/-- A control-flow operation as messages show it. -/
def Flow.text : Flow → String
  | .wait => "Wait()"
  | .sync => "Sync()"
  | .ret => "Return()"
  | .loadCompare => "LoadCompare()"
  | .branch kind target => s!"{kind.name}(target={target})"
  | .loadRepeat count => s!"LoadRepeat(count={count})"
  | .compare operator value => s!"Compare(operator={quoted operator}, value={value})"
  | .unspecified => "ControlFlow()"

/-- What can stand in a sequence or in a lane of a block; `foreign` is any other text. -/
inductive Entry where
  | pulse (p : Pulse)
  | frame (f : Frame)
  | flow (f : Flow)
  | block (lanes : Table Channel (List Entry))
  | foreign (content : String)

/-- Lanes that start at the same time, each with its elements in order. -/
abbrev Block := Table Channel (List Entry)

/-- The elements on a channel; a channel that is not listed is idle. -/
def Block.on (b : Block) (c : Channel) : List Entry := (b.find? c).getD []

namespace Entry

/-- The pulse of an entry that is one. -/
def pulse? : Entry → Option Pulse
  | .pulse p => some p
  | _ => none

mutual

/-- An entry as messages show it. -/
def text : Entry → String
  | .pulse p => p.text
  | .frame f => f.text
  | .flow f => f.text
  | .block ⟨lanes⟩ => "PulseBlock(pulses=\x7b" ++ ", ".intercalate (laneTexts lanes) ++ "\x7d)"
  | .foreign content => quoted content

def texts : List Entry → List String
  | [] => []
  | e :: es => text e :: texts es

def laneTexts : List (Channel × List Entry) → List String
  | [] => []
  | (c, es) :: lanes => (c.text ++ ": " ++ bracketed (texts es)) :: laneTexts lanes

end

end Entry

end PulseSequencer
