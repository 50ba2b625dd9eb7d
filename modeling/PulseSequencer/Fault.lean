import PulseSequencer.Room
import PulseSequencer.Sequence

/-!
# Faults

Why encoding or compiling fails, and the wording of each cause.

* `Quantity` — what a hardware bound is put on.
* `Fault` — the causes.
* `Fault.message` — their wording.
* `checkRange` (`check_range`) — accepts a value between two bounds.
-/

namespace PulseSequencer

/-- A quantity that the hardware bounds. -/
inductive Quantity where
  | pulseLength (label : String)
  | pulseCount (label : String)
  | memorySize
  | waveformAddress
  | markerLength (label : String)
  | markerCount (label : String)
  | modulationPayload
  | target (kind : Branch)
  | repeatCount
  | comparisonValue
  | programLength
  | named (description : String)
  deriving DecidableEq, Repr

def Quantity.text : Quantity → String
  | .pulseLength label => "Length of pulse " ++ quoted label
  | .pulseCount label => "Count of pulse " ++ quoted label
  | .memorySize => "Waveform memory size"
  | .waveformAddress => "Waveform address"
  | .markerLength label => "Length of marker pulse " ++ quoted label
  | .markerCount label => "Count of marker pulse " ++ quoted label
  | .modulationPayload => "Modulation payload"
  | .target kind => "Target address of " ++ kind.name
  | .repeatCount => "Repeat count"
  | .comparisonValue => "Comparison value"
  | .programLength => "Number of instructions"
  | .named description => description

/-- A construct without an encoding. -/
inductive Unsupported where
  | modulation (code : Int)
  | comparison (operator : String)
  | flow (f : Flow)
  | element (e : Entry) (channel : String)
  | entry (e : Entry)

def Unsupported.text : Unsupported → String
  | .modulation code => s!"Untranslated modulation operation {code}."
  | .comparison operator => s!"Untranslated comparison operator {quoted operator}."
  | .flow f => s!"Untranslated control flow instruction {f.text}."
  | .element e channel =>
    s!"Untranslated pulse block entry {e.text} on channel {quoted channel}."
  | .entry e => s!"Untranslated sequence entry {e.text}."

/-- A channel map that cannot be used. -/
inductive MapFault where
  | unknownRoles (roles : List String)
  | nothingAssigned
  | analogRole (role : String) (channel : Channel)
  | markerRole (role : String) (channel : Channel)
  | markerIndex (index : Int) (label : String)

def MapFault.text : MapFault → String
  | .unknownRoles roles => s!"Unknown channel roles {bracketed (roles.map quoted)}."
  | .nothingAssigned => "The channel map assigns neither an analog pair nor a marker channel."
  | .analogRole role channel => s!"Role '{role}' requires an AnalogChannel, got {channel.text}."
  | .markerRole role channel => s!"Role '{role}' requires a MarkerChannel, got {channel.text}."
  | .markerIndex index label => s!"Marker index {index} of pulse {quoted label} is outside 1..4."

/-- Why encoding or compiling fails. -/
inductive Fault where
  | outOfRange (quantity : Quantity) (value limit minimum : Int)
  | unsupported (construct : Unsupported)
  | channelMap (cause : MapFault)
  | notEncoded (p : Pulse)
  | noInteger (cause : NoInteger)
  | noRoom (cause : NoRoom)
  | zeroUnit
  | zeroModulus
  | quotientTooLarge
  | unknownOpcode (code : Int)
  | unknownModulation (code : Int)

/-- The wording of a fault. -/
def Fault.message : Fault → String
  | .outOfRange quantity value limit minimum =>
    s!"{quantity.text} of {value} is outside the hardware range [{minimum}, {limit}]."
  | .unsupported construct => construct.text
  | .channelMap cause => cause.text
  | .notEncoded p =>
    s!"Pulse {p.text} has not been encoded; it is not assigned to a channel of the channel map."
  | .noInteger .nan => "cannot convert float NaN to integer"
  | .noInteger .infinite => "cannot convert float infinity to integer"
  | .noRoom cause => cause.text
  | .zeroUnit => "division by zero"
  | .zeroModulus => "integer modulo by zero"
  | .quotientTooLarge => "integer division result too large for a float"
  | .unknownOpcode code => s!"{code} is not a valid Opcode"
  | .unknownModulation code => s!"{code} is not a valid ModulationOp"

/-- Accepts a value from `minimum` to `limit`. -/
def checkRange (quantity : Quantity) (value limit minimum : Int) : Except Fault Int :=
  if minimum ≤ value ∧ value ≤ limit then .ok value
  else .error (.outOfRange quantity value limit minimum)

/-- The size of an array, or the fault that there is no room for it. -/
def roomFor : Except NoRoom Nat → Except Fault Nat
  | .ok n => .ok n
  | .error cause => .error (.noRoom cause)

/-- The integer nearest to a float, a half going to even. -/
def nearestInt (x : Float) : Except Fault Int :=
  match (Binary64.ofFloat x).nearestInt with
  | .ok n => .ok n
  | .error cause => .error (.noInteger cause)

end PulseSequencer
