import PulseSequencer.ChannelMap
import PulseSequencer.ControlFlow
import PulseSequencer.Schedule

/-!
# Programs

* `Context.assemble` (`create_instrs`) — the words of a sequence.
* `collect` (`collect_pulses`) — the pulses that a sequence plays on each channel.
* `compile` (`compile_sequence`) — encodes the pulses of a sequence, then assembles it.
-/

namespace PulseSequencer

namespace Context

/-- What goes before every wait: the channels are synchronised, phases and frames are zeroed and
the carrier is tuned, so that the modulator is in the same state at every trigger (`sync_instr`,
`reset_phase_instr`, `chan_freq_instr`). All three are made even if no entry is a wait. -/
def prologue (c : Context) : Except Fault (List Word) := do
  let reset ← Modulator.resetPhase c.settings.resetNcoSelect.val
  let tune ← Modulator.setFrequency c.nco c.carrier
  return [Word.sync, reset, tune]

/-- The words of a block, with a note of its length. -/
def block (c : Context) (b : Block) : Encoder (List Word) := do
  let stream ← .ofExcept (c.serialize b)
  Encoder.note (.serialized stream.words.length stream.durations)
  return stream.words

/-- The words of an entry: one pass of the loop of `create_instrs`. -/
def entry (c : Context) (prologue : List Word) : Entry → Encoder (List Word)
  | .block b => c.block b
  | .flow .wait => do
    let word ← .ofExcept Flow.wait.word
    return prologue ++ [word]
  | .flow f => do
    let word ← .ofExcept f.word
    return [word]
  | e => throw (.unsupported (.entry e))

/-- The words of a sequence (`create_instrs`). -/
def assemble (c : Context) (entries : List Entry) : Encoder (List Word) := do
  let prologue ← .ofExcept c.prologue
  let parts ← entries.mapM (c.entry prologue)
  let words := parts.flatten
  let _ ← .ofExcept (checkRange .programLength words.length Hardware.programCapacity 0)
  return words

end Context

/-- The pulses to encode for each channel, the argument `pulses` of `compile_sequence`. -/
abbrev Repertoire := Table Channel (List Pulse)

namespace Repertoire

/-- The pulses of a channel; none if it is not listed. -/
def on (r : Repertoire) (c : Channel) : List Pulse := (r.find? c).getD []

/-- Lists a pulse under a channel, unless one with its number is there already (`seen`). -/
def add (r : Repertoire) (c : Channel) (p : Pulse) : Repertoire :=
  if (r.on c).any (·.uid == p.uid) then r else r.insert c (r.on c ++ [p])

/-- Lists the pulses of a block on a channel. -/
def addLane (r : Repertoire) (b : Block) (c : Channel) : Repertoire :=
  ((b.on c).filterMap Entry.pulse?).foldl (fun r p => r.add c p) r

/-- Lists the pulses of an entry on the channels. -/
def addEntry (channels : List Channel) (r : Repertoire) : Entry → Repertoire
  | .block b => channels.foldl (fun r c => r.addLane b c) r
  | _ => r

end Repertoire

/-- The distinct pulses that a sequence plays on each channel, in order of first appearance
(`collect_pulses`). -/
def collect (entries : List Entry) (channels : List Channel) : Repertoire :=
  entries.foldl (Repertoire.addEntry channels) (.ofList (channels.map (·, [])))

/-- A compiled sequence (`CompiledProgram`). -/
structure Program where
  words : List Word
  memory : Memory
  library : Library

/-- Encodes the pulses of the repertoire for the outputs of the map: `create_wf_instrs` for the analog
pair, then `create_marker_instrs` for each marker. -/
def encodeRepertoire (settings : Settings) (map : ChannelMap) (pulses : Repertoire) :
    Encoder Unit := do
  map.analog.toList.forM fun c => encodeWaveforms settings (pulses.on c)
  map.markers.forM fun (index, c) => encodeMarkers index (pulses.on c)

/-- Compiles a sequence (`compile_sequence`). Unless a repertoire is given, it is collected from the
sequence. -/
def compileInto (entries : List Entry) (map : ChannelMap) (pulses : Option Repertoire)
    (settings : Settings) : Encoder Program := do
  .ofExcept map.validate
  encodeRepertoire settings map (pulses.getD (collect entries map.channels))
  let library := (← get).library
  let words ← Context.assemble ⟨library, map.channels, map.carrier, settings⟩ entries
  let memory := (← get).memory
  Encoder.note (.compiled words.length memory.size)
  return ⟨words, memory, library⟩

/-- Compiles a sequence in a new session. -/
def compile (entries : List Entry) (map : ChannelMap) (pulses : Option Repertoire)
    (settings : Settings) : EStateM.Result Fault Session Program :=
  (compileInto entries map pulses settings).run {}

end PulseSequencer
