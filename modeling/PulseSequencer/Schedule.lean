import PulseSequencer.Encoder
import PulseSequencer.Modulator

/-!
# Scheduling of blocks

The lanes of a block are merged into one stream of words, as `serialize_pulse_block` does. In every round
each lane that is not ahead of the lane furthest behind emits its next element; lanes are visited in the
order of the channels.

* `Context.pulse` (`_serialize_pulse`) — the words and the duration of a pulse.
* `Context.element` — the same for any element, or why it has none.
* `round`, `merge` — one pass through the channels, and the loop around it.
* `Context.serialize` (`serialize_pulse_block`) — the stream of a block.
* `pendingCount_round_lt` — every round consumes an element, so the rounds come to an end.
-/

namespace PulseSequencer

/-- What the words of a sequence depend on: `instr_lib`, `chans`, `chan_freq` and `settings`. -/
structure Context where
  library : Library
  /-- The channels to play, in the order in which ties are broken. -/
  channels : List Channel
  /-- Carrier frequency of the analog pair in hertz. -/
  carrier : Float
  settings : Settings

/-- What one element of a lane becomes. -/
structure Emission where
  words : List Word
  /-- Duration in quanta. -/
  duration : Int
  deriving DecidableEq, Repr

namespace Context

def nco (c : Context) : Int := (c.settings.ncoSelect.val : Int)

/-- Whether the modulator is tuned to a pulse and back (`retune`). -/
def retunes (c : Context) (p : Pulse) : Bool :=
  c.settings.frequencyByInstruction && p.frequency != 0.0

/-- A pulse on a channel (`_serialize_pulse`). On an analog channel the modulator is set up before the
envelope. -/
def pulse (c : Context) (channel : Channel) (p : Pulse) : Except Fault Emission := do
  let record ← c.library.record p
  let duration := record.count + 1
  if channel.isAnalog then
    let phase ← if c.settings.phaseByInstruction then
        (do return [← Modulator.setPhase c.nco p.phase])
      else pure []
    let tune ← if c.retunes p then
        (do return [← Modulator.setFrequency c.nco (c.carrier + p.frequency)])
      else pure []
    let run ← Modulator.modulate c.nco record.count
    let restore ← if c.retunes p then
        (do return [← Modulator.setFrequency c.nco c.carrier])
      else pure []
    return ⟨phase ++ tune ++ [run, record.word] ++ restore, duration⟩
  else
    return ⟨[record.word], duration⟩

/-- An element of a lane; a frame change takes no time. -/
def element (c : Context) (channel : Channel) : Entry → Except Fault Emission
  | .pulse p => c.pulse channel p
  | .frame f => do return ⟨[← Modulator.updateFrame c.nco f.angle], 0⟩
  | e => throw (.unsupported (.element e channel.label))

end Context

/-- A lane on its way: what it has played in quanta (`time_stamp`), and what is still to come, which is
empty when the lane is done (`all_done`). The first fault that is met ends the merge. -/
structure Lane where
  clock : Int
  pending : List (Except Fault Emission)

/-- The clock of the lane furthest behind among those with pending elements (`next_instr_time`). -/
def nextStart (lanes : List Lane) : Option Int :=
  ((lanes.filter (!·.pending.isEmpty)).map (·.clock)).min?

/-- The number of elements still to come. -/
def pendingCount : List Lane → Nat
  | [] => 0
  | l :: lanes => l.pending.length + pendingCount lanes

/-- One round: each lane with pending elements whose clock is not beyond `t` emits one. -/
def round (t : Int) : List Lane → Except Fault (List Word × List Lane)
  | [] => .ok ([], [])
  | ⟨clock, []⟩ :: lanes => do
    let (words, rest) ← round t lanes
    return (words, ⟨clock, []⟩ :: rest)
  | ⟨clock, e :: es⟩ :: lanes =>
    if t < clock then do
      let (words, rest) ← round t lanes
      return (words, ⟨clock, e :: es⟩ :: rest)
    else do
      let emission ← e
      let (words, rest) ← round t lanes
      return (emission.words ++ words, ⟨clock + emission.duration, es⟩ :: rest)

@[simp] theorem pendingCount_cons (l : Lane) (lanes : List Lane) :
    pendingCount (l :: lanes) = l.pending.length + pendingCount lanes := rfl

/-- No round adds elements. -/
theorem pendingCount_round_le {t : Int} {lanes : List Lane} {words : List Word} {rest : List Lane}
    (h : round t lanes = .ok (words, rest)) : pendingCount rest ≤ pendingCount lanes := by
  fun_induction round t lanes generalizing words rest with
  | case1 =>
    simp only [Except.ok.injEq, Prod.mk.injEq] at h
    simp [← h.2]
  | case2 clock lanes ih =>
    cases hr : round t lanes with
    | error f => simp [hr, bind, Except.bind] at h
    | ok r =>
      simp only [hr, bind, Except.bind, pure, Except.pure, Except.ok.injEq, Prod.mk.injEq] at h
      have := ih hr
      simp only [← h.2, pendingCount_cons]
      omega
  | case3 clock e es lanes hlt ih =>
    cases hr : round t lanes with
    | error f => simp [hr, bind, Except.bind] at h
    | ok r =>
      simp only [hr, bind, Except.bind, pure, Except.pure, Except.ok.injEq, Prod.mk.injEq] at h
      have := ih hr
      simp only [← h.2, pendingCount_cons]
      omega
  | case4 clock e es lanes hlt ih =>
    cases e with
    | error f => simp [bind, Except.bind] at h
    | ok emission =>
      cases hr : round t lanes with
      | error f => simp [hr, bind, Except.bind] at h
      | ok r =>
        simp only [hr, bind, Except.bind, pure, Except.pure, Except.ok.injEq, Prod.mk.injEq] at h
        have := ih hr
        simp only [← h.2, pendingCount_cons, List.length_cons]
        omega

/-- A round in which some lane is not ahead consumes an element. -/
theorem pendingCount_round_lt {t : Int} {lanes : List Lane} {words : List Word} {rest : List Lane}
    (hl : ∃ l ∈ lanes, l.pending ≠ [] ∧ l.clock ≤ t) (h : round t lanes = .ok (words, rest)) :
    pendingCount rest < pendingCount lanes := by
  fun_induction round t lanes generalizing words rest with
  | case1 => simp at hl
  | case2 clock lanes ih =>
    cases hr : round t lanes with
    | error f => simp [hr, bind, Except.bind] at h
    | ok r =>
      simp only [hr, bind, Except.bind, pure, Except.pure, Except.ok.injEq, Prod.mk.injEq] at h
      have := ih (by simpa using hl) hr
      simp only [← h.2, pendingCount_cons]
      omega
  | case3 clock e es lanes hlt ih =>
    cases hr : round t lanes with
    | error f => simp [hr, bind, Except.bind] at h
    | ok r =>
      simp only [hr, bind, Except.bind, pure, Except.pure, Except.ok.injEq, Prod.mk.injEq] at h
      have hl' : ∃ l ∈ lanes, l.pending ≠ [] ∧ l.clock ≤ t := by
        obtain ⟨l, hm, hp, hc⟩ := hl
        rcases List.mem_cons.1 hm with rfl | hm
        · exact absurd hlt (by simpa using hc)
        · exact ⟨l, hm, hp, hc⟩
      have := ih hl' hr
      simp only [← h.2, pendingCount_cons]
      omega
  | case4 clock e es lanes hlt ih =>
    cases e with
    | error f => simp [bind, Except.bind] at h
    | ok emission =>
      cases hr : round t lanes with
      | error f => simp [hr, bind, Except.bind] at h
      | ok r =>
        simp only [hr, bind, Except.bind, pure, Except.pure, Except.ok.injEq, Prod.mk.injEq] at h
        have := pendingCount_round_le hr
        simp only [← h.2, pendingCount_cons, List.length_cons]
        omega

/-- The lane furthest behind has pending elements. -/
theorem exists_of_nextStart {lanes : List Lane} {t : Int} (h : nextStart lanes = some t) :
    ∃ l ∈ lanes, l.pending ≠ [] ∧ l.clock ≤ t := by
  have hm := List.min?_mem h
  simp only [List.mem_map, List.mem_filter] at hm
  obtain ⟨l, ⟨hl, hp⟩, rfl⟩ := hm
  exact ⟨l, hl, by simpa using hp, Int.le_refl _⟩

/-- Rounds until nothing is pending: the words of each round, and the lanes at the end. -/
def merge (lanes : List Lane) : Except Fault (List (List Word) × List Lane) :=
  match hs : nextStart lanes with
  | none => .ok ([], lanes)
  | some t =>
    match hr : round t lanes with
    | .error f => .error f
    | .ok (words, rest) =>
      have := pendingCount_round_lt (exists_of_nextStart hs) hr
      do
        let (rounds, final) ← merge rest
        return (words :: rounds, final)
termination_by pendingCount lanes

/-- The words of a block and how long each channel plays, in quanta. -/
structure Stream where
  words : List Word
  durations : List Int
  deriving DecidableEq, Repr

/-- The lane of a block on a channel (`pulses_for`). -/
def Context.lane (c : Context) (b : Block) (channel : Channel) : Lane :=
  ⟨0, (b.on channel).map (c.element channel)⟩

/-- The stream of a block; all lanes start at time zero (`serialize_pulse_block`). -/
def Context.serialize (c : Context) (b : Block) : Except Fault Stream := do
  let (rounds, lanes) ← merge (c.channels.map (c.lane b))
  return ⟨rounds.flatten, lanes.map (·.clock)⟩

end PulseSequencer
