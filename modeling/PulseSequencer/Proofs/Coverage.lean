import PulseSequencer.Proofs.Addresses
import PulseSequencer.Proofs.Outputs

/-!
# Every pulse that is played has a record

Collection, encoding and scheduling walk the channels of a map on their own. They agree: a record is
missing only for a pulse that is listed under no channel of the map, and the repertoire of a sequence
lists all that it plays.

* `MissesNone`, `Encoder.MissesNone` — no record is looked up in vain.
* `merge_eq_error` — the fault of a merge is that of a pending element.
* `Context.serialize_notEncoded` — a record is missing for a pulse that the block plays.
* `compile_notEncoded` — the same for a compilation, which gets that far with its pulses encoded.
* `mem_keys_encodeRepertoire` — the library holds the pulses listed under the channels of the map.
* `compile_covered` — both together.
-/

namespace PulseSequencer

variable {α β : Type}

/-! ## Computations that look up no record -/

/-- A result that is not missing for want of a record. -/
def MissesNone (x : Except Fault α) : Prop := ∀ p, x ≠ .error (.notEncoded p)

namespace MissesNone

theorem ok (a : α) : MissesNone (.ok a) := by
  intro p h
  cases h

theorem bind {x : Except Fault α} {f : α → Except Fault β} (hx : MissesNone x)
    (hf : ∀ a, MissesNone (f a)) : MissesNone (x >>= f) := by
  intro p h
  rcases bind_eq_error.1 h with h | ⟨a, _, h⟩
  · exact hx p h
  · exact hf a p h

theorem checkRange (q : Quantity) (value limit minimum : Int) :
    MissesNone (PulseSequencer.checkRange q value limit minimum) := by
  intro p h
  cases (checkRange_eq_error.1 h).2

theorem nearestInt (x : Float) : MissesNone (PulseSequencer.nearestInt x) := by
  intro p h
  unfold PulseSequencer.nearestInt at h
  split at h <;> cases h

theorem roomFor (x : Except NoRoom Nat) : MissesNone (PulseSequencer.roomFor x) := by
  intro p h
  cases x <;> cases h

theorem sampleCount (p : Pulse) (rate : Float) : MissesNone (p.sampleCount rate) := by
  unfold Pulse.sampleCount
  split
  · exact bind (nearestInt _) fun _ => roomFor _
  · exact bind (nearestInt _) fun _ => roomFor _
  · exact ok _

theorem modulation (op : ModulationOp) (nco payload : Int) :
    MissesNone (Word.modulation op nco payload) :=
  bind (checkRange _ _ _ _) fun _ => ok _

theorem setFrequency (nco : Int) (frequency : Float) :
    MissesNone (Modulator.setFrequency nco frequency) :=
  bind (nearestInt _) fun _ => modulation _ _ _

theorem cycleWord (fraction : Float) : MissesNone (PulseSequencer.cycleWord fraction) :=
  bind (nearestInt _) fun _ => ok _

theorem setPhase (nco : Int) (phase : Float) : MissesNone (Modulator.setPhase nco phase) :=
  bind (cycleWord _) fun _ => modulation _ _ _

theorem updateFrame (nco : Int) (angle : Float) : MissesNone (Modulator.updateFrame nco angle) :=
  bind (cycleWord _) fun _ => modulation _ _ _

theorem flowWord (f : Flow) : MissesNone f.word := by
  cases f with
  | branch kind target => exact bind (checkRange _ _ _ _) fun _ => ok _
  | loadRepeat count => exact bind (checkRange _ _ _ _) fun _ => ok _
  | compare operator value =>
    intro p h
    simp only [Flow.word] at h
    split at h
    · cases h
    · exact bind (checkRange _ _ _ _) (fun _ => ok _) p h
  | unspecified =>
    intro p h
    cases h
  | _ => exact ok _

/-- A step that is taken only on a condition, and what follows it. -/
theorem optionally {cond : Bool} {x : Except Fault Word} {next : List Word → Except Fault α}
    (hx : MissesNone x) (hnext : ∀ words, MissesNone (next words)) :
    MissesNone (if cond then (do let words ← (do return [← x]); next words)
      else (do let words ← pure []; next words)) := by
  split
  · exact bind (bind hx fun _ => ok _) hnext
  · exact bind (ok _) hnext

theorem prologue (c : Context) : MissesNone c.prologue :=
  bind (modulation _ _ _) fun _ => bind (setFrequency _ _) fun _ => ok _

theorem encodeMarker (p : Pulse) (select : Int) : MissesNone (PulseSequencer.encodeMarker p select) := by
  unfold PulseSequencer.encodeMarker
  split
  · intro q h
    cases h
  · exact bind (nearestInt _) fun _ => bind (checkRange _ _ _ _) fun _ =>
      bind (checkRange _ _ _ _) fun _ => ok _

theorem forM {f : α → Except Fault Unit} (h : ∀ a, MissesNone (f a)) (as : List α) :
    MissesNone (as.forM f) := by
  induction as with
  | nil => exact ok _
  | cons a as ih => exact bind (h a) fun _ => ih

theorem validate (m : ChannelMap) : MissesNone m.validate := by
  have hmarker : ∀ x : Nat × String × Option Channel,
      MissesNone (ChannelMap.validateMarker x.2.1 x.2.2) := by
    intro x p h
    unfold ChannelMap.validateMarker at h
    split at h <;> cases h
  intro p h
  unfold ChannelMap.validate at h
  dsimp only at h
  split at h
  · split at h <;> cases h
  · split at h
    · exact forM hmarker _ p h
    · cases h
    · exact forM hmarker _ p h

end MissesNone

/-- An encoder that never fails for want of a record. -/
def Encoder.MissesNone (x : Encoder α) : Prop := ∀ s p t, x s ≠ .error (.notEncoded p) t

namespace Encoder.MissesNone

theorem bind {x : Encoder α} {f : α → Encoder β} (hx : Encoder.MissesNone x)
    (hf : ∀ a, Encoder.MissesNone (f a)) : Encoder.MissesNone (x >>= f) := by
  intro s p t h
  rcases Encoder.bind_eq_error.1 h with h | ⟨a, s₁, _, h⟩
  · exact hx s p t h
  · exact hf a s₁ p t h

theorem ofExcept {x : Except Fault α} (h : PulseSequencer.MissesNone x) :
    Encoder.MissesNone (Encoder.ofExcept x) := by
  intro s p t hx
  exact h p (Encoder.ofExcept_eq_error.1 hx).1

theorem pure (a : α) : Encoder.MissesNone (Pure.pure a) := by
  intro s p t h
  cases h

theorem note (e : Event) : Encoder.MissesNone (Encoder.note e) := by
  intro s p t h
  cases h

theorem keep (p : Pulse) (r : Record) : Encoder.MissesNone (Encoder.keep p r) := by
  intro s q t h
  cases h

theorem allocate (cells : List Cell) : Encoder.MissesNone (Encoder.allocate cells) := by
  unfold Encoder.allocate
  refine bind (fun s p t h => ?_) fun s => bind (ofExcept ?_) fun x => ?_
  · cases h
  · exact PulseSequencer.MissesNone.bind (PulseSequencer.MissesNone.checkRange _ _ _ _) fun _ =>
      PulseSequencer.MissesNone.ok _
  · intro s p t h
    cases h

theorem forM {f : α → Encoder Unit} (h : ∀ a, Encoder.MissesNone (f a)) (as : List α) :
    Encoder.MissesNone (as.forM f) := by
  induction as with
  | nil => exact pure ()
  | cons a as ih => exact bind (h a) fun _ => ih

theorem encodeWaveform (settings : Settings) (p : Pulse) :
    Encoder.MissesNone (PulseSequencer.encodeWaveform settings p) := by
  have hrest : ∀ n : Nat, Encoder.MissesNone (do
      let count ← Encoder.ofExcept (checkRange (.pulseCount p.label) (quanta n - 1) Layout.count.top 0)
      let start ← Encoder.allocate (storedCells (p.shapeLevels settings n))
      let address ← Encoder.ofExcept
        (checkRange .waveformAddress (start / Hardware.quantum) Layout.address.top 0)
      Encoder.note (.encoded p.label address count (isConstant (p.shapeLevels settings n)))
      return (⟨address, count, isConstant (p.shapeLevels settings n)⟩ : Waveform)) := by
    intro n
    exact bind (ofExcept (.checkRange _ _ _ _)) fun _ => bind (allocate _) fun _ =>
      bind (ofExcept (.checkRange _ _ _ _)) fun _ => bind (note _) fun _ => pure _
  unfold PulseSequencer.encodeWaveform
  refine bind (ofExcept (.sampleCount p _)) fun n => bind (ofExcept (.checkRange _ _ _ _)) fun _ => ?_
  dsimp only
  split
  · exact bind (note _) fun _ => hrest n
  · exact hrest n

theorem encodePulse (settings : Settings) (o : Output) (p : Pulse) :
    Encoder.MissesNone (PulseSequencer.encodePulse settings o p) := by
  cases o with
  | analog => exact bind (encodeWaveform settings p) fun _ => keep _ _
  | marker index => exact bind (ofExcept (.encodeMarker p index)) fun _ => keep _ _

theorem encodeRepertoire (settings : Settings) (map : ChannelMap) (pulses : Repertoire) :
    Encoder.MissesNone (PulseSequencer.encodeRepertoire settings map pulses) := by
  rw [encodeRepertoire_eq]
  exact forM (fun x : Output × Channel => forM (encodePulse settings x.1) _) _

end Encoder.MissesNone

/-! ## Where a fault comes from -/

/-- A round stops at a fault of a pending element. -/
theorem round_eq_error {t : Int} {lanes : List Lane} {f : Fault} (h : round t lanes = .error f) :
    .error f ∈ lanes.flatMap Lane.pending := by
  fun_induction round t lanes with
  | case1 => cases h
  | case2 clock lanes ih =>
    rcases bind_eq_error.1 h with hr | ⟨_, _, h⟩
    · exact ih hr
    · cases h
  | case3 clock e es lanes hlt ih =>
    rcases bind_eq_error.1 h with hr | ⟨_, _, h⟩
    · exact List.mem_append_right _ (ih hr)
    · cases h
  | case4 clock e es lanes hlt ih =>
    rcases bind_eq_error.1 h with rfl | ⟨_, _, h⟩
    · exact List.mem_cons_self
    · rcases bind_eq_error.1 h with hr | ⟨_, _, h⟩
      · exact List.mem_append_right _ (ih hr)
      · cases h

/-- **The fault of a merge is that of a pending element.** -/
theorem merge_eq_error {lanes : List Lane} {f : Fault} (h : merge lanes = .error f) :
    .error f ∈ lanes.flatMap Lane.pending := by
  fun_induction merge lanes with
  | case1 lanes hs => cases h
  | case2 lanes t hs e hr =>
    obtain rfl := Except.error.inj h
    exact round_eq_error hr
  | case3 lanes t hs words rest hr _ ih =>
    rcases bind_eq_error.1 h with hrest | ⟨_, _, h⟩
    · -- what is pending after a round was pending before
      obtain ⟨ems, _, hperm⟩ := round_perm hr
      exact hperm.mem_iff.1 (List.mem_append_right _ (ih hrest))
    · cases h

namespace Context

variable {c : Context}

theorem serialize_eq_error {b : Block} {f : Fault} (h : c.serialize b = .error f) :
    ∃ channel ∈ c.channels, ∃ e ∈ b.on channel, c.element channel e = .error f := by
  rcases bind_eq_error.1 h with hmerge | ⟨_, _, h⟩
  · obtain ⟨lane, hlane, hf⟩ := List.mem_flatMap.1 (merge_eq_error hmerge)
    obtain ⟨channel, hchannel, rfl⟩ := List.mem_map.1 hlane
    obtain ⟨e, he, hf⟩ := List.mem_map.1 hf
    exact ⟨channel, hchannel, e, he, hf⟩
  · cases h

/-- A record is looked up for the pulse itself. -/
theorem pulse_notEncoded {channel : Channel} {p q : Pulse}
    (h : c.pulse channel q = .error (.notEncoded p)) : q = p ∧ c.library.find? p.uid = none := by
  unfold pulse at h
  rcases bind_eq_error.1 h with hr | ⟨r, _, h⟩
  · unfold Library.record at hr
    split at hr
    · cases hr
    · rename_i hnone
      cases hr
      exact ⟨rfl, hnone⟩
  · -- what follows the look-up makes words only
    split at h
    · refine absurd h (MissesNone.optionally (.setPhase _ _) (fun _ => ?_) p)
      refine .optionally (.setFrequency _ _) fun _ => .bind (.modulation _ _ _) fun _ => ?_
      exact .optionally (.setFrequency _ _) fun _ => .ok _
    · cases h

theorem element_notEncoded {channel : Channel} {e : Entry} {p : Pulse}
    (h : c.element channel e = .error (.notEncoded p)) :
    e = .pulse p ∧ c.library.find? p.uid = none := by
  cases e with
  | pulse q =>
    obtain ⟨rfl, hnone⟩ := pulse_notEncoded h
    exact ⟨rfl, hnone⟩
  | frame f => exact absurd h (MissesNone.bind (.updateFrame _ _) (fun _ => .ok _) p)
  | flow f => cases h
  | block b => cases h
  | foreign t => cases h

/-- A record that is missing is that of a pulse that the block plays. -/
theorem serialize_notEncoded {b : Block} {p : Pulse} (h : c.serialize b = .error (.notEncoded p)) :
    ∃ channel ∈ c.channels, .pulse p ∈ b.on channel ∧ c.library.find? p.uid = none := by
  obtain ⟨channel, hchannel, e, he, hf⟩ := serialize_eq_error h
  obtain ⟨rfl, hnone⟩ := element_notEncoded hf
  exact ⟨channel, hchannel, he, hnone⟩

theorem program_notEncoded {entries : List Entry} {p : Pulse}
    (h : c.program entries = .error (.notEncoded p)) :
    ∃ b : Block, .block b ∈ entries ∧
      ∃ channel ∈ c.channels, .pulse p ∈ b.on channel ∧ c.library.find? p.uid = none := by
  rcases bind_eq_error.1 h with hprologue | ⟨prologue, _, h⟩
  · exact absurd hprologue (MissesNone.prologue c p)
  · rcases bind_eq_error.1 h with hparts | ⟨parts, _, h⟩
    · obtain ⟨e, he, hf⟩ := exists_of_mapM_eq_error hparts
      cases e with
      | block b => exact ⟨b, he, serialize_notEncoded (map_eq_error.1 hf)⟩
      | flow f =>
        cases f
        all_goals
          dsimp only [entryWords] at hf
          exact absurd (map_eq_error.1 hf) (MissesNone.flowWord _ p)
      | pulse q => cases hf
      | frame f => cases hf
      | foreign t => cases hf
    · exact absurd h (MissesNone.bind (.checkRange _ _ _ _) (fun _ => .ok _) p)

end Context

/-! ## Compilation -/

section

variable {entries : List Entry} {map : ChannelMap} {settings : Settings}

/-- A compilation that misses a record has encoded its pulses and met a pulse that is not among
them. -/
theorem compile_notEncoded {pulses : Option Repertoire} {p : Pulse} {t : Session}
    (h : compile entries map pulses settings = .error (.notEncoded p) t) :
    ∃ s, encodeRepertoire settings map (pulses.getD (collect entries map.channels)) {} = .ok () s ∧
      ∃ b : Block, .block b ∈ entries ∧
        ∃ channel ∈ map.channels, .pulse p ∈ b.on channel ∧ s.library.find? p.uid = none := by
  change compileInto entries map pulses settings {} = .error (.notEncoded p) t at h
  unfold compileInto at h
  rcases Encoder.bind_eq_error.1 h with hvalid | ⟨_, _, hvalid, h⟩
  · exact absurd (Encoder.ofExcept_eq_error.1 hvalid).1 (MissesNone.validate map p)
  obtain ⟨_, rfl⟩ := Encoder.ofExcept_eq_ok.1 hvalid
  rcases Encoder.bind_eq_error.1 h with hencode | ⟨_, s, hencode, h⟩
  · exact absurd hencode (Encoder.MissesNone.encodeRepertoire _ _ _ _ _ _)
  refine ⟨s, hencode, ?_⟩
  rcases Encoder.bind_eq_error.1 h with hget | ⟨_, _, hget, h⟩
  · cases hget
  obtain ⟨rfl, rfl⟩ := Encoder.get_eq_ok.1 hget
  rcases Encoder.bind_eq_error.1 h with hassemble | ⟨words, s₁, _, h⟩
  · have hprogram := Context.assemble_outcome (map.context s.library settings) entries s
    rw [show (map.context s.library settings).assemble entries s = _ from hassemble] at hprogram
    exact Context.program_notEncoded hprogram.symm
  · cases h

/-- **The library holds exactly the pulses that are listed under a channel of the map.** -/
theorem mem_keys_encodeRepertoire {pulses : Repertoire} {s : Session} {u : Unit}
    (h : encodeRepertoire settings map pulses {} = .ok u s) {n : Nat} :
    n ∈ s.library.keys ↔ ∃ c ∈ map.channels, ∃ p ∈ pulses.on c, p.uid = n := by
  have hpasses := encodeRepertoire_spec h
  rw [Table.mem_keys_iff]
  constructor
  · rintro ⟨r, hr⟩
    obtain ⟨before, o, c, after, houts, ⟨p, hp, hpn, _⟩, _⟩ := hpasses.last n r hr
    have hmem : (o, c) ∈ map.outputs := by simp [houts]
    exact ⟨c, ChannelMap.mem_channels_of_mem_outputs hmem, p, hp, hpn⟩
  · rintro ⟨c, hc, p, hp, rfl⟩
    obtain ⟨o, ho⟩ := ChannelMap.exists_output hc
    exact hpasses.listed (o, c) ho p hp

/-- The repertoire of a sequence lists a pulse of the number of every pulse that is played. -/
theorem exists_mem_collect {c : Channel} (hc : c ∈ map.channels) {b : Block}
    (hb : .block b ∈ entries) {p : Pulse} (hp : .pulse p ∈ b.on c) :
    ∃ q ∈ (collect entries map.channels).on c, q.uid = p.uid := by
  obtain ⟨o, ho⟩ := ChannelMap.exists_output hc
  rw [collect_on_output ho]
  exact exists_mem_distinct.2 ⟨p, mem_playedOn.2 ⟨b, hb, hp⟩, rfl⟩

end

/-- **No pulse is left without a record.** A compilation that collects its pulses never misses one. With
a listing, the library holds what is listed under the channels of the map, and a record is missed only
for a pulse that is played on such a channel and listed under none of them. -/
theorem compile_covered (entries : List Entry) (map : ChannelMap) (settings : Settings) :
    (∀ p t, compile entries map none settings ≠ .error (.notEncoded p) t) ∧
      (∀ s, encodeRepertoire settings map (collect entries map.channels) {} = .ok () s →
        ∀ b : Block, .block b ∈ entries → ∀ c ∈ map.channels, ∀ p, .pulse p ∈ b.on c →
          p.uid ∈ s.library.keys) ∧
      ∀ pulses : Repertoire,
        (∀ s, encodeRepertoire settings map pulses {} = .ok () s → ∀ n,
          n ∈ s.library.keys ↔ ∃ c ∈ map.channels, ∃ p ∈ pulses.on c, p.uid = n) ∧
        ∀ p t, compile entries map (some pulses) settings = .error (.notEncoded p) t →
          ∃ b : Block, .block b ∈ entries ∧ ∃ c ∈ map.channels, .pulse p ∈ b.on c ∧
            ∀ d ∈ map.channels, ∀ q ∈ pulses.on d, q.uid ≠ p.uid := by
  have hplayed : ∀ s, encodeRepertoire settings map (collect entries map.channels) {} = .ok () s →
      ∀ b : Block, .block b ∈ entries → ∀ c ∈ map.channels, ∀ p, .pulse p ∈ b.on c →
        p.uid ∈ s.library.keys := by
    intro s hs b hb c hc p hp
    obtain ⟨q, hq, hqp⟩ := exists_mem_collect hc hb hp
    exact (mem_keys_encodeRepertoire hs).2 ⟨c, hc, q, hq, hqp⟩
  refine ⟨fun p t h => ?_, hplayed, fun pulses => ⟨fun s hs n => mem_keys_encodeRepertoire hs, ?_⟩⟩
  · obtain ⟨s, hs, b, hb, c, hc, hp, hnone⟩ := compile_notEncoded h
    obtain ⟨r, hr⟩ := Table.mem_keys_iff.1 (hplayed s hs b hb c hc p hp)
    rw [hnone] at hr
    cases hr
  · intro p t h
    obtain ⟨s, hs, b, hb, c, hc, hp, hnone⟩ := compile_notEncoded h
    refine ⟨b, hb, c, hc, hp, fun d hd q hq hqp => ?_⟩
    obtain ⟨r, hr⟩ := Table.mem_keys_iff.1 ((mem_keys_encodeRepertoire hs).2 ⟨d, hd, q, hq, hqp⟩)
    rw [hnone] at hr
    cases hr

/-- The record that a compilation misses, by the number of its pulse. -/
def missedNumber? : EStateM.Result Fault Session Program → Option Nat
  | .error (.notEncoded p) _ => some p.uid
  | _ => none

/-- The shared pulse is listed under one of its two channels, which is enough; the other is not listed. -/
theorem compile_covered_unlisted :
    ∃ p t, compile [.block sharedBlock] sharedMap (some (.ofList [(.marker "m", [sharedPulse])])) {} =
        .error (.notEncoded p) t ∧ p.uid = ownPulse.uid ∧
      ∃ b : Block, .block b ∈ [Entry.block sharedBlock] ∧
        ∃ c ∈ sharedMap.channels, .pulse p ∈ b.on c := by
  have hrun : missedNumber? (compile [.block sharedBlock] sharedMap
      (some (.ofList [(.marker "m", [sharedPulse])])) {}) = some ownPulse.uid := by decide +kernel
  unfold missedNumber? at hrun
  split at hrun
  · rename_i p t h
    obtain ⟨b, hb, c, hc, hp, _⟩ := ((compile_covered _ _ _).2.2 _).2 p t h
    exact ⟨p, t, h, Option.some.inj hrun, b, hb, c, hc, hp⟩
  · cases hrun

end PulseSequencer
