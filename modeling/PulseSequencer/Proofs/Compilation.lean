import PulseSequencer.Proofs.Encoding

/-!
# What a successful compilation did

A compilation validates the map, encodes the repertoire in a new session and assembles the words. From
then on only the log changes.

* `ChannelMap.isAnalog_of_mem_outputs` — in a valid map every channel is of the kind of its output.
* `Context.entryWords` — the words of an entry; `Context.assemble_eq_ok` — those of a sequence.
* `compile_eq_ok` — the three steps of a compilation.
* `compile_written` — every record was made for an output.
* `compile_record` — a record is that of the last output that plays its pulse.
-/

namespace PulseSequencer

/-! ## Valid maps -/

namespace ChannelMap

theorem mem_outputs_analog {m : ChannelMap} {c : Channel} :
    (Output.analog, c) ∈ m.outputs ↔ m.analog = some c := by
  simp [outputs]

theorem mem_outputs_marker {m : ChannelMap} {index : Nat} {c : Channel} :
    (Output.marker index, c) ∈ m.outputs ↔ (index, c) ∈ m.markers := by
  simp [outputs]

/-- The channels of a map are those of its outputs. -/
theorem outputs_map_snd (m : ChannelMap) : m.outputs.map Prod.snd = m.channels := by
  simp [outputs, channels, Function.comp_def]

theorem mem_channels_of_mem_outputs {m : ChannelMap} {x : Output × Channel} (h : x ∈ m.outputs) :
    x.2 ∈ m.channels := by
  rw [← outputs_map_snd]
  exact List.mem_map_of_mem h

theorem exists_output {m : ChannelMap} {c : Channel} (h : c ∈ m.channels) :
    ∃ o, (o, c) ∈ m.outputs := by
  rw [← outputs_map_snd] at h
  obtain ⟨x, hx, rfl⟩ := List.mem_map.1 h
  exact ⟨x.1, hx⟩

/-- The analog pair comes first. -/
theorem mem_after_analog {m : ChannelMap} {before after : List (Output × Channel)} {c : Channel}
    (h : m.outputs = before ++ (.analog, c) :: after) {index : Nat} {d : Channel}
    (hd : (Output.marker index, d) ∈ m.outputs) : (Output.marker index, d) ∈ after := by
  have hmarkers : ∀ x ∈ m.markers.map fun x => (Output.marker x.1, x.2), x.1 ≠ .analog := by
    intro x hx
    obtain ⟨y, _, rfl⟩ := List.mem_map.1 hx
    exact fun hy => by cases hy
  have hmem : (Output.analog, c) ∈ m.outputs := by simp [h]
  rw [mem_outputs_analog] at hmem
  unfold outputs at h hd
  rw [hmem] at h hd
  rcases List.mem_cons.1 hd with hd | hd
  · cases hd
  · cases before with
    | nil => exact (List.cons.inj h).2 ▸ hd
    | cons first before =>
      refine absurd rfl (hmarkers (.analog, c) ?_)
      rw [show (m.markers.map fun x => (Output.marker x.1, x.2)) = before ++ (.analog, c) :: after from
        (List.cons.inj h).2]
      simp

theorem mem_markers {m : ChannelMap} {index : Nat} {c : Channel} (h : (index, c) ∈ m.markers) :
    ∃ role, (index, role, some c) ∈ m.markerRoles := by
  obtain ⟨⟨i, role, channel⟩, hrole, hc⟩ := List.mem_filterMap.1 h
  obtain ⟨d, rfl, hd⟩ := Option.map_eq_some_iff.1 hc
  obtain ⟨rfl, rfl⟩ := Prod.mk.inj hd
  exact ⟨role, hrole⟩

theorem validateMarker_eq_ok {role : String} {c : Channel} {u : Unit}
    (h : validateMarker role (some c) = .ok u) : c.isAnalog = false := by
  cases c with
  | marker label => rfl
  | analog label f serial => cases h
  | plain label => cases h

theorem forM_markers_eq_ok {roles : List (Nat × String × Option Channel)} {u : Unit}
    (h : roles.forM (fun x => validateMarker x.2.1 x.2.2) = .ok u) :
    ∀ x ∈ roles, ∃ v, validateMarker x.2.1 x.2.2 = .ok v := by
  induction roles with
  | nil => exact fun x hx => by cases hx
  | cons first roles ih =>
    obtain ⟨v, hv, hrest⟩ := bind_eq_ok.1 h
    intro x hx
    rcases List.mem_cons.1 hx with rfl | hx
    · exact ⟨v, hv⟩
    · exact ih hrest x hx

theorem validate_eq_ok {m : ChannelMap} {u : Unit} (h : m.validate = .ok u) :
    (∀ c, m.analog = some c → c.isAnalog = true) ∧
      m.markerRoles.forM (fun x => validateMarker x.2.1 x.2.2) = .ok u := by
  unfold validate at h
  dsimp only at h
  split at h
  · split at h <;> cases h
  · split at h
    · rename_i ha
      refine ⟨fun c hc => ?_, h⟩
      rw [ha] at hc
      cases hc
      rfl
    · cases h
    · rename_i ha
      refine ⟨fun c hc => ?_, h⟩
      rw [ha] at hc
      cases hc

/-- **In a valid map the analog channel is analog and no marker channel is.** -/
theorem isAnalog_of_mem_outputs {m : ChannelMap} {u : Unit} (h : m.validate = .ok u) {o : Output}
    {c : Channel} (hc : (o, c) ∈ m.outputs) : c.isAnalog = decide (o = .analog) := by
  obtain ⟨hanalog, hmarkers⟩ := validate_eq_ok h
  cases o with
  | analog =>
    rw [hanalog c (mem_outputs_analog.1 hc)]
    rfl
  | marker index =>
    obtain ⟨role, hrole⟩ := mem_markers (mem_outputs_marker.1 hc)
    obtain ⟨_, hv⟩ := forM_markers_eq_ok hmarkers _ hrole
    rw [validateMarker_eq_ok hv]
    rfl

end ChannelMap

/-! ## Assembly -/

/-- Two sessions that differ in their logs only. -/
def Session.SameStores (s t : Session) : Prop := t.memory = s.memory ∧ t.library = s.library

theorem Session.SameStores.trans {r s t : Session} (hrs : r.SameStores s) (hst : s.SameStores t) :
    r.SameStores t :=
  ⟨hst.1.trans hrs.1, hst.2.trans hrs.2⟩

/-- Computations that change the log only, one after the other. -/
theorem Encoder.mapM_eq_ok {α β : Type} {f : α → Encoder β} {g : α → Except Fault β}
    (hstep : ∀ a b s t, f a s = .ok b t → g a = .ok b ∧ s.SameStores t) :
    ∀ (as : List α) {bs : List β} {s t : Session}, as.mapM f s = .ok bs t →
      as.mapM g = .ok bs ∧ s.SameStores t := by
  intro as
  induction as with
  | nil =>
    intro bs s t h
    obtain ⟨rfl, rfl⟩ := Encoder.pure_eq_ok.1 h
    exact ⟨rfl, rfl, rfl⟩
  | cons a as ih =>
    intro bs s t h
    rw [List.mapM_cons] at h
    obtain ⟨b, s₁, hb, h⟩ := Encoder.bind_eq_ok.1 h
    obtain ⟨bs', s₂, hbs, h⟩ := Encoder.bind_eq_ok.1 h
    obtain ⟨rfl, rfl⟩ := Encoder.pure_eq_ok.1 h
    obtain ⟨hg, hsame⟩ := hstep a b s s₁ hb
    obtain ⟨hgs, hsame'⟩ := ih hbs
    refine ⟨?_, hsame.trans hsame'⟩
    rw [List.mapM_cons, hg, hgs]
    rfl

namespace Context

/-- What goes before every wait. -/
theorem prologue_eq_ok {c : Context} {prologue : List Word} (h : c.prologue = .ok prologue) :
    ∃ reset tune, Modulator.resetPhase c.settings.resetNcoSelect.val = .ok reset ∧
      Modulator.setFrequency c.nco c.carrier = .ok tune ∧ prologue = [Word.sync, reset, tune] := by
  obtain ⟨reset, hreset, h⟩ := bind_eq_ok.1 h
  obtain ⟨tune, htune, h⟩ := bind_eq_ok.1 h
  exact ⟨reset, tune, hreset, htune, (pure_eq_ok.1 h).symm⟩

/-- The words of an entry, apart from what is noted. -/
def entryWords (c : Context) (prologue : List Word) : Entry → Except Fault (List Word)
  | .block b => (c.serialize b).map (·.words)
  | .flow .wait => Flow.wait.word.map (prologue ++ [·])
  | .flow f => f.word.map ([·])
  | e => .error (.unsupported (.entry e))

theorem entry_eq_ok {c : Context} {prologue words : List Word} {e : Entry} {s t : Session}
    (h : c.entry prologue e s = .ok words t) :
    c.entryWords prologue e = .ok words ∧ s.SameStores t := by
  cases e with
  | block b =>
    obtain ⟨stream, _, hrun, h⟩ := Encoder.bind_eq_ok.1 h
    obtain ⟨hs, rfl⟩ := Encoder.ofExcept_eq_ok.1 hrun
    obtain ⟨_, _, hnote, h⟩ := Encoder.bind_eq_ok.1 h
    obtain rfl := Encoder.note_eq_ok.1 hnote
    obtain ⟨rfl, rfl⟩ := Encoder.pure_eq_ok.1 h
    exact ⟨map_eq_ok.2 ⟨stream, hs, rfl⟩, rfl, rfl⟩
  | flow f =>
    cases f
    all_goals
      obtain ⟨w, _, hrun, h⟩ := Encoder.bind_eq_ok.1 h
      obtain ⟨hw, rfl⟩ := Encoder.ofExcept_eq_ok.1 hrun
      obtain ⟨rfl, rfl⟩ := Encoder.pure_eq_ok.1 h
      refine ⟨?_, rfl, rfl⟩
      dsimp only [entryWords]
      rw [hw]
      rfl
  | pulse p => cases h
  | frame f => cases h
  | foreign t => cases h

/-- An entry that has words is a block or control flow. -/
theorem entryWords_eq_ok {c : Context} {prologue words : List Word} {e : Entry}
    (h : c.entryWords prologue e = .ok words) :
    (∃ b s, e = .block b ∧ c.serialize b = .ok s ∧ words = s.words) ∨
      ∃ f w, e = .flow f ∧ f.word = .ok w ∧ words = if f = .wait then prologue ++ [w] else [w] := by
  cases e with
  | block b =>
    obtain ⟨s, hs, hwords⟩ := map_eq_ok.1 h
    exact Or.inl ⟨b, s, rfl, hs, hwords.symm⟩
  | flow f =>
    cases f
    all_goals
      dsimp only [entryWords] at h
      obtain ⟨w, hw, hwords⟩ := map_eq_ok.1 h
      exact Or.inr ⟨_, w, rfl, hw, hwords.symm⟩
  | pulse p => cases h
  | frame f => cases h
  | foreign t => cases h

/-- The words of a sequence are those of its entries. -/
theorem assemble_eq_ok {c : Context} {entries : List Entry} {words : List Word} {s t : Session}
    (h : c.assemble entries s = .ok words t) :
    ∃ prologue parts, c.prologue = .ok prologue ∧ entries.mapM (c.entryWords prologue) = .ok parts ∧
      words = parts.flatten ∧ s.SameStores t := by
  unfold assemble at h
  obtain ⟨prologue, _, hrun, h⟩ := Encoder.bind_eq_ok.1 h
  obtain ⟨hprologue, rfl⟩ := Encoder.ofExcept_eq_ok.1 hrun
  obtain ⟨parts, _, hparts, h⟩ := Encoder.bind_eq_ok.1 h
  obtain ⟨_, _, hrun, h⟩ := Encoder.bind_eq_ok.1 h
  obtain ⟨_, rfl⟩ := Encoder.ofExcept_eq_ok.1 hrun
  obtain ⟨rfl, rfl⟩ := Encoder.pure_eq_ok.1 h
  obtain ⟨hwords, hsame⟩ :=
    Encoder.mapM_eq_ok (f := c.entry prologue) (fun _ _ _ _ => entry_eq_ok) entries hparts
  exact ⟨prologue, parts, hprologue, hwords, rfl, hsame⟩

end Context

/-! ## Compilation -/

/-- What the words of a sequence depend on once its pulses are encoded. -/
def ChannelMap.context (m : ChannelMap) (library : Library) (settings : Settings) : Context :=
  ⟨library, m.channels, m.carrier, settings⟩

/-- **The steps of a successful compilation.** Nothing is stored after the pulses are encoded. -/
theorem compile_eq_ok {entries : List Entry} {map : ChannelMap} {pulses : Option Repertoire}
    {settings : Settings} {prog : Program} {t : Session}
    (h : compile entries map pulses settings = .ok prog t) :
    map.validate = .ok () ∧
      (∃ s, encodeRepertoire settings map (pulses.getD (collect entries map.channels)) {} = .ok () s ∧
        s.memory = prog.memory ∧ s.library = prog.library) ∧
      ∃ prologue parts, (map.context prog.library settings).prologue = .ok prologue ∧
        entries.mapM ((map.context prog.library settings).entryWords prologue) = .ok parts ∧
        prog.words = parts.flatten := by
  change compileInto entries map pulses settings {} = .ok prog t at h
  unfold compileInto at h
  obtain ⟨_, _, hrun, h⟩ := Encoder.bind_eq_ok.1 h
  obtain ⟨hvalid, rfl⟩ := Encoder.ofExcept_eq_ok.1 hrun
  obtain ⟨_, s, hencode, h⟩ := Encoder.bind_eq_ok.1 h
  obtain ⟨_, _, hrun, h⟩ := Encoder.bind_eq_ok.1 h
  obtain ⟨rfl, rfl⟩ := Encoder.get_eq_ok.1 hrun
  obtain ⟨words, s₁, hwords, h⟩ := Encoder.bind_eq_ok.1 h
  obtain ⟨_, _, hrun, h⟩ := Encoder.bind_eq_ok.1 h
  obtain ⟨rfl, rfl⟩ := Encoder.get_eq_ok.1 hrun
  obtain ⟨_, _, _, h⟩ := Encoder.bind_eq_ok.1 h
  obtain ⟨rfl, _⟩ := Encoder.pure_eq_ok.1 h
  obtain ⟨prologue, parts, hprologue, hparts, rfl, hsame⟩ := Context.assemble_eq_ok hwords
  exact ⟨hvalid, ⟨s, hencode, hsame.1.symm, rfl⟩, prologue, parts, hprologue, hparts, rfl⟩

section

variable {entries : List Entry} {map : ChannelMap} {settings : Settings} {prog : Program} {t : Session}

/-- Every record was made for an output of the map, whatever pulses were listed. -/
theorem compile_written {pulses : Option Repertoire}
    (h : compile entries map pulses settings = .ok prog t) {n : Nat} {r : Record}
    (hr : prog.library.find? n = some r) : ∃ p o, Written settings prog.memory p o r := by
  obtain ⟨_, ⟨s, hencode, hmem, hlib⟩, _⟩ := compile_eq_ok h
  obtain ⟨_, o, _, _, _, ⟨p, _, _, hw⟩, _⟩ := (encodeRepertoire_spec hencode).last n r (hlib ▸ hr)
  exact ⟨p, o, hmem ▸ hw⟩

theorem collect_on_output {x : Output × Channel} (hx : x ∈ map.outputs) :
    (collect entries map.channels).on x.2 = distinct (playedOn entries x.2) := by
  refine collect_on (List.any_eq_true.2 ⟨x.2, ChannelMap.mem_channels_of_mem_outputs hx, ?_⟩)
  exact Channel.beq_self x.2

/-- A record is that of the last output that plays its pulse. -/
theorem compile_record (h : compile entries map none settings = .ok prog t) {n : Nat} {r : Record}
    (hr : prog.library.find? n = some r) :
    ∃ before o c after, map.outputs = before ++ (o, c) :: after ∧
      (∃ p ∈ playedOn entries c, p.uid = n ∧ Written settings prog.memory p o r) ∧
      ∀ x ∈ after, ∀ p ∈ playedOn entries x.2, p.uid ≠ n := by
  obtain ⟨_, ⟨s, hencode, hmem, hlib⟩, _⟩ := compile_eq_ok h
  have hpasses := encodeRepertoire_spec hencode
  obtain ⟨before, o, c, after, houts, ⟨p, hp, hpn, hw⟩, hafter⟩ := hpasses.last n r (hlib ▸ hr)
  have hon := @collect_on_output entries map (o, c) (by rw [houts]; simp)
  refine ⟨before, o, c, after, houts, ⟨p, mem_of_mem_distinct (hon ▸ hp), hpn, hmem ▸ hw⟩, ?_⟩
  intro x hx q hq hqn
  have honx := @collect_on_output entries map x (by rw [houts]; simp [hx])
  obtain ⟨q', hq', hqn'⟩ := exists_mem_distinct.2 ⟨q, hq, hqn⟩
  exact hafter x hx q' (honx.symm ▸ hq') hqn'

end

end PulseSequencer
