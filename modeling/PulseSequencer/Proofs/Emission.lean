import PulseSequencer.Schedule
import PulseSequencer.Proofs.Success

/-!
# What an element emits

* `Optionally` — the words of an instruction that is given only on a condition.
* `Context.AnalogWords` — how the words of a pulse on an analog channel are put together.
* `Context.pulse_eq_ok`, `Context.pulse_of_words` — the words of a pulse; `Context.element_cases` — those
  of any element.
* `Context.duration` — how long an element plays; `Context.element_duration`.
-/

namespace PulseSequencer

theorem Library.record_eq_ok {lib : Library} {p : Pulse} {r : Record} :
    lib.record p = .ok r ↔ lib.find? p.uid = some r := by
  unfold Library.record
  cases lib.find? p.uid <;> simp

/-- `words` is the word `x` if the condition holds, else nothing. -/
def Optionally (cond : Bool) (x : Except Fault Word) (words : List Word) : Prop :=
  if cond then ∃ w, x = .ok w ∧ words = [w] else words = []

theorem Optionally.forall_mem {cond : Bool} {x : Except Fault Word} {words : List Word}
    (h : Optionally cond x words) {P : Word → Prop} (hx : ∀ w, x = .ok w → P w) :
    ∀ w ∈ words, P w := by
  unfold Optionally at h
  split at h
  · obtain ⟨w, hw, rfl⟩ := h
    intro w' hw'
    exact List.mem_singleton.1 hw' ▸ hx w hw
  · subst h
    exact fun w hw => by cases hw

theorem Optionally.unique {cond : Bool} {x : Except Fault Word} {words words' : List Word}
    (h : Optionally cond x words) (h' : Optionally cond x words') : words = words' := by
  unfold Optionally at h h'
  split at h
  · rename_i hcond
    rw [if_pos hcond] at h'
    obtain ⟨w, hw, rfl⟩ := h
    obtain ⟨w', hw', rfl⟩ := h'
    rw [Except.ok.inj (hw.symm.trans hw')]
  · rename_i hcond
    rw [if_neg hcond] at h'
    rw [h, h']

/-- A step that is taken only on a condition, and what follows it. -/
theorem optionally_of_eq_ok {α : Type} {cond : Bool} {x : Except Fault Word}
    {next : List Word → Except Fault α} {a : α}
    (h : (if cond then (do let words ← (do return [← x]); next words)
      else (do let words ← pure []; next words)) = .ok a) :
    ∃ words, Optionally cond x words ∧ next words = .ok a := by
  unfold Optionally
  cases cond with
  | false => exact ⟨[], rfl, h⟩
  | true =>
    obtain ⟨words, hw, h⟩ := bind_eq_ok.1 h
    obtain ⟨w, hw, hwords⟩ := bind_eq_ok.1 hw
    exact ⟨words, ⟨w, hw, (pure_eq_ok.1 hwords).symm⟩, h⟩

theorem eq_ok_of_optionally {α : Type} {cond : Bool} {x : Except Fault Word}
    {next : List Word → Except Fault α} {a : α} {words : List Word} (h : Optionally cond x words)
    (hnext : next words = .ok a) :
    (if cond then (do let words ← (do return [← x]); next words)
      else (do let words ← pure []; next words)) = .ok a := by
  unfold Optionally at h
  cases cond with
  | false =>
    obtain rfl : words = [] := h
    exact hnext
  | true =>
    obtain ⟨w, hw, rfl⟩ := h
    exact bind_eq_ok.2 ⟨[w], bind_eq_ok.2 ⟨w, hw, rfl⟩, hnext⟩

namespace Context

/-- The words of a pulse with record `r` on an analog channel: phase and tuning if they are given by
instructions, the run of the oscillators, the envelope, and the tuning back. -/
def AnalogWords (c : Context) (p : Pulse) (r : Record) (words : List Word) : Prop :=
  ∃ phase tune run restore, words = phase ++ tune ++ [run, r.word] ++ restore ∧
    Optionally c.settings.phaseByInstruction (Modulator.setPhase c.nco p.phase) phase ∧
    Optionally (c.retunes p) (Modulator.setFrequency c.nco (c.carrier + p.frequency)) tune ∧
    Modulator.modulate c.nco r.count = .ok run ∧
    Optionally (c.retunes p) (Modulator.setFrequency c.nco c.carrier) restore

/-- The words and the duration of a pulse. -/
theorem pulse_eq_ok {c : Context} {channel : Channel} {p : Pulse} {em : Emission}
    (h : c.pulse channel p = .ok em) :
    ∃ r, c.library.record p = .ok r ∧ em.duration = r.count + 1 ∧
      (if channel.isAnalog then c.AnalogWords p r em.words else em.words = [r.word]) := by
  unfold pulse at h
  obtain ⟨r, hr, h⟩ := bind_eq_ok.1 h
  refine ⟨r, hr, ?_⟩
  split at h
  · rename_i hchannel
    obtain ⟨phase, hphase, h⟩ := optionally_of_eq_ok h
    obtain ⟨tune, htune, h⟩ := optionally_of_eq_ok h
    obtain ⟨run, hrun, h⟩ := bind_eq_ok.1 h
    obtain ⟨restore, hrestore, h⟩ := optionally_of_eq_ok h
    obtain rfl := pure_eq_ok.1 h
    rw [if_pos hchannel]
    exact ⟨rfl, phase, tune, run, restore, rfl, hphase, htune, hrun, hrestore⟩
  · rename_i hchannel
    obtain rfl := pure_eq_ok.1 h
    rw [if_neg hchannel]
    exact ⟨rfl, rfl⟩

/-- A pulse is emitted if it has a record and, on an analog channel, the words of the modulator. -/
theorem pulse_of_words {c : Context} {channel : Channel} {p : Pulse} {r : Record} {words : List Word}
    (hr : c.library.record p = .ok r)
    (h : if channel.isAnalog then c.AnalogWords p r words else words = [r.word]) :
    c.pulse channel p = .ok ⟨words, r.count + 1⟩ := by
  unfold pulse
  refine bind_eq_ok.2 ⟨r, hr, ?_⟩
  split at h
  · rename_i hchannel
    obtain ⟨phase, tune, run, restore, rfl, hphase, htune, hrun, hrestore⟩ := h
    rw [if_pos hchannel]
    apply eq_ok_of_optionally hphase
    apply eq_ok_of_optionally htune
    refine bind_eq_ok.2 ⟨run, hrun, ?_⟩
    exact eq_ok_of_optionally hrestore rfl
  · rename_i hchannel
    rw [if_neg hchannel, h]
    rfl

/-- The words of a pulse hold that of its record. -/
theorem word_mem_of_pulse_eq_ok {c : Context} {channel : Channel} {p : Pulse} {em : Emission}
    (h : c.pulse channel p = .ok em) : ∃ r, c.library.record p = .ok r ∧ r.word ∈ em.words := by
  obtain ⟨r, hr, _, hwords⟩ := pulse_eq_ok h
  refine ⟨r, hr, ?_⟩
  split at hwords
  · obtain ⟨phase, tune, run, restore, hwords, _⟩ := hwords
    simp [hwords]
  · simp [hwords]

/-- An element that has words is a pulse or a frame change. -/
theorem element_cases {c : Context} {channel : Channel} {e : Entry} {em : Emission}
    (h : c.element channel e = .ok em) :
    (∃ p, e = .pulse p ∧ c.pulse channel p = .ok em) ∨
      ∃ f w, e = .frame f ∧ Modulator.updateFrame c.nco f.angle = .ok w ∧ em = ⟨[w], 0⟩ := by
  cases e with
  | pulse p => exact Or.inl ⟨p, rfl, h⟩
  | frame f =>
    obtain ⟨w, hw, h⟩ := bind_eq_ok.1 h
    exact Or.inr ⟨f, w, rfl, hw, (pure_eq_ok.1 h).symm⟩
  | flow f => cases h
  | block b => cases h
  | foreign t => cases h

/-- How long an element plays, in quanta: a pulse one more than the count of its record. -/
def duration (c : Context) : Entry → Int
  | .pulse p => ((c.library.find? p.uid).map (·.count + 1)).getD 0
  | _ => 0

/-- The duration of an emission is that of its element. -/
theorem element_duration {c : Context} {channel : Channel} {e : Entry} {em : Emission}
    (h : c.element channel e = .ok em) : em.duration = c.duration e := by
  rcases element_cases h with ⟨p, rfl, hp⟩ | ⟨f, w, rfl, _, rfl⟩
  · obtain ⟨r, hr, hd, _⟩ := pulse_eq_ok hp
    simp [duration, Library.record_eq_ok.1 hr, hd]
  · rfl

end Context

end PulseSequencer
