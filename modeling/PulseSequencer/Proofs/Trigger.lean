import PulseSequencer.Proofs.Pieces

/-!
# Triggers

Before every wait for a trigger the program synchronises its channels, resets the oscillators and tunes
the carrier. Nothing else waits or resets, and only a wait or a synchronisation synchronises.

* `Prepared` — the three words before a wait.
* `Census` — the words that wait, reset and synchronise, against the control flow they are for.
* `Context.Emits.prepared`, `Context.Emits.census` — one piece.
* `compile_trigger` — the whole program.
-/

namespace PulseSequencer

/-- The words before place `i` are those that go before a wait. -/
def Prepared (settings : Settings) (carrier : Float) (words : List Word) (i : Nat) : Prop :=
  ∃ start reset tune, i = start + 3 ∧
    Modulator.resetPhase settings.resetNcoSelect.val = .ok reset ∧
    Modulator.setFrequency settings.ncoSelect.val carrier = .ok tune ∧
    words[start]? = some Word.sync ∧ words[start + 1]? = some reset ∧ words[start + 2]? = some tune

/-- The words wait, reset and synchronise as often as the control flow asks for. -/
structure Census (words : List Word) (flows : List Flow) : Prop where
  waits : (words.filterMap Word.opcode?).count .wait = flows.count .wait
  resets : (words.filterMap Word.modulation?).count .resetPhase = flows.count .wait
  syncs : (words.filterMap Word.opcode?).count .sync = flows.count .wait + flows.count .sync

namespace Census

theorem nil : Census [] [] := ⟨rfl, rfl, rfl⟩

theorem append {xs ys : List Word} {fs gs : List Flow} (hxs : Census xs fs) (hys : Census ys gs) :
    Census (xs ++ ys) (fs ++ gs) where
  waits := by rw [List.filterMap_append, List.count_append, List.count_append, hxs.waits, hys.waits]
  resets := by rw [List.filterMap_append, List.count_append, List.count_append, hxs.resets, hys.resets]
  syncs := by
    rw [List.filterMap_append, List.count_append, List.count_append, List.count_append, hxs.syncs,
      hys.syncs]
    omega

/-- Words that neither wait nor reset nor synchronise. -/
theorem of_forall {words : List Word} (h : ∀ w ∈ words, Word.opcode? w ≠ some .wait ∧
    Word.opcode? w ≠ some .sync ∧ Word.modulation? w ≠ some .resetPhase) : Census words [] where
  waits := List.count_eq_zero.2 fun hmem => by
    obtain ⟨w, hw, hop⟩ := List.mem_filterMap.1 hmem
    exact (h w hw).1 hop
  resets := List.count_eq_zero.2 fun hmem => by
    obtain ⟨w, hw, hop⟩ := List.mem_filterMap.1 hmem
    exact (h w hw).2.2 hop
  syncs := List.count_eq_zero.2 fun hmem => by
    obtain ⟨w, hw, hop⟩ := List.mem_filterMap.1 hmem
    exact (h w hw).2.1 hop

end Census

/-! ## One piece -/

/-- The opcode of a control-flow word is that of its operation. -/
theorem Flow.word_opcode? {f : Flow} {w : Word} (h : f.word = .ok w) : Word.opcode? w = f.opcode? := by
  obtain ⟨op, hop, hw⟩ := Flow.opcode_word h
  rw [hop, Word.opcode?_eq_some.2 hw]

/-- Waits and synchronisations have opcodes of their own. -/
theorem Flow.opcode?_eq_iff {f : Flow} :
    (f.opcode? = some .wait ↔ f = .wait) ∧ (f.opcode? = some .sync ↔ f = .sync) := by
  cases f with
  | branch kind target => cases kind <;> simp [Flow.opcode?, Branch.opcode]
  | _ => simp [Flow.opcode?]

/-- The word of control flow that does not wait. -/
theorem Flow.census {f : Flow} {w : Word} (h : f.word = .ok w) (hf : f ≠ .wait) : Census [w] [f] := by
  obtain ⟨op, hop, _⟩ := Flow.opcode_word h
  have hw : Word.opcode? w = some op := (Flow.word_opcode? h).trans hop
  have hmod := Flow.modulation?_word h
  have hwait : op ≠ .wait := fun heq => hf (Flow.opcode?_eq_iff.1.1 (heq ▸ hop))
  have hsync : op = .sync ↔ f = .sync := by
    rw [← Flow.opcode?_eq_iff.2, hop, Option.some_inj]
  constructor
  · simp [hw, hf, hwait]
  · simp [hmod, hf]
  · simp [hw, hf, List.count_singleton, hsync]

namespace Context

variable {c : Context}

/-- Elements neither wait nor reset nor synchronise. -/
theorem Emits.quiet {o : Occurrence} {words : List Word} (h : c.Emits (.element o) words) {w : Word}
    (hw : w ∈ words) : Word.opcode? w ≠ some .wait ∧ Word.opcode? w ≠ some .sync ∧
      Word.modulation? w ≠ some .resetPhase := by
  rcases h.element_word hw with ⟨n, r, _, rfl⟩ | ⟨op, payload, hop, hv⟩
  · rw [r.modulation?_word]
    cases r with
    | waveform v => simp [Record.word, Word.opcode?_eq_some.2 v.opcode_word]
    | marker m => simp [Record.word, Word.opcode?_eq_some.2 m.opcode_word]
  · have hmod := Word.modulation?_of_modulation hv
    simp [Word.opcode?_of_modulation hv, hmod, hop]

/-- The words of one piece. -/
theorem Emits.census {source : Source} {words : List Word} (h : c.Emits source words) :
    Census words source.flow?.toList := by
  cases source with
  | element o => exact Census.of_forall fun w hw => h.quiet hw
  | flow f =>
    cases h with
    | flow hf hw => exact Flow.census hw hf
    | @wait reset tune hreset htune =>
      obtain ⟨payload, _, htune⟩ := bind_eq_ok.1 htune
      have hops : [Word.sync, reset, tune, Word.wait].filterMap Word.opcode? =
          [.sync, .modulator, .modulator, .wait] := by
        simp [Word.opcode?_of_modulation hreset, Word.opcode?_of_modulation htune]
      have hmods : [Word.sync, reset, tune, Word.wait].filterMap Word.modulation? =
          [.resetPhase, .setFrequency] := by
        simp [Word.modulation?_of_modulation hreset, Word.modulation?_of_modulation htune]
      constructor
      · rw [hops]
        rfl
      · rw [hmods]
        rfl
      · rw [hops]
        rfl

/-- A wait is the last of its piece, after the words that prepare it. -/
theorem Emits.prepared {source : Source} {words : List Word} (h : c.Emits source words) {j : Nat}
    {w : Word} (hj : words[j]? = some w) (hw : Word.opcode? w = some .wait) :
    ∃ reset tune, words = [Word.sync, reset, tune, Word.wait] ∧ j = 3 ∧
      Modulator.resetPhase c.settings.resetNcoSelect.val = .ok reset ∧
      Modulator.setFrequency c.nco c.carrier = .ok tune := by
  cases source with
  | element o => exact absurd hw (h.quiet (List.mem_of_getElem? hj)).1
  | flow f =>
    cases h with
    | @flow f v hf hv =>
      obtain rfl := List.mem_singleton.1 (List.mem_of_getElem? hj)
      rw [Flow.word_opcode? hv] at hw
      exact absurd (Flow.opcode?_eq_iff.1.1 hw) hf
    | @wait reset tune hreset htune =>
      refine ⟨reset, tune, rfl, ?_, hreset, htune⟩
      obtain ⟨payload, _, htune⟩ := bind_eq_ok.1 htune
      have hother : ∀ v ∈ [Word.sync, reset, tune] ++ [], ¬ Word.opcode? v = some .wait := by
        simp [Word.opcode?_of_modulation hreset, Word.opcode?_of_modulation htune]
      exact eq_length_of_getElem? hother hj hw

end Context

/-! ## Programs -/

/-- Pieces one after the other. -/
theorem Census.flatMap {ps : List Piece} (h : ∀ x ∈ ps, Census x.words x.source.flow?.toList) :
    Census (ps.flatMap Piece.words) (ps.filterMap (·.source.flow?)) := by
  induction ps with
  | nil => exact Census.nil
  | cons x ps ih =>
    have hrest := (h x List.mem_cons_self).append (ih fun y hy => h y (List.mem_cons_of_mem _ hy))
    rw [List.flatMap_cons, filterMap_cons_toList]
    exact hrest

/-- **Waits, resets and synchronisations of a program.** Every wait stands right after a synchronisation,
a reset and the tuning to the carrier. Waits and resets are as many as the sequence has waits, and
synchronisations as many as it has waits and synchronisations. -/
theorem compile_trigger {entries : List Entry} {map : ChannelMap} {pulses : Option Repertoire}
    {settings : Settings} {prog : Program} {t : Session}
    (h : compile entries map pulses settings = .ok prog t) :
    (∀ (i : Nat) (w : Word), prog.words[i]? = some w → Word.opcode? w = some .wait →
        Prepared settings map.carrier prog.words i) ∧
      (prog.words.filterMap Word.opcode?).count .wait = (entries.filterMap Entry.flow?).count .wait ∧
      (prog.words.filterMap Word.modulation?).count .resetPhase =
        (entries.filterMap Entry.flow?).count .wait ∧
      (prog.words.filterMap Word.opcode?).count .sync =
        (entries.filterMap Entry.flow?).count .wait + (entries.filterMap Entry.flow?).count .sync := by
  obtain ⟨parts, hparts⟩ := compile_pieces h
  obtain ⟨prologue, _, hmap⟩ := hparts.assembled
  constructor
  · intro i w hi hw
    rw [hparts.words_eq] at hi ⊢
    obtain ⟨k, x, j, hk, hj, rfl⟩ := exists_of_getElem?_flatMap hi
    obtain ⟨reset, tune, hwords, rfl, hreset, htune⟩ :=
      (hparts.emits (List.mem_of_getElem? hk)).2.prepared hj hw
    have hplace : ∀ d, d < 4 → (parts.flatten.flatMap Piece.words)[
        ((parts.flatten.take k).flatMap Piece.words).length + d]? =
          [Word.sync, reset, tune, Word.wait][d]? := by
      intro d hd
      rw [← hwords]
      exact getElem?_flatMap_add hk (by rw [hwords]; exact hd)
    exact ⟨_, reset, tune, rfl, hreset, htune, hplace 0 (by decide), hplace 1 (by decide),
      hplace 2 (by decide)⟩
  · have hcensus := Census.flatMap fun x hx => (hparts.emits hx).2.census
    rw [← hparts.words_eq, Context.flows_of_mapM hmap] at hcensus
    exact ⟨hcensus.waits, hcensus.resets, hcensus.syncs⟩

/-- Two triggers, the first after a synchronisation of its own. -/
theorem compile_trigger_twice :
    ∃ prog t, compile [.flow .sync, .flow .wait, .block sharedBlock, .flow .wait] sharedMap none {} =
        .ok prog t ∧
      Prepared {} sharedMap.carrier prog.words 4 ∧
      (prog.words.filterMap Word.opcode?).count .wait = 2 ∧
      (prog.words.filterMap Word.modulation?).count .resetPhase = 2 ∧
      (prog.words.filterMap Word.opcode?).count .sync = 3 := by
  have hrun : (Encoder.value? (compile [.flow .sync, .flow .wait, .block sharedBlock, .flow .wait]
      sharedMap none {})).map (fun prog => prog.words[4]?.bind Word.opcode?) = some (some .wait) := by
    decide +kernel
  obtain ⟨prog, t, h, hw⟩ := Encoder.exists_of_value? hrun
  obtain ⟨w, hw, hop⟩ := Option.bind_eq_some_iff.1 hw
  obtain ⟨hprepared, hcounts⟩ := compile_trigger h
  exact ⟨prog, t, h, hprepared 4 w hw hop, hcounts⟩

end PulseSequencer
