import PulseSequencer.Proofs.Oscillator
import PulseSequencer.Proofs.PulseMap
import PulseSequencer.Proofs.Trigger

/-!
# Where phase and frequency are applied

The settings say whether the phase of a pulse is applied by its samples or by an instruction, and the
same for its frequency; it is never applied by both. What is left to instructions does not reach the
waveform memory or the library, and shows in the words only where it is set. What is left to the samples
has no instruction.

* `Pulse.erasePhase`, `Pulse.eraseFrequency` — a pulse without the quantity.
* `transparent_erasePhase`, `transparent_eraseFrequency` — it is encoded alike, if instructions apply the
  quantity.
* `Context.hides_erasePhase`, `Context.hides_eraseFrequency` — where the quantity shows in the words.
* `Context.operations` — what the modulator does for a piece of a program; `Context.Emits.operations`.
* `compile_deferral` — all of it for compiled sequences.
-/

namespace PulseSequencer

/-- A pulse without phase. -/
def Pulse.erasePhase (p : Pulse) : Pulse := { p with phase := 0.0 }

/-- A pulse at the carrier. -/
def Pulse.eraseFrequency (p : Pulse) : Pulse := { p with frequency := 0.0 }

/-- Pulses that are the same without phase differ in their phases only. -/
theorem Pulse.erasePhase_eq_iff {p q : Pulse} :
    p.erasePhase = q.erasePhase ↔ ∃ x, q = { p with phase := x } := by
  constructor
  · intro h
    obtain ⟨uid, label, length, amp, phase, frequency, shape⟩ := q
    simp only [erasePhase, mk.injEq] at h
    obtain ⟨rfl, rfl, rfl, rfl, _, rfl, rfl⟩ := h
    exact ⟨phase, rfl⟩
  · rintro ⟨x, rfl⟩
    rfl

/-- Pulses that are the same at the carrier differ in their frequencies only. -/
theorem Pulse.eraseFrequency_eq_iff {p q : Pulse} :
    p.eraseFrequency = q.eraseFrequency ↔ ∃ x, q = { p with frequency := x } := by
  constructor
  · intro h
    obtain ⟨uid, label, length, amp, phase, frequency, shape⟩ := q
    simp only [eraseFrequency, mk.injEq] at h
    obtain ⟨rfl, rfl, rfl, rfl, rfl, _, rfl⟩ := h
    exact ⟨frequency, rfl⟩
  · rintro ⟨x, rfl⟩
    rfl

/-- A word without its immediate, if it sets the phase. -/
def Word.erasePhase (w : Word) : Word :=
  if modulation? w = some .setPhase then w - Layout.immediate.get w else w

/-- A word does not set the frequency. -/
def Word.keepsFrequency (w : Word) : Bool := modulation? w ≠ some .setFrequency

/-! ## Memory and library -/

/-- Two pulses that agree in all that is not phase or frequency. -/
structure Pulse.Alike (p q : Pulse) : Prop where
  uid : q.uid = p.uid
  label : q.label = p.label
  length : q.length = p.length
  amp : q.amp = p.amp
  shape : q.shape = p.shape

theorem Pulse.alike_erasePhase (p : Pulse) : p.Alike p.erasePhase := ⟨rfl, rfl, rfl, rfl, rfl⟩

theorem Pulse.alike_eraseFrequency (p : Pulse) : p.Alike p.eraseFrequency := ⟨rfl, rfl, rfl, rfl, rfl⟩

/-- Phase and frequency reach the encoding through the samples only. -/
theorem Pulse.Alike.encodePulse_eq {p q : Pulse} (h : p.Alike q) {settings : Settings}
    (hlevels : ∀ n, q.shapeLevels settings n = p.shapeLevels settings n) (o : Output) :
    encodePulse settings o q = encodePulse settings o p := by
  have hkeep : ∀ r, Encoder.keep q r = Encoder.keep p r := by
    intro r
    simp only [Encoder.keep, h.uid]
  cases o with
  | analog =>
    have hcount : q.sampleCount Hardware.dacClock = p.sampleCount Hardware.dacClock := by
      simp only [sampleCount, h.shape, h.length]
    simp only [encodePulse, encodeWaveform, hcount, h.label, hlevels, hkeep]
  | marker index =>
    have hmarker : encodeMarker q index = encodeMarker p index := by
      simp only [encodeMarker, isHigh, h.label, h.length, h.amp]
    simp only [encodePulse, hmarker, hkeep]

/-- A phase that instructions apply does not turn the samples. -/
theorem Pulse.shapeLevels_erasePhase (p : Pulse) {settings : Settings}
    (h : settings.phaseByInstruction = true) (n : Nat) :
    p.erasePhase.shapeLevels settings n = p.shapeLevels settings n := by
  have hrotate : ∀ turn turn' k s, p.erasePhase.rotate settings turn k s =
      p.rotate settings turn' k s := by
    intro turn turn' k s
    unfold rotate
    simp only [h, if_true]
    rfl
  unfold shapeLevels
  simp only [hrotate _ (Sample.rotation p.phase)]
  rfl

/-- A frequency that instructions apply does not turn the samples. -/
theorem Pulse.shapeLevels_eraseFrequency (p : Pulse) {settings : Settings}
    (h : settings.frequencyByInstruction = true) (n : Nat) :
    p.eraseFrequency.shapeLevels settings n = p.shapeLevels settings n := by
  have hsteady : ∀ q : Pulse, q.isSteady settings = true := by
    intro q
    rw [isSteady, h, Bool.true_or]
  have hrotate : ∀ turn k s, p.eraseFrequency.rotate settings turn k s = p.rotate settings turn k s := by
    intro turn k s
    unfold rotate
    simp only [hsteady, if_true]
    rfl
  unfold shapeLevels
  simp only [hsteady, hrotate]
  rfl

theorem transparent_erasePhase {settings : Settings} (h : settings.phaseByInstruction = true) :
    Transparent settings Pulse.erasePhase where
  uid p := p.alike_erasePhase.uid
  encode o p := p.alike_erasePhase.encodePulse_eq (p.shapeLevels_erasePhase h) o

theorem transparent_eraseFrequency {settings : Settings} (h : settings.frequencyByInstruction = true) :
    Transparent settings Pulse.eraseFrequency where
  uid p := p.alike_eraseFrequency.uid
  encode o p := p.alike_eraseFrequency.encodePulse_eq (p.shapeLevels_eraseFrequency h) o

/-! ## Words -/

/-- A word of the modulator without its immediate. -/
theorem Word.sub_immediate {op : ModulationOp} {nco x : Int} {w : Word}
    (h : Word.modulation op nco x = .ok w) :
    (w - Layout.immediate.get w : Int) = Word.pack .modulator
      (Field.join [(Layout.modulationOp, op.code), (Layout.nco, nco), (Layout.immediate, 0)]) 0 true := by
  obtain ⟨_, _, rfl⟩ := Instruction.modulation_eq_ok h
  exact Word.pack_sub_lowest [(Layout.modulationOp, op.code), (Layout.nco, nco)] rfl rfl _ _ _

/-- Words that set the phase of the same oscillators are the same without their immediates. -/
theorem Word.erasePhase_eq {nco x y : Int} {w w' : Word}
    (h : Word.modulation .setPhase nco x = .ok w) (h' : Word.modulation .setPhase nco y = .ok w') :
    w.erasePhase = w'.erasePhase := by
  have hw := Word.sub_immediate h
  have hw' := Word.sub_immediate h'
  rw [Word.erasePhase, if_pos (Word.modulation?_of_modulation h), Word.erasePhase,
    if_pos (Word.modulation?_of_modulation h')]
  change @Eq Nat _ _
  omega

/-- The view in which phases are not seen. -/
def phaseView (w : Word) : Option Word := some w.erasePhase

/-- The view in which tunings are not seen. -/
def tuningView : Word → Option Word := Option.guard Word.keepsFrequency

/-- A tuning is not seen. -/
theorem Optionally.tuningView_eq_nil {cond : Bool} {nco : Int} {frequency : Float} {words : List Word}
    (h : Optionally cond (Modulator.setFrequency nco frequency) words) :
    words.filterMap tuningView = [] := by
  apply List.filterMap_eq_nil_iff.2
  intro w hw
  have hmod := Optionally.modulation? h w hw
  simp [tuningView, Option.guard, Word.keepsFrequency, hmod]

theorem phaseWord_zero : phaseWord 0.0 = .ok 0 := by
  rfl

/-- Any phase can be replaced by none, and the view does not show it. -/
theorem Optionally.setPhase_zero {cond : Bool} {nco : Int} {phase : Float} {words : List Word}
    (h : Optionally cond (Modulator.setPhase nco phase) words) :
    ∃ words', Optionally cond (Modulator.setPhase nco 0.0) words' ∧
      words'.filterMap phaseView = words.filterMap phaseView := by
  unfold Optionally at h ⊢
  cases cond with
  | false =>
    obtain rfl : words = [] := h
    exact ⟨[], rfl, rfl⟩
  | true =>
    obtain ⟨w, hw, rfl⟩ := h
    obtain ⟨x, _, hw⟩ := bind_eq_ok.1 hw
    have hsets : Modulator.setPhase nco 0.0 = Word.modulation .setPhase nco 0 := by
      rw [Modulator.setPhase, phaseWord_zero]
      rfl
    have hrange : Word.minPayload ≤ 0 ∧ (0 : Int) ≤ Word.maxPayload := by decide
    obtain ⟨w', hw'⟩ : ∃ w', Word.modulation .setPhase nco 0 = .ok w' :=
      ⟨_, checkRange_then_eq_ok.2 ⟨hrange, rfl⟩⟩
    refine ⟨[w'], ⟨w', hsets.trans hw', rfl⟩, ?_⟩
    simp [phaseView, Word.erasePhase_eq hw' hw]

namespace Context

/-- The phase of a pulse shows in the immediate of the word that sets it. -/
theorem hides_erasePhase (c : Context) : c.Hides Pulse.erasePhase phaseView := by
  apply hides_of_analogWords (fun p => p.alike_erasePhase.uid)
  rintro p r words ⟨phase, tune, run, restore, rfl, hphase, htune, hrun, hrestore⟩
  obtain ⟨phase', hphase', hview⟩ := hphase.setPhase_zero
  refine ⟨_, ⟨phase', tune, run, restore, rfl, hphase', htune, hrun, hrestore⟩, ?_⟩
  simp only [List.filterMap_append, hview]

/-- The frequency of a pulse shows in the words that tune to it and back. -/
theorem hides_eraseFrequency (c : Context) : c.Hides Pulse.eraseFrequency tuningView := by
  apply hides_of_analogWords (fun p => p.alike_eraseFrequency.uid)
  rintro p r words ⟨phase, tune, run, restore, rfl, hphase, htune, hrun, hrestore⟩
  have hretunes : c.retunes p.eraseFrequency = false := by
    have hzero : ((0.0 : Float) != 0.0) = false := by decide +kernel
    rw [retunes, Pulse.eraseFrequency, hzero, Bool.and_false]
  refine ⟨_, ⟨phase, [], run, [], rfl, hphase, ?_, hrun, ?_⟩, ?_⟩
  · rw [hretunes]
    rfl
  · rw [hretunes]
    rfl
  · simp only [List.filterMap_append, htune.tuningView_eq_nil, hrestore.tuningView_eq_nil,
      List.filterMap_nil]

/-! ## What the modulator does for a piece -/

/-- What the modulator does for a piece of a program. -/
def operations (c : Context) : Source → List ModulationOp
  | .flow .wait => [.resetPhase, .setFrequency]
  | .element ⟨_, _, .frame _⟩ => [.updateFrame]
  | .element ⟨channel, _, .pulse p⟩ =>
    if channel.isAnalog then
      (if c.settings.phaseByInstruction then [.setPhase] else []) ++
        (if c.retunes p then [.setFrequency] else []) ++ [.modulate] ++
          (if c.retunes p then [.setFrequency] else [])
    else []
  | _ => []

end Context

theorem Optionally.filterMap_modulation? {cond : Bool} {op : ModulationOp} {nco : Int}
    {x : Except Fault Int} {words : List Word}
    (h : Optionally cond (do Word.modulation op nco (← x)) words) :
    words.filterMap Word.modulation? = if cond then [op] else [] := by
  have hmods := h.modulation?
  unfold Optionally at h
  cases cond with
  | false =>
    obtain rfl : words = [] := h
    rfl
  | true =>
    obtain ⟨w, _, rfl⟩ := h
    simp [hmods w List.mem_cons_self]

namespace Context

theorem Emits.operations {c : Context} {source : Source} {words : List Word} (h : c.Emits source words) :
    words.filterMap Word.modulation? = c.operations source := by
  cases h with
  | @wait reset tune hreset htune =>
    obtain ⟨payload, _, htune⟩ := bind_eq_ok.1 htune
    simp [Context.operations, Word.modulation?_of_modulation hreset,
      Word.modulation?_of_modulation htune]
  | @flow f w hf hw =>
    have hmod := Flow.modulation?_word hw
    cases f <;> simp_all [Context.operations]
  | frame hw =>
    obtain ⟨payload, _, hw⟩ := bind_eq_ok.1 hw
    simp [Context.operations, Word.modulation?_of_modulation hw]
  | @analog channel index p r words hchannel hr hwords =>
    obtain ⟨phase, tune, run, restore, rfl, hphase, htune, hrun, hrestore⟩ := hwords
    simp [Context.operations, hchannel, hphase.filterMap_modulation?, htune.filterMap_modulation?,
      hrestore.filterMap_modulation?, Word.modulation?_of_modulation hrun, r.modulation?_word]
  | @digital channel index p r hchannel hr =>
    simp [Context.operations, hchannel, r.modulation?_word]

/-- No phase is set by a piece if phases are left to the samples. -/
theorem setPhase_not_mem_operations {c : Context} (h : c.settings.phaseByInstruction = false)
    (source : Source) : .setPhase ∉ c.operations source := by
  cases source with
  | flow f => cases f <;> simp [operations]
  | element o =>
    obtain ⟨channel, index, e⟩ := o
    cases e with
    | pulse p =>
      cases hchannel : channel.isAnalog with
      | false => simp [operations, hchannel]
      | true => cases hretunes : c.retunes p <;> simp [operations, hchannel, h, hretunes]
    | _ => simp [operations]

/-- Only waits tune if frequencies are left to the samples. -/
theorem count_setFrequency_operations {c : Context} (h : c.settings.frequencyByInstruction = false)
    (source : Source) :
    (c.operations source).count .setFrequency = source.flow?.toList.count .wait := by
  cases source with
  | flow f => cases f <;> simp [operations, Source.flow?]
  | element o =>
    obtain ⟨channel, index, e⟩ := o
    cases e with
    | pulse p =>
      have hretunes : c.retunes p = false := by rw [retunes, h, Bool.false_and]
      cases hchannel : channel.isAnalog with
      | false => simp [operations, hchannel, Source.flow?]
      | true =>
        cases hphase : c.settings.phaseByInstruction <;>
          simp [operations, hchannel, hretunes, hphase, Source.flow?]
    | _ => simp [operations, Source.flow?]

/-- A piece that tunes is that of a wait, if frequencies are left to the samples. -/
theorem Emits.wait_of_setFrequency {c : Context} (hflag : c.settings.frequencyByInstruction = false)
    {source : Source} {words : List Word} (h : c.Emits source words) {j : Nat} {w : Word}
    (hj : words[j]? = some w) (hw : Word.modulation? w = some .setFrequency) :
    ∃ reset tune, words = [Word.sync, reset, tune, Word.wait] ∧ j = 2 ∧
      Modulator.resetPhase c.settings.resetNcoSelect.val = .ok reset ∧
      Modulator.setFrequency c.nco c.carrier = .ok tune := by
  have hsource : Flow.wait ∈ source.flow?.toList := by
    rw [← List.count_pos_iff, ← count_setFrequency_operations hflag, ← h.operations, List.count_pos_iff]
    exact List.mem_filterMap.2 ⟨w, List.mem_of_getElem? hj, hw⟩
  cases h with
  | @wait reset tune hreset htune =>
    refine ⟨reset, tune, rfl, ?_, hreset, htune⟩
    have hother : ∀ v ∈ [Word.sync, reset] ++ [Word.wait],
        ¬ Word.modulation? v = some .setFrequency := by
      simp [Word.modulation?_of_modulation hreset]
    exact eq_length_of_getElem? hother hj hw
  | flow hf _ => simp [Source.flow?, Ne.symm hf] at hsource
  | _ => cases hsource

end Context

/-! ## Compiled sequences -/

/-- What the modulator does as often in every piece as control flow asks for, it does so in all. -/
theorem count_modulation?_flatMap {op : ModulationOp} {f : Flow} {ps : List Piece}
    (h : ∀ x ∈ ps, (x.words.filterMap Word.modulation?).count op = x.source.flow?.toList.count f) :
    ((ps.flatMap Piece.words).filterMap Word.modulation?).count op =
      (ps.filterMap (·.source.flow?)).count f := by
  induction ps with
  | nil => rfl
  | cons x ps ih =>
    have hrest := ih fun y hy => h y (List.mem_cons_of_mem _ hy)
    rw [List.flatMap_cons, List.filterMap_append, List.count_append, h x List.mem_cons_self, hrest,
      filterMap_cons_toList, List.count_append]

section

variable {entries : List Entry} {map : ChannelMap} {pulses : Option Repertoire} {settings : Settings}
  {prog : Program} {t : Session}

/-- Phases that are left to the samples are not set. -/
theorem compile_without_setPhase (hflag : settings.phaseByInstruction = false)
    (h : compile entries map pulses settings = .ok prog t) :
    ∀ w ∈ prog.words, Word.modulation? w ≠ some .setPhase := by
  obtain ⟨parts, hparts⟩ := compile_pieces h
  intro w hw hmod
  rw [hparts.words_eq] at hw
  obtain ⟨x, hx, hwx⟩ := List.mem_flatMap.1 hw
  have hops := (hparts.emits hx).2.operations
  have hmem := List.mem_filterMap.2 ⟨w, hwx, hmod⟩
  rw [hops] at hmem
  exact Context.setPhase_not_mem_operations hflag x.source hmem

/-- Frequencies that are left to the samples are not set: the words that tune are those of waits. -/
theorem compile_setFrequency_of_waits (hflag : settings.frequencyByInstruction = false)
    (h : compile entries map pulses settings = .ok prog t) :
    (prog.words.filterMap Word.modulation?).count .setFrequency =
        (entries.filterMap Entry.flow?).count .wait ∧
      ∀ (i : Nat) (w : Word), prog.words[i]? = some w → Word.modulation? w = some .setFrequency →
        prog.words[i + 1]? = some Word.wait ∧ Prepared settings map.carrier prog.words (i + 1) := by
  obtain ⟨parts, hparts⟩ := compile_pieces h
  obtain ⟨prologue, _, hmap⟩ := hparts.assembled
  constructor
  · rw [hparts.words_eq, ← Context.flows_of_mapM hmap]
    apply count_modulation?_flatMap
    intro x hx
    rw [(hparts.emits hx).2.operations]
    exact Context.count_setFrequency_operations hflag x.source
  · intro i w hi hw
    rw [hparts.words_eq] at hi ⊢
    obtain ⟨k, x, j, hk, hj, rfl⟩ := exists_of_getElem?_flatMap hi
    obtain ⟨reset, tune, hwords, rfl, hreset, htune⟩ :=
      (hparts.emits (List.mem_of_getElem? hk)).2.wait_of_setFrequency hflag hj hw
    have hplace : ∀ d, d < 4 → (parts.flatten.flatMap Piece.words)[
        ((parts.flatten.take k).flatMap Piece.words).length + d]? =
          [Word.sync, reset, tune, Word.wait][d]? := by
      intro d hd
      rw [← hwords]
      exact getElem?_flatMap_add hk (by rw [hwords]; exact hd)
    exact ⟨hplace 3 (by decide), _, reset, tune, rfl, hreset, htune, hplace 0 (by decide),
      hplace 1 (by decide), hplace 2 (by decide)⟩

end

/-- **Phase and frequency are applied once.** If instructions apply the phase, sequences that differ in
the phases of their pulses have the same waveforms and records, and words that differ in the immediates
that set phases. If instructions apply the frequency, sequences that differ in the frequencies of their
pulses have the same waveforms and records, and the same words apart from those that tune. A phase that
the samples apply is never set, and if the samples apply frequencies, the words that tune are those that
go before waits. -/
theorem compile_deferral (entries entries' : List Entry) (map : ChannelMap)
    (pulses pulses' : Option Repertoire) (settings : Settings) :
    (settings.phaseByInstruction = true →
      SameUpTo Pulse.erasePhase entries entries' pulses pulses' → ∀ prog prog' t t',
        compile entries map pulses settings = .ok prog t →
        compile entries' map pulses' settings = .ok prog' t' →
        prog'.memory = prog.memory ∧ prog'.library = prog.library ∧
          prog'.words.map Word.erasePhase = prog.words.map Word.erasePhase) ∧
    (settings.frequencyByInstruction = true →
      SameUpTo Pulse.eraseFrequency entries entries' pulses pulses' → ∀ prog prog' t t',
        compile entries map pulses settings = .ok prog t →
        compile entries' map pulses' settings = .ok prog' t' →
        prog'.memory = prog.memory ∧ prog'.library = prog.library ∧
          prog'.words.filter Word.keepsFrequency = prog.words.filter Word.keepsFrequency) ∧
    ∀ prog t, compile entries map pulses settings = .ok prog t →
      (settings.phaseByInstruction = false →
        ∀ w ∈ prog.words, Word.modulation? w ≠ some .setPhase) ∧
      (settings.frequencyByInstruction = false →
        (prog.words.filterMap Word.modulation?).count .setFrequency =
            (entries.filterMap Entry.flow?).count .wait ∧
          ∀ (i : Nat) (w : Word), prog.words[i]? = some w → Word.modulation? w = some .setFrequency →
            prog.words[i + 1]? = some Word.wait ∧ Prepared settings map.carrier prog.words (i + 1)) := by
  refine ⟨?_, ?_, ?_⟩
  · intro hflag hsame prog prog' t t' h h'
    obtain ⟨hmemory, hlibrary, hwords⟩ := compile_same (transparent_erasePhase hflag)
      (fun library => (map.context library settings).hides_erasePhase) hsame h h'
    have hview : ∀ words : List Word, words.filterMap phaseView = words.map Word.erasePhase :=
      fun words => congrFun (List.filterMap_eq_map (f := Word.erasePhase)) words
    rw [hview, hview] at hwords
    exact ⟨hmemory, hlibrary, hwords⟩
  · intro hflag hsame prog prog' t t' h h'
    obtain ⟨hmemory, hlibrary, hwords⟩ := compile_same (transparent_eraseFrequency hflag)
      (fun library => (map.context library settings).hides_eraseFrequency) hsame h h'
    have hview : ∀ words : List Word, words.filterMap tuningView = words.filter Word.keepsFrequency :=
      fun words => congrFun (List.filterMap_eq_filter (p := Word.keepsFrequency)) words
    rw [hview, hview] at hwords
    exact ⟨hmemory, hlibrary, hwords⟩
  · intro prog t h
    exact ⟨fun hflag => compile_without_setPhase hflag h,
      fun hflag => compile_setFrequency_of_waits hflag h⟩

/-- A trigger, then a given pulse and a plain one. -/
def triggered (p : Pulse) : List Entry :=
  [.flow .wait, .block (.ofList [(.analog "q" 1.0e7 0, [.pulse p, .pulse ownPulse])])]

theorem sameUpTo_triggered {f : Pulse → Pulse} {p q : Pulse} (h : f p = f q) :
    SameUpTo f (triggered p) (triggered q) none none := by
  have hmap : ∀ p, (triggered p).map (Entry.mapPulses f) = [.flow .wait,
      .block ⟨[(.analog "q" 1.0e7 0, [.pulse (f p), .pulse (f ownPulse)])]⟩] := fun _ => rfl
  exact ⟨by rw [hmap, hmap, h], rfl⟩

/-- Another phase changes a word but not what is stored; at the carrier two words are saved. If the
samples apply both, the only word that tunes is that of the trigger. -/
theorem compile_deferral_shiftedPulse :
    (∃ prog turned plain t t' t'',
      compile (triggered shiftedPulse) shiftedMap none ⟨true, true, 1, 0xf⟩ = .ok prog t ∧
      compile (triggered { shiftedPulse with phase := 0.25 }) shiftedMap none ⟨true, true, 1, 0xf⟩ =
        .ok turned t' ∧
      compile (triggered { shiftedPulse with frequency := 0.0 }) shiftedMap none ⟨true, true, 1, 0xf⟩ =
        .ok plain t'' ∧
      turned.memory = prog.memory ∧ turned.words ≠ prog.words ∧
      turned.words.map Word.erasePhase = prog.words.map Word.erasePhase ∧
      plain.memory = prog.memory ∧ plain.words.length + 2 = prog.words.length ∧
      plain.words.filter Word.keepsFrequency = prog.words.filter Word.keepsFrequency) ∧
    ∃ prog t, compile (triggered sharedPulse) shiftedMap none {} = .ok prog t ∧
      (∀ w ∈ prog.words, Word.modulation? w ≠ some .setPhase) ∧
      (prog.words.filterMap Word.modulation?).count .setFrequency = 1 := by
  constructor
  · have hrun : (Encoder.value? (compile (triggered shiftedPulse) shiftedMap none
        ⟨true, true, 1, 0xf⟩)).map (fun prog => (prog.words.length, prog.words[4]?)) =
          some (12, some 0xa100a10003d1d915) := by
      decide +kernel
    have hturned : (Encoder.value? (compile (triggered { shiftedPulse with phase := 0.25 }) shiftedMap
        none ⟨true, true, 1, 0xf⟩)).map (fun prog => prog.words[4]?) = some (some 0xa100a10000a2f983) := by
      decide +kernel
    have hplain : (Encoder.value? (compile (triggered { shiftedPulse with frequency := 0.0 }) shiftedMap
        none ⟨true, true, 1, 0xf⟩)).map (fun prog => prog.words.length) = some 10 := by
      decide +kernel
    obtain ⟨prog, t, h, hprog⟩ := Encoder.exists_of_value? hrun
    obtain ⟨turned, t', h', hphase⟩ := Encoder.exists_of_value? hturned
    obtain ⟨plain, t'', h'', hshort⟩ := Encoder.exists_of_value? hplain
    obtain ⟨hlength, hword⟩ := Prod.mk.inj hprog
    obtain ⟨hmemory, _, hwords⟩ := (compile_deferral (triggered shiftedPulse)
      (triggered { shiftedPulse with phase := 0.25 }) shiftedMap none none ⟨true, true, 1, 0xf⟩).1 rfl
      (sameUpTo_triggered (Pulse.erasePhase_eq_iff.2 ⟨_, rfl⟩)) prog turned t t' h h'
    obtain ⟨hmemory', _, hwords'⟩ := (compile_deferral (triggered shiftedPulse)
      (triggered { shiftedPulse with frequency := 0.0 }) shiftedMap none none ⟨true, true, 1, 0xf⟩).2.1
      rfl (sameUpTo_triggered (Pulse.eraseFrequency_eq_iff.2 ⟨_, rfl⟩)) prog plain t t'' h h''
    refine ⟨prog, turned, plain, t, t', t'', h, h', h'', hmemory, ?_, hwords, hmemory', by omega,
      hwords'⟩
    intro heq
    rw [heq, hword] at hphase
    cases hphase
  · have hrun : (Encoder.value? (compile (triggered sharedPulse) shiftedMap none {})).map (fun _ => ()) =
        some () := by
      decide +kernel
    obtain ⟨prog, t, h, _⟩ := Encoder.exists_of_value? hrun
    obtain ⟨hphase, hfrequency⟩ :=
      (compile_deferral (triggered sharedPulse) [] shiftedMap none none {}).2.2 prog t h
    exact ⟨prog, t, h, hphase rfl, (hfrequency rfl).1⟩

end PulseSequencer
