import PulseSequencer.Proofs.Pieces

/-!
# The oscillators along a program

A program is read from front to back, branches apart, with one register for the frequency and one for
the phase of the oscillators that drive the analog pair. Every piece leaves the frequency at the
carrier, so each pulse meets it there, whatever the other lanes and the waits put between.

* `Oscillator.step`, `Oscillator.run` — the registers after a word, and after words.
* `Oscillator.SetFor` — the registers are those that a pulse asks for.
* `Context.Emits.frequency` — every piece leaves the frequency at the carrier.
* `Context.Emits.setFor` — a piece that lets the oscillators run has set them for its pulse.
* `compile_oscillator` — the registers at every run of the oscillators, and after every piece.
-/

namespace PulseSequencer

/-- The registers of the oscillators of one selection. -/
@[ext]
structure Oscillator where
  frequency : Int
  phase : Int
  deriving DecidableEq, Repr

/-- What a word of the modulator gives to the oscillators `nco` by an operation. -/
def Word.operand? (op : ModulationOp) (nco : Nat) (w : Word) : Option Int :=
  if Word.modulation? w = some op ∧ (Instruction.ofWord w).nco = nco then
    some (Instruction.ofWord w).immediate
  else none

/-- The oscillators of a selection are given the payload of their words, and nothing else. -/
theorem Word.operand?_of_modulation {op : ModulationOp} {nco : Fin 16} {payload : Int} {w : Word}
    (h : Word.modulation op nco.val payload = .ok w) (op' : ModulationOp) :
    Word.operand? op' nco.val w = if op = op' then some payload else none := by
  obtain ⟨_, _, hnco, himm⟩ := Instruction.modulation_fields h
  have hselect : (Instruction.ofWord w).nco = nco.val := by
    have := nco.isLt
    omega
  unfold Word.operand?
  rw [Word.modulation?_of_modulation h, hselect, himm]
  simp

theorem Word.operand?_eq_none {w : Word} (h : Word.modulation? w = none) (op : ModulationOp) (nco : Nat) :
    Word.operand? op nco w = none := by
  unfold Word.operand?
  rw [h, if_neg (by simp)]

namespace Oscillator

/-- The registers after a word. -/
def step (nco : Nat) (o : Oscillator) (w : Word) : Oscillator where
  frequency := (Word.operand? .setFrequency nco w).getD o.frequency
  phase := (Word.operand? .setPhase nco w).getD o.phase

/-- The registers after words. -/
def run (nco : Nat) (o : Oscillator) (words : List Word) : Oscillator := words.foldl (step nco) o

@[simp] theorem run_nil (nco : Nat) (o : Oscillator) : run nco o [] = o := rfl

@[simp] theorem run_cons (nco : Nat) (o : Oscillator) (w : Word) (words : List Word) :
    run nco o (w :: words) = run nco (step nco o w) words := rfl

theorem run_append (nco : Nat) (o : Oscillator) (xs ys : List Word) :
    run nco o (xs ++ ys) = run nco (run nco o xs) ys := List.foldl_append

theorem step_of_modulation {op : ModulationOp} {nco : Fin 16} {payload : Int} {w : Word}
    (h : Word.modulation op nco.val payload = .ok w) (o : Oscillator) :
    step nco.val o w = ⟨if op = .setFrequency then payload else o.frequency,
      if op = .setPhase then payload else o.phase⟩ := by
  unfold step
  rw [Word.operand?_of_modulation h, Word.operand?_of_modulation h]
  cases op <;> rfl

/-- Words that are not for the modulator leave the registers as they are. -/
theorem step_of_modulation?_eq_none {w : Word} (h : Word.modulation? w = none) (nco : Nat)
    (o : Oscillator) : step nco o w = o := by
  unfold step
  rw [Word.operand?_eq_none h, Word.operand?_eq_none h]
  rfl

/-- A phase that is set on a condition. -/
theorem run_setPhase {cond : Bool} {nco : Fin 16} {phase : Float} {words : List Word}
    (h : Optionally cond (Modulator.setPhase nco.val phase) words) (o : Oscillator) :
    (run nco.val o words).frequency = o.frequency ∧
      (cond = true → phaseWord phase = .ok (run nco.val o words).phase) := by
  unfold Optionally at h
  split at h
  · obtain ⟨w, hw, rfl⟩ := h
    obtain ⟨payload, hpayload, hw⟩ := bind_eq_ok.1 hw
    rw [run_cons, run_nil, step_of_modulation hw]
    exact ⟨rfl, fun _ => hpayload⟩
  · rename_i hcond
    subst h
    exact ⟨rfl, fun hc => absurd hc hcond⟩

/-- A frequency that is set on a condition. -/
theorem run_setFrequency {cond : Bool} {nco : Fin 16} {frequency : Float} {words : List Word}
    (h : Optionally cond (Modulator.setFrequency nco.val frequency) words) (o : Oscillator) :
    (run nco.val o words).phase = o.phase ∧
      if cond then tuningWord frequency = .ok (run nco.val o words).frequency
      else (run nco.val o words).frequency = o.frequency := by
  unfold Optionally at h
  split at h
  · rename_i hcond
    obtain ⟨w, hw, rfl⟩ := h
    obtain ⟨payload, hpayload, hw⟩ := bind_eq_ok.1 hw
    rw [run_cons, run_nil, step_of_modulation hw, if_pos hcond]
    exact ⟨rfl, hpayload⟩
  · rename_i hcond
    subst h
    rw [if_neg hcond]
    exact ⟨rfl, rfl⟩

/-- The registers are those that a pulse asks for. -/
structure SetFor (settings : Settings) (carrier : Float) (p : Pulse) (o : Oscillator) : Prop where
  /-- The frequency is the carrier, moved by the offset of the pulse if instructions apply it. -/
  frequency : tuningWord (if settings.frequencyByInstruction && p.frequency != 0.0 then
    carrier + p.frequency else carrier) = .ok o.frequency
  phase : settings.phaseByInstruction = true → phaseWord p.phase = .ok o.phase

end Oscillator

/-! ## Pieces -/

namespace Context

variable {c : Context} {f : Int}

/-- Before the oscillators run they are set for the pulse. -/
theorem setFor_of_analog {p : Pulse} {setPhase tune : List Word}
    (hphase : Optionally c.settings.phaseByInstruction (Modulator.setPhase c.nco p.phase) setPhase)
    (htune : Optionally (c.retunes p) (Modulator.setFrequency c.nco (c.carrier + p.frequency)) tune)
    (hf : tuningWord c.carrier = .ok f) (phase : Int) :
    Oscillator.SetFor c.settings c.carrier p
      (Oscillator.run c.settings.ncoSelect.val ⟨f, phase⟩ (setPhase ++ tune)) := by
  rw [Oscillator.run_append]
  obtain ⟨hkeep, hset⟩ := Oscillator.run_setPhase hphase ⟨f, phase⟩
  obtain ⟨hkeep', hset'⟩ := Oscillator.run_setFrequency htune
    (Oscillator.run c.settings.ncoSelect.val ⟨f, phase⟩ setPhase)
  refine ⟨?_, fun hp => by rw [hkeep']; exact hset hp⟩
  change tuningWord (if c.retunes p then c.carrier + p.frequency else c.carrier) = _
  split at hset'
  · rename_i hcond
    rw [if_pos hcond]
    exact hset'
  · rename_i hcond
    rw [if_neg hcond, hset', hkeep]
    exact hf

/-- After an analog pulse the oscillators are back at the carrier. -/
theorem AnalogWords.frequency {p : Pulse} {r : Record} {words : List Word} (h : c.AnalogWords p r words)
    (hf : tuningWord c.carrier = .ok f) (phase : Int) :
    (Oscillator.run c.settings.ncoSelect.val ⟨f, phase⟩ words).frequency = f := by
  obtain ⟨setPhase, tune, w, restore, rfl, hphase, htune, hw, hrestore⟩ := h
  -- the run and the envelope change nothing, so all hangs on the tuning before and after them
  have hrun : ∀ o, Oscillator.run c.settings.ncoSelect.val o [w, r.word] = o := by
    intro o
    rw [Oscillator.run_cons, Oscillator.run_cons, Oscillator.step_of_modulation hw,
      Oscillator.step_of_modulation?_eq_none r.modulation?_word]
    rfl
  rw [Oscillator.run_append, Oscillator.run_append, Oscillator.run_append, hrun]
  have hback := (Oscillator.run_setFrequency hrestore (Oscillator.run c.settings.ncoSelect.val
    (Oscillator.run c.settings.ncoSelect.val ⟨f, phase⟩ setPhase) tune)).2
  split at hback
  · exact Except.ok.inj (hback.symm.trans hf)
  · rename_i hcond
    have hstay := (Oscillator.run_setFrequency htune
      (Oscillator.run c.settings.ncoSelect.val ⟨f, phase⟩ setPhase)).2
    rw [if_neg hcond] at hstay
    rw [hback, hstay, (Oscillator.run_setPhase hphase ⟨f, phase⟩).1]

/-- Every piece leaves the frequency at the carrier. -/
theorem Emits.frequency {source : Source} {words : List Word} (h : c.Emits source words)
    (hf : tuningWord c.carrier = .ok f) (phase : Int) :
    (Oscillator.run c.settings.ncoSelect.val ⟨f, phase⟩ words).frequency = f := by
  cases h with
  | @wait reset tune hreset htune =>
    obtain ⟨payload, hpayload, htune⟩ := bind_eq_ok.1 htune
    obtain rfl : payload = f := Except.ok.inj (hpayload.symm.trans hf)
    rw [Oscillator.run_cons, Oscillator.run_cons, Oscillator.run_cons, Oscillator.run_cons,
      Oscillator.run_nil, Oscillator.step_of_modulation?_eq_none Word.modulation?_wait,
      Oscillator.step_of_modulation htune, if_pos rfl]
  | flow hflow hw =>
    rw [Oscillator.run_cons, Oscillator.run_nil,
      Oscillator.step_of_modulation?_eq_none (Flow.modulation?_word hw)]
  | frame hw =>
    obtain ⟨payload, _, hw⟩ := bind_eq_ok.1 hw
    rw [Oscillator.run_cons, Oscillator.run_nil, Oscillator.step_of_modulation hw]
    rfl
  | analog hchannel hr hwords => exact hwords.frequency hf phase
  | @digital channel index p r hchannel hr =>
    rw [Oscillator.run_cons, Oscillator.run_nil,
      Oscillator.step_of_modulation?_eq_none r.modulation?_word]

/-- Where a piece lets the oscillators run, they are set for the pulse that it is emitted for. -/
theorem Emits.setFor {source : Source} {words : List Word} (h : c.Emits source words) {j : Nat}
    {w : Word} (hj : words[j]? = some w) (hmod : Word.modulation? w = some .modulate)
    (hf : tuningWord c.carrier = .ok f) (phase : Int) :
    ∃ channel index p, source = .element ⟨channel, index, .pulse p⟩ ∧ channel.isAnalog = true ∧
      Oscillator.SetFor c.settings c.carrier p
        (Oscillator.run c.settings.ncoSelect.val ⟨f, phase⟩ (words.take j)) := by
  obtain ⟨channel, index, p, r, hsource, hchannel, _, hwords⟩ := h.analog_of_modulate hj hmod
  obtain ⟨setPhase, tune, restore, rfl, rfl, hphase, htune, _⟩ := hwords.modulate_at hj hmod
  refine ⟨channel, index, p, hsource, hchannel, ?_⟩
  rw [List.append_assoc, List.take_left]
  exact setFor_of_analog hphase htune hf phase

end Context

/-! ## Programs -/

/-- Pieces that leave the frequency at `f`, one after the other. -/
theorem Oscillator.run_pieces {nco : Nat} {f : Int} {ps : List Piece}
    (h : ∀ x ∈ ps, ∀ phase, (run nco ⟨f, phase⟩ x.words).frequency = f) (phase : Int) :
    (run nco ⟨f, phase⟩ (ps.flatMap Piece.words)).frequency = f := by
  induction ps generalizing phase with
  | nil => rfl
  | cons x ps ih =>
    have hfirst : run nco ⟨f, phase⟩ x.words = ⟨f, (run nco ⟨f, phase⟩ x.words).phase⟩ :=
      Oscillator.ext (h x List.mem_cons_self phase) rfl
    rw [List.flatMap_cons, run_append, hfirst]
    exact ih (fun y hy => h y (List.mem_cons_of_mem _ hy)) _

section

variable {entries : List Entry} {map : ChannelMap} {pulses : Option Repertoire} {settings : Settings}
  {prog : Program} {t : Session}

/-- In a compiled sequence the analog channel of an element is that of the map. -/
theorem compile_analog (h : compile entries map pulses settings = .ok prog t) {channel : Channel}
    (hmem : channel ∈ map.channels) (hchannel : channel.isAnalog = true) : map.analog = some channel := by
  obtain ⟨o, ho⟩ := ChannelMap.exists_output hmem
  have hkind := ChannelMap.isAnalog_of_mem_outputs (compile_eq_ok h).1 ho
  rw [hchannel] at hkind
  obtain rfl := of_decide_eq_true hkind.symm
  exact ChannelMap.mem_outputs_analog.1 ho

/-- **The oscillators along a program.** They start at the carrier of the map, with any phase, and are
back at it after every entry and after every piece. Wherever they run, it is for a pulse on the analog
channel, and they are set for that pulse. -/
theorem compile_oscillator (h : compile entries map pulses settings = .ok prog t) (phase : Int) :
    ∃ parts f, Pieces (map.context prog.library settings) entries prog.words parts ∧
      tuningWord map.carrier = .ok f ∧
      (∀ k, (Oscillator.run settings.ncoSelect.val ⟨f, phase⟩
        ((parts.take k).flatten.flatMap Piece.words)).frequency = f) ∧
      (∀ k, (Oscillator.run settings.ncoSelect.val ⟨f, phase⟩
        ((parts.flatten.take k).flatMap Piece.words)).frequency = f) ∧
      ∀ i w, prog.words[i]? = some w → Word.modulation? w = some .modulate →
        ∃ channel index p, map.analog = some channel ∧
          EmittedFor parts.flatten i (.element ⟨channel, index, .pulse p⟩) ∧
          Oscillator.SetFor settings map.carrier p
            (Oscillator.run settings.ncoSelect.val ⟨f, phase⟩ (prog.words.take i)) := by
  obtain ⟨parts, hparts⟩ := compile_pieces h
  obtain ⟨prologue, hprologue, _⟩ := hparts.assembled
  obtain ⟨_, tune, _, htune, _⟩ := Context.prologue_eq_ok hprologue
  obtain ⟨f, hf, _⟩ := bind_eq_ok.1 htune
  have hback : ∀ ps : List Piece, (∀ x ∈ ps, x ∈ parts.flatten) → ∀ phase,
      (Oscillator.run settings.ncoSelect.val ⟨f, phase⟩ (ps.flatMap Piece.words)).frequency = f :=
    fun ps hps => Oscillator.run_pieces fun x hx phase =>
      (hparts.emits (hps x hx)).2.frequency hf phase
  refine ⟨parts, f, hparts, hf, fun k => hback _ (fun x hx => ?_) phase,
    fun k => hback _ (fun x hx => List.mem_of_mem_take hx) phase, ?_⟩
  · obtain ⟨ps, hps, hx⟩ := List.mem_flatten.1 hx
    exact List.mem_flatten.2 ⟨ps, List.mem_of_mem_take hps, hx⟩
  · intro i w hw hmod
    rw [hparts.words_eq] at hw
    obtain ⟨k, x, j, hk, hj, rfl⟩ := exists_of_getElem?_flatMap hw
    obtain ⟨hjx, _⟩ := List.getElem?_eq_some_iff.1 hj
    obtain ⟨⟨e, _, hsource⟩, hemits⟩ := hparts.emits (List.mem_of_getElem? hk)
    -- the piece starts at the carrier, with the phase that the pieces before it leave
    have hstart := hback (parts.flatten.take k) (fun x hx => List.mem_of_mem_take hx) phase
    obtain ⟨channel, index, p, hx, hchannel, hset⟩ := hemits.setFor hj hmod hf
      (Oscillator.run settings.ncoSelect.val ⟨f, phase⟩
        ((parts.flatten.take k).flatMap Piece.words)).phase
    rw [hx] at hsource
    obtain ⟨b, _, hmem, _⟩ := hsource
    refine ⟨channel, index, p, compile_analog h hmem hchannel, ⟨k, x, j, hk, hx, hjx, rfl⟩, ?_⟩
    rw [hparts.words_eq, take_flatMap_add hk hjx, Oscillator.run_append,
      show Oscillator.run settings.ncoSelect.val ⟨f, phase⟩
        ((parts.flatten.take k).flatMap Piece.words) = ⟨f, _⟩ from Oscillator.ext hstart rfl]
    exact hset

end

def shiftedPulse : Pulse := { sharedPulse with phase := 1.5, frequency := 2.0e7 }

def shiftedMap : ChannelMap where
  analog := some (.analog "q" 1.0e7 0)

/-- A trigger, then a pulse whose offset and phase are applied by instructions, and a plain one. -/
def shiftedEntries : List Entry :=
  [.flow .wait, .block (.ofList [(.analog "q" 1.0e7 0, [.pulse shiftedPulse, .pulse ownPulse])])]

theorem compile_oscillator_shiftedEntries :
    ∃ prog t, compile shiftedEntries shiftedMap none
        { phaseByInstruction := true, frequencyByInstruction := true } = .ok prog t ∧
      ∃ w, prog.words[6]? = some w ∧ Word.modulation? w = some .modulate ∧
        ∃ f channel index p parts, tuningWord shiftedMap.carrier = .ok f ∧
          shiftedMap.analog = some channel ∧
          EmittedFor parts 6 (.element ⟨channel, index, .pulse p⟩) ∧
          Oscillator.SetFor { phaseByInstruction := true, frequencyByInstruction := true }
            shiftedMap.carrier p (Oscillator.run Hardware.ncoSelect.val ⟨f, 0⟩ (prog.words.take 6)) := by
  have hrun : (Encoder.value? (compile shiftedEntries shiftedMap none
      { phaseByInstruction := true, frequencyByInstruction := true })).map (fun prog =>
        prog.words[6]?.bind Word.modulation?) = some (some .modulate) := by decide +kernel
  obtain ⟨prog, t, h, hw⟩ := Encoder.exists_of_value? hrun
  obtain ⟨w, hw, hmod⟩ := Option.bind_eq_some_iff.1 hw
  obtain ⟨parts, f, _, hf, _, _, hset⟩ := compile_oscillator h 0
  obtain ⟨channel, index, p, hchannel, hplace, hset⟩ := hset 6 w hw hmod
  exact ⟨prog, t, h, w, hw, hmod, f, channel, index, p, parts.flatten, hf, hchannel, hplace, hset⟩

end PulseSequencer
