import PulseSequencer.Proofs.Decoding

/-!
# The format of words

Words and instructions are the same thing, up to 64 bits, and a word is read as it was put together, up
to the widths of its fields. Nothing is asked of the integers that are put in: a negative one is cut in
two's complement.

* `Instruction.toWord_ofWord`, `Instruction.ofWord_toWord` — words and instructions.
* `Instruction.ReadsWaveform`, `Instruction.ReadsMarker`, `Instruction.ReadsModulation`,
  `Instruction.ReadsControl` — what an instruction of each family says; an instruction says one thing
  only.
* `Instruction.format_roundTrip` — what the words of each family are read as, so that values that fit
  their fields can be told from the word.
-/

namespace PulseSequencer

/-- A value fits a field. -/
def Field.Fits (f : Field) (v : Int) : Prop := 0 ≤ v ∧ v < f.size

instance (f : Field) (v : Int) : Decidable (f.Fits v) := inferInstanceAs (Decidable (_ ∧ _))

/-- Values that fit are not cut, so they are the same if what is left of them is. -/
theorem Field.Fits.eq_of_emod_eq {f : Field} {v v' : Int} (h : f.Fits v) (h' : f.Fits v')
    (heq : v % f.size = v' % f.size) : v = v' := by
  rwa [Int.emod_eq_of_lt h.1 h.2, Int.emod_eq_of_lt h'.1 h'.2] at heq

namespace Instruction

/-! ## Words and instructions -/

/-- An integer is taken apart and put together again, up to its low 64 bits. -/
theorem toWord_ofWord (w : Int) : (ofWord w).toWord = w % 0x10000000000000000 := by
  simp only [ofWord, toWord, Field.get, Field.size, Field.weight, Layout.header, Layout.payload,
    Nat.reduceShiftLeft]
  omega

/-- An instruction whose parts fit is put together and taken apart again. -/
theorem ofWord_toWord {i : Instruction} (hheader : Layout.header.Fits i.header)
    (hpayload : Layout.payload.Fits i.payload) : ofWord i.toWord = i := by
  obtain ⟨header, payload⟩ := i
  simp only [Field.Fits, Field.size, Layout.header, Layout.payload, Nat.reduceShiftLeft] at hheader hpayload
  simp only [ofWord, toWord, Field.get, Field.size, Field.weight, Layout.header, Layout.payload,
    Nat.reduceShiftLeft, mk.injEq]
  omega

/-! ## Waveforms -/

/-- The instruction is for both waveform engines, with the given operation and fields. -/
structure ReadsWaveform (i : Instruction) (op : WaveformOp) (address count : Int)
    (isTa write : Bool) : Prop where
  opcode_eq : i.opcode = .ok .waveform
  engine_eq : i.engine = 3
  waveformOp_eq : i.waveformOp = op
  address_eq : (i.address : Int) = address
  count_eq : (i.count : Int) = count
  isTa_eq : i.isTa = isTa
  write_eq : i.write = write

theorem ReadsWaveform.unique {i : Instruction} {op op' : WaveformOp} {a a' c c' : Int}
    {t t' w w' : Bool} (h : i.ReadsWaveform op a c t w) (h' : i.ReadsWaveform op' a' c' t' w') :
    op = op' ∧ a = a' ∧ c = c' ∧ t = t' ∧ w = w' :=
  ⟨h.waveformOp_eq.symm.trans h'.waveformOp_eq, h.address_eq.symm.trans h'.address_eq,
    h.count_eq.symm.trans h'.count_eq, h.isTa_eq.symm.trans h'.isTa_eq,
    h.write_eq.symm.trans h'.write_eq⟩

theorem readsWaveform_waveform (address count : Int) (isTa write : Bool) :
    (ofWord (Word.waveform address count isTa write)).ReadsWaveform .play (address % 0x1000000)
      (count % 0x100000) isTa write := by
  obtain ⟨hta, hcount, haddress, hop⟩ := waveform_fields address count isTa write
  exact ⟨opcode_pack _ _ _ _, Int.ofNat_inj.1 (engine_pack _ _ _ _), hop, haddress, hcount, hta,
    write_pack _ _ _ _⟩

/-- A word that only prefetches has no count. -/
theorem readsWaveform_waveformPrefetch (address : Int) :
    (ofWord (Word.waveformPrefetch address)).ReadsWaveform .prefetch (address % 0x1000000) 0 false
      true := by
  obtain ⟨hta, hcount, haddress, hop⟩ := waveformPrefetch_fields address
  exact ⟨opcode_pack _ _ _ _, Int.ofNat_inj.1 (engine_pack _ _ _ _), hop, haddress, hcount, hta,
    write_pack _ _ _ _⟩

/-! ## Markers -/

/-- The instruction plays a marker, with the given fields. -/
structure ReadsMarker (i : Instruction) (select : Int) (state : Bool) (quads transition : Int)
    (write : Bool) : Prop where
  opcode_eq : i.opcode = .ok .marker
  waveformOp_eq : i.waveformOp = .play
  select_eq : (i.markerSelect : Int) = select
  state_eq : i.state = state
  quads_eq : (i.quads : Int) = quads
  transition_eq : (i.transition : Int) = transition
  write_eq : i.write = write

theorem ReadsMarker.unique {i : Instruction} {m m' q q' t t' : Int} {s s' w w' : Bool}
    (h : i.ReadsMarker m s q t w) (h' : i.ReadsMarker m' s' q' t' w') :
    m = m' ∧ s = s' ∧ q = q' ∧ t = t' ∧ w = w' :=
  ⟨h.select_eq.symm.trans h'.select_eq, h.state_eq.symm.trans h'.state_eq,
    h.quads_eq.symm.trans h'.quads_eq, h.transition_eq.symm.trans h'.transition_eq,
    h.write_eq.symm.trans h'.write_eq⟩

theorem readsMarker_marker (select : Int) (state : Bool) (quads transition : Int) (write : Bool) :
    (ofWord (Word.marker select state quads transition write)).ReadsMarker ((select - 1) % 4 + 1) state
      (quads % 0x10000000) (transition % 16) write := by
  obtain ⟨hselect, hstate, hquads, htransition, hop⟩ :=
    marker_fields select state quads transition write
  exact ⟨opcode_pack _ _ _ _, hop, hselect, hstate, hquads, htransition, write_pack _ _ _ _⟩

/-! ## The modulator -/

/-- The instruction lets the modulator act, with the given operation and fields. -/
structure ReadsModulation (i : Instruction) (op : ModulationOp) (nco payload : Int) : Prop where
  opcode_eq : i.opcode = .ok .modulator
  modulationOp_eq : i.modulationOp = .ok op
  nco_eq : (i.nco : Int) = nco
  immediate_eq : i.immediate = payload

theorem ReadsModulation.unique {i : Instruction} {op op' : ModulationOp} {n n' p p' : Int}
    (h : i.ReadsModulation op n p) (h' : i.ReadsModulation op' n' p') : op = op' ∧ n = n' ∧ p = p' :=
  ⟨Except.ok.inj (h.modulationOp_eq.symm.trans h'.modulationOp_eq), h.nco_eq.symm.trans h'.nco_eq,
    h.immediate_eq.symm.trans h'.immediate_eq⟩

theorem readsModulation_modulation {op : ModulationOp} {nco payload : Int} {w : Word}
    (h : Word.modulation op nco payload = .ok w) : (ofWord w).ReadsModulation op (nco % 16) payload := by
  obtain ⟨hop, hmod, hnco, himm⟩ := modulation_fields h
  exact ⟨hop, hmod, hnco, himm⟩

/-- The payload of a modulator word is refused if 32 bits do not hold it, and for no other reason. -/
theorem modulation_eq_error {op : ModulationOp} {nco payload : Int} {f : Fault} :
    Word.modulation op nco payload = .error f ↔ (payload < -0x80000000 ∨ 0x80000000 ≤ payload) ∧
      f = .outOfRange .modulationPayload payload Word.maxPayload Word.minPayload := by
  have hrange : payload < Word.minPayload ∨ Word.maxPayload < payload ↔
      payload < -0x80000000 ∨ 0x80000000 ≤ payload := by
    unfold Word.minPayload Word.maxPayload
    omega
  rw [← hrange]
  exact checkRange_then_eq_error

/-! ## Control flow -/

/-- The instruction has the given opcode and payload and selects no engine. -/
structure ReadsControl (i : Instruction) (op : Opcode) (payload : Int) (write : Bool) : Prop where
  opcode_eq : i.opcode = .ok op
  engine_eq : i.engine = 0
  payload_eq : i.payload = payload
  write_eq : i.write = write

theorem ReadsControl.unique {i : Instruction} {op op' : Opcode} {p p' : Int} {w w' : Bool}
    (h : i.ReadsControl op p w) (h' : i.ReadsControl op' p' w') : op = op' ∧ p = p' ∧ w = w' :=
  ⟨Except.ok.inj (h.opcode_eq.symm.trans h'.opcode_eq), h.payload_eq.symm.trans h'.payload_eq,
    h.write_eq.symm.trans h'.write_eq⟩

theorem readsControl_control (op : Opcode) (payload : Int) (write : Bool) :
    (ofWord (Word.control op payload write)).ReadsControl op (payload % 0x100000000000000) write :=
  ⟨opcode_pack _ _ _ _, Int.ofNat_inj.1 (engine_pack _ _ _ _),
    congrArg Instruction.payload (ofWord_pack _ _ _ _), write_pack _ _ _ _⟩

end Instruction

/-! ## Values that fit -/

namespace Word

open Instruction

theorem eq_of_waveform_eq {a a' c c' : Int} {t t' w w' : Bool} (ha : Layout.address.Fits a)
    (ha' : Layout.address.Fits a') (hc : Layout.count.Fits c) (hc' : Layout.count.Fits c')
    (h : waveform a c t w = waveform a' c' t' w') : a = a' ∧ c = c' ∧ t = t' ∧ w = w' := by
  have hread := readsWaveform_waveform a c t w
  rw [h] at hread
  obtain ⟨_, haddress, hcount, hpair, hwrite⟩ := hread.unique (readsWaveform_waveform a' c' t' w')
  exact ⟨ha.eq_of_emod_eq ha' haddress, hc.eq_of_emod_eq hc' hcount, hpair, hwrite⟩

theorem eq_of_waveformPrefetch_eq {a a' : Int} (ha : Layout.address.Fits a)
    (ha' : Layout.address.Fits a') (h : waveformPrefetch a = waveformPrefetch a') : a = a' := by
  have hread := readsWaveform_waveformPrefetch a
  rw [h] at hread
  obtain ⟨_, haddress, _⟩ := hread.unique (readsWaveform_waveformPrefetch a')
  exact ha.eq_of_emod_eq ha' haddress

/-- Outputs are counted from one. -/
theorem eq_of_marker_eq {m m' q q' t t' : Int} {s s' w w' : Bool} (hm : Layout.engine.Fits (m - 1))
    (hm' : Layout.engine.Fits (m' - 1)) (hq : Layout.quads.Fits q) (hq' : Layout.quads.Fits q')
    (ht : Layout.transition.Fits t) (ht' : Layout.transition.Fits t')
    (h : marker m s q t w = marker m' s' q' t' w') : m = m' ∧ s = s' ∧ q = q' ∧ t = t' ∧ w = w' := by
  have hread := readsMarker_marker m s q t w
  rw [h] at hread
  obtain ⟨hselect, hstate, hquads, htransition, hwrite⟩ :=
    hread.unique (readsMarker_marker m' s' q' t' w')
  have hengine : (m - 1) % 4 = (m' - 1) % 4 := by omega
  have hsame : m - 1 = m' - 1 := hm.eq_of_emod_eq hm' hengine
  exact ⟨by omega, hstate, hq.eq_of_emod_eq hq' hquads, ht.eq_of_emod_eq ht' htransition, hwrite⟩

/-- A payload that is not refused is not cut. -/
theorem eq_of_modulation_eq {op op' : ModulationOp} {n n' p p' : Int} {w : Word}
    (hn : Layout.nco.Fits n) (hn' : Layout.nco.Fits n') (h : modulation op n p = .ok w)
    (h' : modulation op' n' p' = .ok w) : op = op' ∧ n = n' ∧ p = p' := by
  obtain ⟨hop, hnco, hpayload⟩ :=
    (readsModulation_modulation h).unique (readsModulation_modulation h')
  exact ⟨hop, hn.eq_of_emod_eq hn' hnco, hpayload⟩

theorem eq_of_control_eq {op op' : Opcode} {p p' : Int} {w w' : Bool} (hp : Layout.payload.Fits p)
    (hp' : Layout.payload.Fits p') (h : control op p w = control op' p' w') :
    op = op' ∧ p = p' ∧ w = w' := by
  have hread := readsControl_control op p w
  rw [h] at hread
  obtain ⟨hop, hpayload, hwrite⟩ := hread.unique (readsControl_control op' p' w')
  exact ⟨hop, hp.eq_of_emod_eq hp' hpayload, hwrite⟩

end Word

/-- **What is put into a word is read from it.** Any integer is an instruction up to its low 64 bits, and
an instruction whose parts fit is its word. The words of each family are read as the values they were
made from, each cut to the width of its field; only a payload of the modulator is refused instead, if 32
bits do not hold it. So the words of a family are different for different values that fit. -/
theorem Instruction.format_roundTrip :
    (∀ w : Int, (ofWord w).toWord = w % 0x10000000000000000) ∧
    (∀ i : Instruction, Layout.header.Fits i.header → Layout.payload.Fits i.payload →
      ofWord i.toWord = i) ∧
    (∀ address count isTa write,
      (ofWord (Word.waveform address count isTa write)).ReadsWaveform .play (address % 0x1000000)
        (count % 0x100000) isTa write) ∧
    (∀ address, (ofWord (Word.waveformPrefetch address)).ReadsWaveform .prefetch (address % 0x1000000)
      0 false true) ∧
    (∀ select state quads transition write,
      (ofWord (Word.marker select state quads transition write)).ReadsMarker ((select - 1) % 4 + 1)
        state (quads % 0x10000000) (transition % 16) write) ∧
    (∀ op nco payload,
      ((∃ f, Word.modulation op nco payload = .error f) ↔
        payload < -0x80000000 ∨ 0x80000000 ≤ payload) ∧
      (∀ f, Word.modulation op nco payload = .error f →
        f = .outOfRange .modulationPayload payload 0x7fffffff (-0x80000000)) ∧
      ∀ w : Word, Word.modulation op nco payload = .ok w →
        (ofWord w).ReadsModulation op (nco % 16) payload) ∧
    (∀ op payload write, (ofWord (Word.control op payload write)).ReadsControl op
      (payload % 0x100000000000000) write) ∧
    (∀ a a' c c' t t' w w', Layout.address.Fits a → Layout.address.Fits a' → Layout.count.Fits c →
      Layout.count.Fits c' → Word.waveform a c t w = Word.waveform a' c' t' w' →
      a = a' ∧ c = c' ∧ t = t' ∧ w = w') ∧
    (∀ a a', Layout.address.Fits a → Layout.address.Fits a' →
      Word.waveformPrefetch a = Word.waveformPrefetch a' → a = a') ∧
    (∀ m m' s s' q q' t t' w w', Layout.engine.Fits (m - 1) → Layout.engine.Fits (m' - 1) →
      Layout.quads.Fits q → Layout.quads.Fits q' → Layout.transition.Fits t →
      Layout.transition.Fits t' → Word.marker m s q t w = Word.marker m' s' q' t' w' →
      m = m' ∧ s = s' ∧ q = q' ∧ t = t' ∧ w = w') ∧
    (∀ op op' n n' p p' w, Layout.nco.Fits n → Layout.nco.Fits n' → Word.modulation op n p = .ok w →
      Word.modulation op' n' p' = .ok w → op = op' ∧ n = n' ∧ p = p') ∧
    (∀ op op' p p' w w', Layout.payload.Fits p → Layout.payload.Fits p' →
      Word.control op p w = Word.control op' p' w' → op = op' ∧ p = p' ∧ w = w') := by
  refine ⟨toWord_ofWord, fun _ => ofWord_toWord, readsWaveform_waveform, readsWaveform_waveformPrefetch,
    readsMarker_marker, fun op nco payload => ⟨?_, ?_, fun _ => readsModulation_modulation⟩,
    readsControl_control, fun _ _ _ _ _ _ _ _ => Word.eq_of_waveform_eq,
    fun _ _ => Word.eq_of_waveformPrefetch_eq, fun _ _ _ _ _ _ _ _ _ _ => Word.eq_of_marker_eq,
    fun _ _ _ _ _ _ _ => Word.eq_of_modulation_eq, fun _ _ _ _ _ _ => Word.eq_of_control_eq⟩
  · constructor
    · rintro ⟨f, hf⟩
      exact (modulation_eq_error.1 hf).1
    · intro hrange
      exact ⟨_, modulation_eq_error.2 ⟨hrange, rfl⟩⟩
  · intro f hf
    exact (modulation_eq_error.1 hf).2

/-- Values at the ends of their fields and beyond them. -/
theorem Instruction.format_roundTrip_ends :
    ofWord (toWord ⟨0xff, 0xffffffffffffff⟩) = ⟨0xff, 0xffffffffffffff⟩ ∧
      (ofWord (Word.waveform (-1) 0x100001 true false)).ReadsWaveform .play 0xffffff 1 true false ∧
      (∃ f, Word.modulation .setFrequency 1 0x80000000 = .error f) ∧
      (∃ w : Word, Word.modulation .setFrequency (-1) (-0x80000000) = .ok w ∧
        (ofWord w).ReadsModulation .setFrequency 15 (-0x80000000)) ∧
      ∀ w, Word.control .goto 0x3ffffff true = Word.control .goto 0x3ffffff w → true = w := by
  obtain ⟨_, hinstruction, hwaveform, _, _, hmodulation, _, _, _, _, _, hcontrol⟩ := format_roundTrip
  have hrun : (Word.modulation .setFrequency (-1) (-0x80000000)).toOption.map id =
      some 0xa1006f0080000000 := by decide
  obtain ⟨w, hw, _⟩ := exists_of_toOption hrun
  exact ⟨hinstruction _ (by decide) (by decide), hwaveform (-1) 0x100001 true false,
    (hmodulation _ _ _).1.2 (by decide), ⟨w, hw, (hmodulation _ _ _).2.2 w hw⟩,
    fun w h => (hcontrol _ _ _ _ _ w (by decide) (by decide) h).2.2⟩

end PulseSequencer
