import PulseSequencer.Proofs.FlowReading
import PulseSequencer.Proofs.WellFormed

/-!
# The disassembly loses nothing

A disassembly leaves out fields: the write bit of control words, the payload of a reset, the bits between
the fields. In the words of a program all of these are fixed, so the word can be made again from the
fields that are shown.

* `Instruction.reassembled` — the word that the shown fields make; `Instruction.reassembled_congr` — it
  depends on nothing else.
* `Word.Emittable`, `Context.Emits.emittable` — the words that programs are made of;
  `Word.Emittable.reassembled` — they are made again.
* `compile_disassembly_inj` — words and programs can be told from their texts.
-/

namespace PulseSequencer

/-! ## Words from shown fields -/

namespace Instruction

/-- The word that the shown fields of an instruction with an opcode make. -/
def reassembled (i : Instruction) : Opcode → Except Fault Word
  | .waveform => return Word.waveform i.address i.count i.isTa i.write
  | .marker => return Word.marker i.markerSelect i.state i.quads i.transition i.write
  | .modulator => do
    let m ← i.modulationOp
    Word.modulation m i.nco (if m = .resetPhase then 0 else i.immediate)
  | op => ((i.flowOf op).getD .unspecified).word

theorem reassembled_modulator {i : Instruction} {m : ModulationOp} (h : i.modulationOp = .ok m) :
    i.reassembled .modulator =
      Word.modulation m i.nco (if m = .resetPhase then 0 else i.immediate) := by
  rw [reassembled, h]
  rfl

theorem decimal_inj {m n : Nat} (h : Nat.toDigits 10 m = Nat.toDigits 10 n) : m = n :=
  toDigits_inj (by decide) (by decide) h

/-- Instructions that show the same make the same word. -/
theorem reassembled_congr {i j : Instruction} {op : Opcode} {xs : List Item} (hi : i.items op = .ok xs)
    (hj : j.items op = .ok xs) : i.reassembled op = j.reassembled op := by
  cases op with
  | waveform =>
    have h := Except.ok.inj (hi.trans hj.symm)
    simp only [engineItems, List.cons_append, List.nil_append, List.cons.injEq, Item.mk.injEq,
      true_and, and_true] at h
    obtain ⟨_, hwrite, _, hta, hcount, haddress⟩ := h
    rw [reassembled, reassembled, bit_inj hwrite, bit_inj hta, decimal_inj hcount,
      decimal_inj haddress]
  | marker =>
    have h := Except.ok.inj (hi.trans hj.symm)
    simp only [engineItems, List.cons_append, List.nil_append, List.cons.injEq, Item.mk.injEq,
      true_and, and_true] at h
    obtain ⟨hengine, hwrite, _, hstate, htransition, hquads⟩ := h
    rw [reassembled, reassembled, markerSelect, markerSelect, decimal_inj hengine, bit_inj hwrite,
      bit_inj hstate, padZeros_inj (by decide) (by decide) htransition, decimal_inj hquads]
  | modulator =>
    obtain ⟨m, hm, hi⟩ := bind_eq_ok.1 hi
    obtain ⟨m', hm', hj⟩ := bind_eq_ok.1 hj
    have h := Except.ok.inj (hi.trans hj.symm)
    simp only [List.cons.injEq, Item.mk.injEq, true_and] at h
    obtain ⟨hname, hnco, hpayload⟩ := h
    obtain rfl := ModulationOp.name_inj (String.toList_injective hname)
    rw [reassembled_modulator hm, reassembled_modulator hm', toDigits_inj (by decide) (by decide) hnco]
    -- the payload of a reset is not shown
    by_cases hreset : m = .resetPhase
    · rw [if_pos hreset, if_pos hreset]
    · simp only [hreset, if_false, List.cons.injEq, Item.mk.injEq, true_and, and_true] at hpayload
      rw [intText_inj hpayload]
  | compare =>
    have h := Except.ok.inj (hi.trans hj.symm)
    simp only [List.cons.injEq, Item.mk.injEq, true_and, and_true] at h
    obtain ⟨hname, hvalue⟩ := h
    simp only [reassembled, flowOf, CompareOp.name_inj (String.toList_injective hname),
      decimal_inj hvalue]
  | goto | call | decRepeat | prefetch | loadRepeat =>
    have h := Except.ok.inj (hi.trans hj.symm)
    simp only [List.cons.injEq, Item.mk.injEq, true_and, and_true] at h
    simp only [reassembled, flowOf, decimal_inj h]
  | wait | ret | sync | loadCompare => rfl

end Instruction

/-! ## Words of programs -/

/-- A word that a program can be made of. A reset has no payload. -/
inductive Word.Emittable : Word → Prop where
  | record (r : Record) : Emittable r.word
  | modulation {op : ModulationOp} {nco payload : Int} {w : Word}
      (hreset : op = .resetPhase → payload = 0) (hw : Word.modulation op nco payload = .ok w) :
      Emittable w
  | flow {f : Flow} {w : Word} (hw : f.word = .ok w) : Emittable w

theorem Word.waveform_cut (address count : Int) (isTa write : Bool) :
    Word.waveform (address % 0x1000000) (count % 0x100000) isTa write =
      Word.waveform address count isTa write := by
  have haddress : Layout.address.put (address % 0x1000000) = Layout.address.put address :=
    Layout.address.put_emod address
  have hcount : Layout.count.put (count % 0x100000) = Layout.count.put count :=
    Layout.count.put_emod count
  simp only [Word.waveform, Field.join, haddress, hcount]

theorem Word.marker_cut (select : Int) (state : Bool) (quads transition : Int) (write : Bool) :
    Word.marker ((select - 1) % 4 + 1) state (quads % 0x10000000) (transition % 16) write =
      Word.marker select state quads transition write := by
  have hengine : Layout.engine.put ((select - 1) % 4) = Layout.engine.put (select - 1) :=
    Layout.engine.put_emod (select - 1)
  have hquads : Layout.quads.put (quads % 0x10000000) = Layout.quads.put quads :=
    Layout.quads.put_emod quads
  have htransition : Layout.transition.put (transition % 16) = Layout.transition.put transition :=
    Layout.transition.put_emod transition
  simp only [Word.marker, Word.pack, Word.header, Field.join, Int.add_sub_cancel, hengine, hquads, htransition]

theorem Word.modulation_cut (op : ModulationOp) (nco payload : Int) :
    Word.modulation op (nco % 16) payload = Word.modulation op nco payload := by
  have hnco : Layout.nco.put (nco % 16) = Layout.nco.put nco := Layout.nco.put_emod nco
  simp only [Word.modulation, Field.join, hnco]

namespace Instruction

theorem reassembled_waveform (address count : Int) (isTa write : Bool) :
    (ofWord (Word.waveform address count isTa write)).reassembled .waveform =
      .ok (Word.waveform address count isTa write) := by
  have h := readsWaveform_waveform address count isTa write
  rw [reassembled, h.address_eq, h.count_eq, h.isTa_eq, h.write_eq, Word.waveform_cut]
  rfl

theorem reassembled_marker (select : Int) (state : Bool) (quads transition : Int) (write : Bool) :
    (ofWord (Word.marker select state quads transition write)).reassembled .marker =
      .ok (Word.marker select state quads transition write) := by
  have h := readsMarker_marker select state quads transition write
  rw [reassembled, h.select_eq, h.state_eq, h.quads_eq, h.transition_eq, h.write_eq, Word.marker_cut]
  rfl

theorem reassembled_modulation {op : ModulationOp} {nco payload : Int} {w : Word}
    (hreset : op = .resetPhase → payload = 0) (h : Word.modulation op nco payload = .ok w) :
    (ofWord w).reassembled .modulator = .ok w := by
  have hread := readsModulation_modulation h
  have hpayload : (if op = .resetPhase then 0 else payload) = payload := by
    split
    · rename_i hop
      exact (hreset hop).symm
    · rfl
  rw [reassembled_modulator hread.modulationOp_eq, hread.nco_eq, hread.immediate_eq, hpayload,
    Word.modulation_cut, h]

theorem reassembled_flow {f : Flow} {w : Word} {op : Opcode} (h : f.word = .ok w)
    (hop : (ofWord w).opcode = .ok op) : (ofWord w).reassembled op = .ok w := by
  have hflow : (ofWord w).flowOf op = some f := by
    rw [← flow?_of_opcode hop, Flow.flow?_word h]
  cases op with
  | waveform | marker | modulator => cases hflow
  | _ => simp only [reassembled, hflow, Option.getD_some, h]

end Instruction

/-- A word of a program is made again from its shown fields. -/
theorem Word.Emittable.reassembled {w : Word} (h : w.Emittable) :
    ∃ op, (Instruction.ofWord w).opcode = .ok op ∧ (Instruction.ofWord w).reassembled op = .ok w := by
  cases h with
  | record r =>
    cases r with
    | waveform v => exact ⟨_, v.opcode_word, Instruction.reassembled_waveform _ _ _ _⟩
    | marker m => exact ⟨_, m.opcode_word, Instruction.reassembled_marker _ _ _ _ _⟩
  | modulation hreset hw =>
    exact ⟨_, (Instruction.modulation_fields hw).1, Instruction.reassembled_modulation hreset hw⟩
  | flow hw =>
    obtain ⟨op, _, hop⟩ := Flow.opcode_word hw
    exact ⟨op, hop, Instruction.reassembled_flow hw hop⟩

/-- Every word of a piece. -/
theorem Context.Emits.emittable {c : Context} {source : Source} {words : List Word}
    (h : c.Emits source words) : ∀ w ∈ words, w.Emittable := by
  intro w hw
  cases source with
  | element o =>
    rcases h.element_word hw with ⟨_, r, _, rfl⟩ | ⟨op, _, hop, hv⟩
    · exact .record r
    · exact .modulation (fun hreset => absurd hreset hop) hv
  | flow f =>
    cases h with
    | @wait reset tune hreset htune =>
      obtain ⟨payload, _, htune⟩ := bind_eq_ok.1 htune
      simp only [List.mem_cons, List.not_mem_nil, or_false] at hw
      rcases hw with rfl | rfl | rfl | rfl
      · exact .flow (f := .sync) rfl
      · exact .modulation (fun _ => rfl) hreset
      · exact .modulation (fun hreset => by cases hreset) htune
      · exact .flow (f := .wait) rfl
    | flow hf hv =>
      obtain rfl := List.mem_singleton.1 hw
      exact .flow hv

/-- Words of programs can be told from their disassembly. -/
theorem Word.Emittable.eq_of_text {w w' : Word} (h : w.Emittable) (h' : w'.Emittable) {s : String}
    (hs : (Instruction.ofWord w).text = .ok s) (hs' : (Instruction.ofWord w').text = .ok s) :
    w = w' := by
  obtain ⟨op, xs, hop, hop', hxs, hxs'⟩ := Instruction.text_inj hs hs'
  obtain ⟨op₁, hop₁, hw⟩ := h.reassembled
  obtain ⟨op₂, hop₂, hw'⟩ := h'.reassembled
  obtain rfl := Except.ok.inj (hop.symm.trans hop₁)
  obtain rfl := Except.ok.inj (hop'.symm.trans hop₂)
  rw [Instruction.reassembled_congr hxs hxs', hw'] at hw
  exact (Except.ok.inj hw).symm

/-- So can lists of such words. -/
theorem eq_of_texts {words words' : List Word}
    (h : ∀ w ∈ words, w.Emittable ∧ ∃ s, (Instruction.ofWord w).text = .ok s)
    (h' : ∀ w ∈ words', w.Emittable ∧ ∃ s, (Instruction.ofWord w).text = .ok s)
    (heq : words.map (fun w : Word => (Instruction.ofWord w).text) =
      words'.map (fun w : Word => (Instruction.ofWord w).text)) : words = words' := by
  induction words generalizing words' with
  | nil => exact (List.map_eq_nil_iff.1 heq.symm).symm
  | cons w words ih =>
    cases words' with
    | nil => cases heq
    | cons w' words' =>
      obtain ⟨⟨hw, s, hs⟩, hwords⟩ := List.forall_mem_cons.1 h
      obtain ⟨⟨hw', _⟩, hwords'⟩ := List.forall_mem_cons.1 h'
      obtain ⟨hfirst, hrest⟩ := List.cons.inj heq
      rw [hw.eq_of_text hw' hs (hfirst.symm.trans hs), ih hwords hwords' hrest]

/-! ## Programs -/

section

variable {entries entries' : List Entry} {map map' : ChannelMap} {pulses pulses' : Option Repertoire}
  {settings settings' : Settings} {prog prog' : Program} {t t' : Session}

/-- Every word of a program is one that a program can be made of, and is disassembled. -/
theorem compile_emittable (h : compile entries map pulses settings = .ok prog t) :
    ∀ w ∈ prog.words, w.Emittable ∧ ∃ s, (Instruction.ofWord w).text = .ok s := by
  obtain ⟨parts, hparts⟩ := compile_pieces h
  intro w hw
  rw [hparts.words_eq] at hw
  obtain ⟨x, hx, hw⟩ := List.mem_flatMap.1 hw
  have hemits := (hparts.emits hx).2
  exact ⟨hemits.emittable w hw, (hemits.wellFormed w hw).text⟩

theorem compile_listingRows (h : compile entries map pulses settings = .ok prog t) :
    ∃ rows, listingRows false (prog.words.map Int.ofNat) = .ok rows := by
  refine exists_listingRows false fun v hv => ?_
  obtain ⟨w, hw, rfl⟩ := List.mem_map.1 hv
  exact (compile_emittable h w hw).2

/-- **The disassembly loses nothing.** Words of programs, of one or of two, have the same disassembly
only if they are the same. Programs have the same plain listing, without the words, only if they have
the same words. -/
theorem compile_disassembly_inj (h : compile entries map pulses settings = .ok prog t)
    (h' : compile entries' map' pulses' settings' = .ok prog' t') (width : Int) :
    (∀ w ∈ prog.words, ∀ w' ∈ prog'.words, ∃ s s', (Instruction.ofWord w).text = .ok s ∧
        (Instruction.ofWord w').text = .ok s' ∧ (s = s' ↔ w = w')) ∧
      ∃ s s', listing ⟨false, false, width⟩ (prog.words.map Int.ofNat) = .ok s ∧
        listing ⟨false, false, width⟩ (prog'.words.map Int.ofNat) = .ok s' ∧
        (s = s' ↔ prog.words = prog'.words) := by
  have hwords := compile_emittable h
  have hwords' := compile_emittable h'
  constructor
  · intro w hw w' hw'
    obtain ⟨hemit, s, hs⟩ := hwords w hw
    obtain ⟨hemit', s', hs'⟩ := hwords' w' hw'
    refine ⟨s, s', hs, hs', ?_, ?_⟩
    · rintro rfl
      exact hemit.eq_of_text hemit' hs hs'
    · rintro rfl
      exact Except.ok.inj (hs.symm.trans hs')
  · obtain ⟨rows, hrows⟩ := compile_listingRows h
    obtain ⟨rows', hrows'⟩ := compile_listingRows h'
    refine ⟨_, _, listing_plain hrows width, listing_plain hrows' width, fun heq => ?_, fun heq => ?_⟩
    · have htexts := plainRows_inj hrows hrows' heq
      rw [List.map_map, List.map_map] at htexts
      exact eq_of_texts hwords hwords' htexts
    · rw [heq, hrows'] at hrows
      rw [Except.ok.inj hrows]

end

/-- A wait starts with the word of a synchronisation, yet its listing is another one. -/
theorem compile_disassembly_inj_wait :
    ∃ prog prog' t t', compile [.flow .wait, .block sharedBlock] sharedMap none {} = .ok prog t ∧
      compile [.flow .sync, .block sharedBlock] sharedMap none {} = .ok prog' t' ∧
      prog.words.head? = some Word.sync ∧ prog'.words.head? = some Word.sync ∧
      (∃ s s', (Instruction.ofWord Word.sync).text = .ok s ∧
        (Instruction.ofWord Word.sync).text = .ok s' ∧ s = s') ∧
      ∃ s s', listing ⟨false, false, 80⟩ (prog.words.map Int.ofNat) = .ok s ∧
        listing ⟨false, false, 80⟩ (prog'.words.map Int.ofNat) = .ok s' ∧ s ≠ s' := by
  have hrun : (Encoder.value? (compile [.flow .wait, .block sharedBlock] sharedMap none {})).map
      (fun prog => (prog.words.head?, prog.words.length)) = some (some Word.sync, 9) := by
    decide +kernel
  have hrun' : (Encoder.value? (compile [.flow .sync, .block sharedBlock] sharedMap none {})).map
      (fun prog => (prog.words.head?, prog.words.length)) = some (some Word.sync, 6) := by
    decide +kernel
  obtain ⟨prog, t, h, hvalues⟩ := Encoder.exists_of_value? hrun
  obtain ⟨prog', t', h', hvalues'⟩ := Encoder.exists_of_value? hrun'
  obtain ⟨hhead, hlength⟩ := Prod.mk.inj hvalues
  obtain ⟨hhead', hlength'⟩ := Prod.mk.inj hvalues'
  obtain ⟨hwords, s, s', hs, hs', hiff⟩ := compile_disassembly_inj h h' 80
  obtain ⟨a, a', ha, ha', hword⟩ := hwords Word.sync (List.mem_of_head? hhead) Word.sync
    (List.mem_of_head? hhead')
  refine ⟨prog, prog', t, t', h, h', hhead, hhead', ⟨a, a', ha, ha', hword.2 rfl⟩, s, s', hs, hs', ?_⟩
  intro heq
  rw [hiff.1 heq, hlength'] at hlength
  cases hlength

end PulseSequencer
