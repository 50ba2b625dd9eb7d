import PulseSequencer.Proofs.Pieces
import PulseSequencer.Proofs.Rows

/-!
# Nothing is cut

Words have fields of fixed widths and drop what does not fit. In a compiled sequence everything fits:
each word is one that the disassembler reads, and each record can be read off the word that plays it.

* `Word.WellFormed` — a word of 64 bits that is written and has a known operation.
* `Word.WellFormed.text`, `listing_eq_ok` — such words are disassembled and listed.
* `Record.Recovered` — the word of a record gives the record back; `Written.recovered`.
* `Context.Emits.wellFormed`, `Context.Emits.count_of_modulate` — one piece.
* `compile_wellFormed` — the whole program.
-/

namespace PulseSequencer

/-! ## Words -/

/-- A word of 64 bits that is written and has a known operation. -/
structure Word.WellFormed (w : Word) : Prop where
  /-- Below the 64th power of two. -/
  lt : w < 0x10000000000000000
  /-- The bit between engine select and write bit is not used. -/
  spare : w.testBit 57 = false
  write : (Instruction.ofWord w).write = true
  opcode : ∃ op, (Instruction.ofWord w).opcode = .ok op ∧
    (op = .modulator → ∃ m, (Instruction.ofWord w).modulationOp = .ok m)

/-- A packed word with a known operation of the modulator, if it is for the modulator. -/
theorem Word.wellFormed_pack {op : Opcode} {payload engine : Int}
    (hop : op = .modulator →
      ∃ m, (Instruction.ofWord (Word.pack op payload engine true)).modulationOp = .ok m) :
    (Word.pack op payload engine true).WellFormed := by
  refine ⟨Field.join_lt (k := 64) rfl, ?_, Instruction.write_pack _ _ _ _, op,
    Instruction.opcode_pack _ _ _ _, hop⟩
  have hheader : (Layout.header.get (Word.pack op payload engine true) : Int) =
      Word.header op engine true := congrArg Instruction.header (Instruction.ofWord_pack _ _ _ _)
  have hspare : ((⟨1, 1⟩ : Field).get (Word.header op engine true) : Int) = 0 % 2 := by
    have hzero : Word.header op engine true = Field.join [(Layout.opcode, op.code),
        (Layout.engine, engine), (⟨1, 1⟩, 0), (Layout.write, true.toInt)] := by
      simp [Word.header, Field.join, Field.put_zero]
    rw [hzero]
    exact Field.get_join (k := 8) rfl (by simp)
  rw [Nat.testBit_eq_decide_div_mod_eq, decide_eq_false_iff_not]
  simp only [Field.get, Field.size, Field.weight, Layout.header, Nat.reduceShiftLeft] at hheader hspare
  omega

theorem Word.wellFormed_modulation {op : ModulationOp} {nco payload : Int} {w : Word}
    (h : Word.modulation op nco payload = .ok w) : w.WellFormed := by
  have hmod := (Instruction.modulation_fields h).2.1
  obtain ⟨value, _, hw⟩ := bind_eq_ok.1 h
  obtain rfl := pure_eq_ok.1 hw
  exact Word.wellFormed_pack fun _ => ⟨op, hmod⟩

theorem Record.wellFormed_word (r : Record) : r.word.WellFormed := by
  cases r with
  | waveform w => exact Word.wellFormed_pack fun h => by cases h
  | marker m => exact Word.wellFormed_pack fun h => by cases h

theorem Flow.wellFormed_word {f : Flow} {w : Word} (h : f.word = .ok w) : w.WellFormed := by
  obtain ⟨op, payload, hop, rfl⟩ := Flow.word_eq_ok h
  exact Word.wellFormed_pack fun hmod => absurd hmod (Flow.opcode_ne hop).2.2

/-- Every word of a piece. -/
theorem Context.Emits.wellFormed {c : Context} {source : Source} {words : List Word}
    (h : c.Emits source words) : ∀ w ∈ words, w.WellFormed := by
  intro w hw
  cases source with
  | element o =>
    rcases h.element_word hw with ⟨_, r, _, rfl⟩ | ⟨_, _, _, hv⟩
    · exact r.wellFormed_word
    · exact Word.wellFormed_modulation hv
  | flow f =>
    cases h with
    | @wait reset tune hreset htune =>
      obtain ⟨payload, _, htune⟩ := bind_eq_ok.1 htune
      simp only [List.mem_cons, List.not_mem_nil, or_false] at hw
      rcases hw with rfl | rfl | rfl | rfl
      · exact Flow.wellFormed_word (f := .sync) rfl
      · exact Word.wellFormed_modulation hreset
      · exact Word.wellFormed_modulation htune
      · exact Flow.wellFormed_word (f := .wait) rfl
    | flow hf hv =>
      obtain rfl := List.mem_singleton.1 hw
      exact Flow.wellFormed_word hv

/-! ## Listings -/

/-- A well-formed word is disassembled. -/
theorem Word.WellFormed.text {w : Word} (h : w.WellFormed) :
    ∃ s, (Instruction.ofWord w).text = .ok s := by
  obtain ⟨op, hop, hmod⟩ := h.opcode
  unfold Instruction.text
  rw [hop]
  cases op with
  | modulator =>
    obtain ⟨m, hm⟩ := hmod rfl
    rw [hm]
    exact ⟨_, rfl⟩
  | _ => exact ⟨_, rfl⟩

/-- Words that are disassembled are listed, in any style. -/
theorem listing_eq_ok (style : ListingStyle) {words : List Int}
    (h : ∀ w ∈ words, ∃ s, (Instruction.ofWord w).text = .ok s) :
    ∃ s, listing style words = .ok s := by
  obtain ⟨rows, hrows⟩ := exists_listingRows style.showWords h
  unfold listingRows at hrows
  unfold listing
  rw [hrows]
  dsimp only [bind, Except.bind]
  split
  · exact ⟨_, rfl⟩
  · exact ⟨_, rfl⟩

/-! ## Records -/

/-- The word of a waveform gives it back, except that the count of a constant one is not in it. -/
structure Waveform.Recovered (r : Waveform) : Prop where
  opcode : (Instruction.ofWord r.word).opcode = .ok .waveform
  engine : (Instruction.ofWord r.word).engine = 3
  play : (Instruction.ofWord r.word).waveformOp = .play
  isTa : (Instruction.ofWord r.word).isTa = r.isTa
  address : ((Instruction.ofWord r.word).address : Int) = r.address
  count : ((Instruction.ofWord r.word).count : Int) = if r.isTa then 0 else r.count

/-- The word of a marker gives it back. -/
structure Marker.Recovered (m : Marker) : Prop where
  opcode : (Instruction.ofWord m.word).opcode = .ok .marker
  play : (Instruction.ofWord m.word).waveformOp = .play
  select : ((Instruction.ofWord m.word).markerSelect : Int) = m.select
  state : (Instruction.ofWord m.word).state = m.state
  count : ((Instruction.ofWord m.word).quads : Int) = m.count
  transition : (Instruction.ofWord m.word).transition = m.transition

def Record.Recovered : Record → Prop
  | .waveform w => w.Recovered
  | .marker m => m.Recovered

theorem transitionWord_lt (state : Bool) (left : Nat) : transitionWord state left < 16 := by
  match left with
  | 0 | 1 | 2 | 3 => cases state <;> decide
  | n + 4 => cases state <;> exact Nat.zero_lt_succ 15

theorem Waveform.recovered {w : Waveform} (hcount : 0 ≤ w.count ∧ w.count ≤ Layout.count.top)
    (haddress : 0 ≤ w.address ∧ w.address ≤ Layout.address.top) : w.Recovered := by
  obtain ⟨hta, hc, ha⟩ := w.fields_word hcount haddress
  refine ⟨w.opcode_word, ?_, (Instruction.waveform_fields _ _ _ _).2.2.2, hta, ha, hc⟩
  exact Int.ofNat_inj.1 (Instruction.engine_pack _ _ _ _)

theorem Marker.recovered {m : Marker} (hmin : 1 ≤ m.select) (hmax : m.select ≤ Hardware.markerCount)
    (hcount : 0 ≤ m.count ∧ m.count ≤ Layout.quads.top) (htransition : m.transition < 16) :
    m.Recovered := by
  obtain ⟨_, hstate, hquads, htrans, hplay⟩ :=
    Instruction.marker_fields m.select m.state m.count m.transition true
  have htop := Layout.top_quads
  refine ⟨m.opcode_word, hplay, m.select_word hmin hmax, hstate, ?_, ?_⟩
  · unfold Marker.word
    rw [hquads]
    omega
  · unfold Marker.word
    omega

/-- **The word of a record that was written gives the record back.** -/
theorem Written.recovered {settings : Settings} {m : Memory} {p : Pulse} {o : Output} {r : Record}
    (h : Written settings m p o r) : r.Recovered := by
  have hcount := h.count_nonneg
  cases h with
  | waveform h =>
    exact Waveform.recovered ⟨hcount, h.count_le⟩ ⟨h.address_nonneg, h.address_le⟩
  | marker h =>
    obtain ⟨n, _, _, htop, hmin, hmax, rfl⟩ := encodeMarker_eq_ok h
    exact Marker.recovered hmin hmax ⟨hcount, htop⟩ (transitionWord_lt _ _)

/-! ## Programs -/

/-- The oscillators run along the record whose word comes next. -/
theorem Context.Emits.count_of_modulate {c : Context} {source : Source} {words : List Word}
    (h : c.Emits source words) {j : Nat} {w : Word} (hj : words[j]? = some w)
    (hmod : Word.modulation? w = some .modulate) :
    ∃ channel index p r, source = .element ⟨channel, index, .pulse p⟩ ∧
      c.library.find? p.uid = some r ∧ words[j + 1]? = some r.word ∧
      (Instruction.ofWord w).immediate = r.count := by
  obtain ⟨channel, index, p, r, hsource, _, hr, hwords⟩ := h.analog_of_modulate hj hmod
  obtain ⟨phase, tune, restore, rfl, rfl, _, _, hrun⟩ := hwords.modulate_at hj hmod
  refine ⟨channel, index, p, r, hsource, hr, ?_, (Instruction.modulation_fields hrun).2.2.2⟩
  rw [List.append_assoc, List.getElem?_append_right (by omega), Nat.add_sub_cancel_left]
  rfl

/-- **Nothing is cut.** Every word of a program is well-formed and disassembled, and the program is
listed in any style. Every record of the library is recovered from its word. Wherever the oscillators
run for a pulse, they do so along the count of its record, whose word comes next. -/
theorem compile_wellFormed {entries : List Entry} {map : ChannelMap} {pulses : Option Repertoire}
    {settings : Settings} {prog : Program} {t : Session}
    (h : compile entries map pulses settings = .ok prog t) :
    (∀ w ∈ prog.words, w.WellFormed ∧ ∃ s, (Instruction.ofWord w).text = .ok s) ∧
      (∀ style, ∃ s, listing style (prog.words.map Int.ofNat) = .ok s) ∧
      (∀ x ∈ prog.library.entries, x.2.Recovered) ∧
      ∃ parts, Pieces (map.context prog.library settings) entries prog.words parts ∧
        ∀ (i : Nat) (w : Word), prog.words[i]? = some w → Word.modulation? w = some .modulate →
          ∃ channel index p r, EmittedFor parts.flatten i (.element ⟨channel, index, .pulse p⟩) ∧
            prog.library.find? p.uid = some r ∧ prog.words[i + 1]? = some r.word ∧
            (Instruction.ofWord w).immediate = r.count := by
  obtain ⟨parts, hparts⟩ := compile_pieces h
  have hwords : ∀ w ∈ prog.words, w.WellFormed := by
    intro w hw
    rw [hparts.words_eq] at hw
    obtain ⟨x, hx, hw⟩ := List.mem_flatMap.1 hw
    exact (hparts.emits hx).2.wellFormed w hw
  refine ⟨fun w hw => ⟨hwords w hw, (hwords w hw).text⟩, fun style => listing_eq_ok style ?_, ?_,
    parts, hparts, ?_⟩
  · intro v hv
    obtain ⟨w, hw, rfl⟩ := List.mem_map.1 hv
    exact (hwords w hw).text
  · intro x hx
    obtain ⟨_, ⟨s, hencode, _, hlib⟩, _⟩ := compile_eq_ok h
    have hfind := Table.find?_of_mem (hlib ▸ encodeRepertoire_keys hencode) (k := x.1) (a := x.2) hx
    obtain ⟨p, o, hwritten⟩ := compile_written h hfind
    exact hwritten.recovered
  · intro i w hi hmod
    rw [hparts.words_eq] at hi ⊢
    obtain ⟨k, x, j, hk, hj, rfl⟩ := exists_of_getElem?_flatMap hi
    obtain ⟨channel, index, p, r, hsource, hr, hnext, hcount⟩ :=
      (hparts.emits (List.mem_of_getElem? hk)).2.count_of_modulate hj hmod
    have hjx := (List.getElem?_eq_some_iff.1 hnext).1
    refine ⟨channel, index, p, r, ⟨k, x, j, hk, hsource, by omega, rfl⟩, hr, ?_, hcount⟩
    rw [Nat.add_assoc, getElem?_flatMap_add hk hjx]
    exact hnext

/-- A program with a marker and a waveform in its library; the waveform is played last. -/
theorem compile_wellFormed_sharedBlock :
    ∃ prog t, compile [.flow .wait, .block sharedBlock] sharedMap none {} = .ok prog t ∧
      (∃ (w : Word) (r : Record), prog.words[7]? = some w ∧ w.WellFormed ∧
        prog.words[8]? = some r.word ∧ (Instruction.ofWord w).immediate = r.count) ∧
      (∃ s, listing {} (prog.words.map Int.ofNat) = .ok s) ∧
      prog.library.size = 2 ∧ ∀ x ∈ prog.library.entries, x.2.Recovered := by
  have hrun : (Encoder.value? (compile [.flow .wait, .block sharedBlock] sharedMap none {})).map
      (fun prog => (prog.words[7]?.bind Word.modulation?, prog.library.size)) =
        some (some .modulate, 2) := by decide +kernel
  obtain ⟨prog, t, h, hvalues⟩ := Encoder.exists_of_value? hrun
  obtain ⟨hw, hsize⟩ := Prod.mk.inj hvalues
  obtain ⟨w, hw, hmod⟩ := Option.bind_eq_some_iff.1 hw
  obtain ⟨hwords, hlisting, hrecovered, _, _, hcount⟩ := compile_wellFormed h
  obtain ⟨_, _, _, r, _, _, hnext, hr⟩ := hcount 7 w hw hmod
  exact ⟨prog, t, h, ⟨w, r, hw, (hwords w (List.mem_of_getElem? hw)).1, hnext, hr⟩, hlisting {}, hsize,
    hrecovered⟩

end PulseSequencer
