import PulseSequencer.ControlFlow
import PulseSequencer.Instruction
import PulseSequencer.Library
import PulseSequencer.Modulator
import PulseSequencer.Proofs.Success

/-!
# Words taken apart

Every word is put together by `Word.pack`; taking it apart gives back what was put in, up to the widths
of the fields.

* `Instruction.ofWord_pack` — header and payload of a word; `Instruction.opcode_pack`,
  `Instruction.engine_pack`, `Instruction.write_pack` — what the header says.
* `Instruction.get_payload` — a field of a payload. From it `Instruction.waveform_fields`,
  `Instruction.waveformPrefetch_fields`, `Instruction.marker_fields`, `Instruction.modulation_fields` — one
  lemma for each family of words.
* `Word.pack_sub_lowest` — a word without the lowest field of its payload.
* `Waveform.fields_word`, `Marker.select_word`, `Flow.opcode_word`, `Modulator.opcode_word` — the words
  of a program by where they come from.
* `Word.opcode?`, `Word.modulation?` — what a word does.
-/

namespace PulseSequencer

theorem Layout.top_count : Layout.count.top = 0xfffff := by decide

theorem Layout.top_address : Layout.address.top = 0xffffff := by decide

theorem Layout.top_quads : Layout.quads.top = 0xfffffff := by decide

theorem Opcode.code_lt (op : Opcode) : op.code < 16 := by cases op <;> decide

theorem WaveformOp.code_lt (op : WaveformOp) : op.code < 4 := by cases op <;> decide

theorem ModulationOp.code_lt (op : ModulationOp) : op.code < 16 := by cases op <;> decide

theorem CompareOp.code_lt (op : CompareOp) : op.code < 4 := by cases op <;> decide

namespace Instruction

/-! ## Header and payload -/

theorem header_lt (op : Opcode) (engine : Int) (write : Bool) : Word.header op engine write < 256 :=
  Field.join_lt (k := 8) rfl

/-- A packed word is its header and its payload, the payload cut to its width. -/
theorem ofWord_pack (op : Opcode) (payload engine : Int) (write : Bool) :
    ofWord (Word.pack op payload engine write) =
      ⟨Word.header op engine write, payload % 0x100000000000000⟩ := by
  have hheader : (Layout.header.get (Word.pack op payload engine write) : Int) =
      Word.header op engine write % 256 := Field.get_join (k := 64) rfl List.mem_cons_self
  have hpayload : (Layout.payload.get (Word.pack op payload engine write) : Int) =
      payload % 0x100000000000000 :=
    Field.get_join (k := 64) rfl (List.mem_cons_of_mem _ List.mem_cons_self)
  have hlt := header_lt op engine write
  rw [ofWord, hpayload, hheader, Int.emod_eq_of_lt (by omega) (by omega)]

/-- A payload of fields side by side is not cut. -/
theorem payload_pack {fields : List (Field × Int)} (h : Field.Stacked 56 (fields.map Prod.fst))
    (op : Opcode) (engine : Int) (write : Bool) :
    (ofWord (Word.pack op (Field.join fields) engine write)).payload = Field.join fields := by
  have hlt : Field.join fields < 0x100000000000000 := Field.join_lt h
  rw [ofWord_pack]
  exact Int.emod_eq_of_lt (by omega) (by omega)

theorem opcode_of_header {i : Instruction} {op : Opcode} (h : i.header / 16 = op.code) :
    i.opcode = .ok op := by
  unfold opcode
  rw [h, Opcode.ofCode?_code]

theorem opcode_pack (op : Opcode) (payload engine : Int) (write : Bool) :
    (ofWord (Word.pack op payload engine write)).opcode = .ok op := by
  have hcode := op.code_lt
  have hlt := header_lt op engine write
  have hget : (Layout.opcode.get (Word.header op engine write) : Int) = op.code % 16 :=
    Field.get_join (k := 8) rfl List.mem_cons_self
  change (((Word.header op engine write : Int) / 16 % 16).toNat : Int) = op.code % 16 at hget
  refine opcode_of_header ?_
  rw [ofWord_pack]
  change (Word.header op engine write : Int) / 16 = op.code
  omega

theorem engine_pack (op : Opcode) (payload engine : Int) (write : Bool) :
    ((ofWord (Word.pack op payload engine write)).engine : Int) = engine % 4 := by
  rw [ofWord_pack]
  exact Field.get_join (k := 8) rfl (List.mem_cons_of_mem _ List.mem_cons_self)

theorem write_pack (op : Opcode) (payload engine : Int) (write : Bool) :
    (ofWord (Word.pack op payload engine write)).write = write := by
  rw [ofWord_pack]
  exact Field.getFlag_join (k := 8) rfl rfl (List.mem_cons_of_mem _ (List.mem_cons_of_mem _
    List.mem_cons_self))

/-! ## The fields of a payload -/

section

variable {i : Instruction} {fields : List (Field × Int)}

/-- A field of a payload of fields side by side. -/
theorem get_payload (h : i.payload = Field.join fields) (hfields : Field.Stacked 56 (fields.map Prod.fst))
    {f : Field} {v : Int} (hv : (f, v) ∈ fields) : (f.get i.payload : Int) = v % f.size := by
  rw [h]
  exact Field.get_join hfields hv

/-- The same for a value that fits the field. -/
theorem get_payload_of_lt (h : i.payload = Field.join fields)
    (hfields : Field.Stacked 56 (fields.map Prod.fst)) {f : Field} {n : Nat} (hn : n < f.size)
    (hv : (f, (n : Int)) ∈ fields) : f.get i.payload = n := by
  have hget := get_payload h hfields hv
  rw [Int.emod_eq_of_lt (by omega) (by omega)] at hget
  exact Int.ofNat_inj.1 hget

theorem getFlag_payload (h : i.payload = Field.join fields)
    (hfields : Field.Stacked 56 (fields.map Prod.fst)) {f : Field} (hf : f.width = 1) {b : Bool}
    (hb : (f, b.toInt) ∈ fields) : f.getFlag i.payload = b := by
  rw [h]
  exact Field.getFlag_join hfields hf hb

theorem waveformOp_of_payload (h : i.payload = Field.join fields)
    (hfields : Field.Stacked 56 (fields.map Prod.fst)) {op : WaveformOp}
    (hop : (Layout.waveformOp, (op.code : Int)) ∈ fields) : i.waveformOp = op := by
  rw [waveformOp, get_payload_of_lt h hfields op.code_lt hop, WaveformOp.ofCode_code]

/-- The fields of a payload for the waveform engines. -/
theorem waveform_payload {op : WaveformOp} {address count : Int} {isTa : Bool}
    (h : i.payload = Field.join [(Layout.waveformOp, op.code), (Layout.pair, isTa.toInt),
      (Layout.count, count), (Layout.address, address)]) :
    i.isTa = isTa ∧ (i.count : Int) = count % 0x100000 ∧ (i.address : Int) = address % 0x1000000 ∧
      i.waveformOp = op :=
  ⟨getFlag_payload h rfl rfl (by simp), get_payload h rfl (by simp), get_payload h rfl (by simp),
    waveformOp_of_payload h rfl (by simp)⟩

/-- The fields of a payload for a marker. -/
theorem marker_payload {state : Bool} {quads transition : Int}
    (h : i.payload = Field.join [(Layout.waveformOp, WaveformOp.play.code), (Layout.transition, transition),
      (Layout.state, state.toInt), (Layout.quads, quads)]) :
    i.state = state ∧ (i.quads : Int) = quads % 0x10000000 ∧ (i.transition : Int) = transition % 16 ∧
      i.waveformOp = .play :=
  ⟨getFlag_payload h rfl rfl (by simp), get_payload h rfl (by simp), get_payload h rfl (by simp),
    waveformOp_of_payload h rfl (by simp)⟩

theorem immediate_of_get {payload : Int} (hmin : -0x80000000 ≤ payload) (hmax : payload ≤ 0x7fffffff)
    (h : (Layout.immediate.get i.payload : Int) = payload % 0x100000000) : i.immediate = payload := by
  unfold immediate
  rw [h]
  dsimp only
  split <;> omega

/-- The fields of a payload for the modulator; the immediate is read with its sign. -/
theorem modulation_payload {op : ModulationOp} {nco immediate : Int}
    (h : i.payload = Field.join [(Layout.modulationOp, op.code), (Layout.nco, nco),
      (Layout.immediate, immediate)])
    (hmin : -0x80000000 ≤ immediate) (hmax : immediate ≤ 0x7fffffff) :
    i.modulationOp = .ok op ∧ (i.nco : Int) = nco % 16 ∧ i.immediate = immediate := by
  have hop : Layout.modulationOp.get i.payload = op.code :=
    get_payload_of_lt h rfl op.code_lt (by simp)
  refine ⟨?_, get_payload h rfl (by simp), immediate_of_get hmin hmax (get_payload h rfl (by simp))⟩
  simp only [Instruction.modulationOp, hop, ModulationOp.ofCode?_code]

end

/-! ## Words by family -/

/-- The fields of a waveform word. -/
theorem waveform_fields (address count : Int) (isTa write : Bool) :
    (ofWord (Word.waveform address count isTa write)).isTa = isTa ∧
      ((ofWord (Word.waveform address count isTa write)).count : Int) = count % 0x100000 ∧
      ((ofWord (Word.waveform address count isTa write)).address : Int) = address % 0x1000000 ∧
      (ofWord (Word.waveform address count isTa write)).waveformOp = .play :=
  waveform_payload (payload_pack rfl _ _ _)

/-- The fields of a word that only prefetches: it has no count. -/
theorem waveformPrefetch_fields (address : Int) :
    (ofWord (Word.waveformPrefetch address)).isTa = false ∧
      ((ofWord (Word.waveformPrefetch address)).count : Int) = 0 ∧
      ((ofWord (Word.waveformPrefetch address)).address : Int) = address % 0x1000000 ∧
      (ofWord (Word.waveformPrefetch address)).waveformOp = .prefetch := by
  -- the fields that it does not have are read as zeros
  have hpayload : (ofWord (Word.waveformPrefetch address)).payload =
      Field.join [(Layout.waveformOp, WaveformOp.prefetch.code), (Layout.pair, false.toInt),
        (Layout.count, 0), (Layout.address, address)] := by
    rw [Word.waveformPrefetch, payload_pack rfl]
    simp [Field.join, Field.put_zero]
  exact waveform_payload hpayload

/-- The fields of a marker word. Outputs are counted from one and taken modulo their number. -/
theorem marker_fields (select : Int) (state : Bool) (quads transition : Int) (write : Bool) :
    ((ofWord (Word.marker select state quads transition write)).markerSelect : Int) =
        (select - 1) % 4 + 1 ∧
      (ofWord (Word.marker select state quads transition write)).state = state ∧
      ((ofWord (Word.marker select state quads transition write)).quads : Int) =
        quads % 0x10000000 ∧
      ((ofWord (Word.marker select state quads transition write)).transition : Int) =
        transition % 16 ∧
      (ofWord (Word.marker select state quads transition write)).waveformOp = .play := by
  refine ⟨?_, marker_payload (payload_pack rfl _ _ _)⟩
  rw [markerSelect, Int.natCast_add, Word.marker, engine_pack]
  rfl

/-- The word of a modulator operation whose payload is in range. -/
theorem modulation_eq_ok {op : ModulationOp} {nco payload : Int} {w : Word}
    (h : Word.modulation op nco payload = .ok w) :
    -0x80000000 ≤ payload ∧ payload ≤ 0x7fffffff ∧ w = Word.pack .modulator (Field.join
      [(Layout.modulationOp, op.code), (Layout.nco, nco), (Layout.immediate, payload)]) 0 true := by
  obtain ⟨value, hvalue, hw⟩ := bind_eq_ok.1 h
  obtain ⟨hv, hmin, hmax⟩ := checkRange_eq_ok.1 hvalue
  rw [hv] at hw
  exact ⟨hmin, hmax, (pure_eq_ok.1 hw).symm⟩

/-- The fields of a modulator word. -/
theorem modulation_fields {op : ModulationOp} {nco payload : Int} {w : Word}
    (h : Word.modulation op nco payload = .ok w) :
    (ofWord w).opcode = .ok .modulator ∧ (ofWord w).modulationOp = .ok op ∧
      ((ofWord w).nco : Int) = nco % 16 ∧ (ofWord w).immediate = payload := by
  obtain ⟨hmin, hmax, rfl⟩ := modulation_eq_ok h
  exact ⟨opcode_pack _ _ _ _, modulation_payload (payload_pack rfl _ _ _) hmin hmax⟩

end Instruction

/-- A word whose payload is not cut, as a sum. -/
theorem Word.pack_eq_add {payload : Nat} (h : payload < 0x100000000000000) (op : Opcode) (engine : Int)
    (write : Bool) :
    Word.pack op payload engine write = Layout.header.put (Word.header op engine write) + payload := by
  have hput : Layout.payload.put payload = payload := by
    change ((payload : Int) % 0x100000000000000).toNat * 1 = payload
    omega
  simp only [Word.pack, Field.join, hput, Nat.add_zero]

/-- The lowest field of a payload can be taken from a word by subtraction. -/
theorem Word.pack_sub_lowest (fields : List (Field × Int)) {f : Field} {v : Int}
    (h : Field.Stacked 56 ((fields ++ [(f, v)]).map Prod.fst)) (hf : f.offset = 0) (op : Opcode)
    (engine : Int) (write : Bool) :
    (Word.pack op (Field.join (fields ++ [(f, v)])) engine write -
        f.get (Word.pack op (Field.join (fields ++ [(f, v)])) engine write) : Int) =
      Word.pack op (Field.join (fields ++ [(f, 0)])) engine write := by
  have hlt : Field.join (fields ++ [(f, v)]) < 0x100000000000000 := Field.join_lt h
  have hwidth : f.offset + f.width ≤ 56 := Field.le_of_mem_stacked h (by simp)
  have hget := Field.get_join h (List.mem_append_right fields List.mem_cons_self)
  have hput : (f.put v : Int) = v % f.size := by
    have hnonneg := (f.emod_bounds v).1
    rw [Field.put, Field.weight, hf, Int.natCast_mul, Int.toNat_of_nonneg hnonneg]
    exact Int.mul_one _
  have hsum : Field.join (fields ++ [(f, v)]) = Field.join (fields ++ [(f, 0)]) + f.put v := by
    simp [Field.join_append, Field.join, Field.put_zero]
  rw [Word.pack_eq_add hlt, Word.pack_eq_add (by omega), Field.get_put_add_of_le hwidth, hget, ← hput, hsum]
  omega

/-! ## Opcodes of the words of a program -/

theorem Waveform.opcode_word (w : Waveform) : (Instruction.ofWord w.word).opcode = .ok .waveform :=
  Instruction.opcode_pack _ _ _ _

theorem Marker.opcode_word (m : Marker) : (Instruction.ofWord m.word).opcode = .ok .marker :=
  Instruction.opcode_pack _ _ _ _

/-- The fields of the word of a waveform that fits it. -/
theorem Waveform.fields_word (w : Waveform) (hcount : 0 ≤ w.count ∧ w.count ≤ Layout.count.top)
    (haddress : 0 ≤ w.address ∧ w.address ≤ Layout.address.top) :
    (Instruction.ofWord w.word).isTa = w.isTa ∧
      ((Instruction.ofWord w.word).count : Int) = (if w.isTa then 0 else w.count) ∧
      ((Instruction.ofWord w.word).address : Int) = w.address := by
  obtain ⟨hta, hc, ha, _⟩ :=
    Instruction.waveform_fields w.address (if w.isTa then 0 else w.count) w.isTa true
  have htop := Layout.top_count
  have hlast := Layout.top_address
  unfold Waveform.word
  refine ⟨hta, ?_, ?_⟩
  · rw [hc]
    split <;> omega
  · rw [ha]
    omega

/-- The output that a marker word names. -/
theorem Marker.select_word (m : Marker) (hmin : 1 ≤ m.select)
    (hmax : m.select ≤ Hardware.markerCount) :
    ((Instruction.ofWord m.word).markerSelect : Int) = m.select := by
  have hselect := (Instruction.marker_fields m.select m.state m.count m.transition true).1
  unfold Marker.word
  rw [hselect]
  unfold Hardware.markerCount at hmax
  omega

/-- The word of a modulator operation with a computed payload. -/
theorem Modulator.opcode_word {op : ModulationOp} {nco : Int} {x : Except Fault Int} {w : Word}
    (h : (do Word.modulation op nco (← x)) = .ok w) :
    (Instruction.ofWord w).opcode = .ok .modulator := by
  obtain ⟨payload, _, h⟩ := bind_eq_ok.1 h
  exact (Instruction.modulation_fields h).1

/-- The opcode of a control-flow operation. -/
def Flow.opcode? : Flow → Option Opcode
  | .wait => some .wait
  | .sync => some .sync
  | .ret => some .ret
  | .loadCompare => some .loadCompare
  | .branch kind _ => some kind.opcode
  | .loadRepeat _ => some .loadRepeat
  | .compare _ _ => some .compare
  | .unspecified => none

/-- The word of a control-flow operation is a control word with its opcode. -/
theorem Flow.word_eq_ok {f : Flow} {w : Word} (h : f.word = .ok w) :
    ∃ op payload, f.opcode? = some op ∧ w = Word.control op payload true := by
  cases f with
  | wait =>
    obtain rfl := pure_eq_ok.1 h
    exact ⟨_, _, rfl, rfl⟩
  | sync =>
    obtain rfl := pure_eq_ok.1 h
    exact ⟨_, _, rfl, rfl⟩
  | ret =>
    obtain rfl := pure_eq_ok.1 h
    exact ⟨_, _, rfl, rfl⟩
  | loadCompare =>
    obtain rfl := pure_eq_ok.1 h
    exact ⟨_, _, rfl, rfl⟩
  | branch kind target =>
    obtain ⟨address, _, h⟩ := bind_eq_ok.1 h
    obtain rfl := pure_eq_ok.1 h
    exact ⟨_, _, rfl, rfl⟩
  | loadRepeat count =>
    obtain ⟨n, _, h⟩ := bind_eq_ok.1 h
    obtain rfl := pure_eq_ok.1 h
    exact ⟨_, _, rfl, rfl⟩
  | compare operator value =>
    simp only [Flow.word] at h
    split at h
    · cases h
    · obtain ⟨n, _, h⟩ := bind_eq_ok.1 h
      obtain rfl := pure_eq_ok.1 h
      exact ⟨_, _, rfl, rfl⟩
  | unspecified => cases h

theorem Flow.opcode_word {f : Flow} {w : Word} (h : f.word = .ok w) :
    ∃ op, f.opcode? = some op ∧ (Instruction.ofWord w).opcode = .ok op := by
  obtain ⟨op, payload, hop, rfl⟩ := Flow.word_eq_ok h
  exact ⟨op, hop, Instruction.opcode_pack _ _ _ _⟩

/-- Control flow plays nothing and does not reach the modulator. -/
theorem Flow.opcode_ne {f : Flow} {op : Opcode} (h : f.opcode? = some op) :
    op ≠ .waveform ∧ op ≠ .marker ∧ op ≠ .modulator := by
  cases f with
  | branch kind target =>
    cases h
    cases kind <;> decide
  | unspecified => cases h
  | _ => cases h; decide

/-! ## What a word does -/

namespace Word

/-- The opcode of a word that has one. -/
def opcode? (w : Word) : Option Opcode := (Instruction.ofWord w).opcode.toOption

/-- The operation of a modulator word. -/
def modulation? (w : Word) : Option ModulationOp :=
  if opcode? w = some .modulator then (Instruction.ofWord w).modulationOp.toOption else none

theorem opcode?_eq_some {w : Word} {op : Opcode} :
    opcode? w = some op ↔ (Instruction.ofWord w).opcode = .ok op := by
  unfold opcode?
  cases (Instruction.ofWord w).opcode <;> simp [Except.toOption]

theorem modulation?_eq_some {w : Word} {op : ModulationOp} :
    modulation? w = some op ↔
      opcode? w = some .modulator ∧ (Instruction.ofWord w).modulationOp = .ok op := by
  unfold modulation?
  split
  · rename_i h
    cases (Instruction.ofWord w).modulationOp <;> simp [Except.toOption, h]
  · rename_i h
    simp [h]

/-- Only modulator words have an operation of the modulator. -/
theorem modulation?_eq_none {w : Word} {op : Opcode} (h : opcode? w = some op) (hop : op ≠ .modulator) :
    modulation? w = none := by
  unfold modulation?
  rw [h, if_neg (by simpa using hop)]

theorem modulation?_of_modulation {op : ModulationOp} {nco payload : Int} {w : Word}
    (h : Word.modulation op nco payload = .ok w) : modulation? w = some op := by
  obtain ⟨hop, hmod, _⟩ := Instruction.modulation_fields h
  exact modulation?_eq_some.2 ⟨opcode?_eq_some.2 hop, hmod⟩

theorem opcode?_of_modulation {op : ModulationOp} {nco payload : Int} {w : Word}
    (h : Word.modulation op nco payload = .ok w) : opcode? w = some .modulator :=
  opcode?_eq_some.2 (Instruction.modulation_fields h).1

@[simp] theorem opcode?_sync : opcode? sync = some .sync := by decide

@[simp] theorem opcode?_wait : opcode? wait = some .wait := by decide

@[simp] theorem modulation?_sync : modulation? sync = none := by decide

@[simp] theorem modulation?_wait : modulation? wait = none := by decide

end Word

theorem Record.modulation?_word (r : Record) : Word.modulation? r.word = none := by
  cases r with
  | waveform w => exact Word.modulation?_eq_none (Word.opcode?_eq_some.2 w.opcode_word) (by decide)
  | marker m => exact Word.modulation?_eq_none (Word.opcode?_eq_some.2 m.opcode_word) (by decide)

theorem Flow.modulation?_word {f : Flow} {w : Word} (h : f.word = .ok w) :
    Word.modulation? w = none := by
  obtain ⟨op, hop, hw⟩ := Flow.opcode_word h
  exact Word.modulation?_eq_none (Word.opcode?_eq_some.2 hw) (Flow.opcode_ne hop).2.2

end PulseSequencer
