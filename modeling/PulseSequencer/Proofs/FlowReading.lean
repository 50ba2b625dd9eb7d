import PulseSequencer.Proofs.Addresses
import PulseSequencer.Proofs.Format
import PulseSequencer.Proofs.Pieces

/-!
# Control flow read back

A control-flow operation has a word if and only if its arguments fit their fields, and can be told from
that word. A program without blocks can be told from its words too, although a wait takes four of them
and the first is the word of a synchronisation: what follows tells the two apart.

* `Flow.Encodable` — the operations that have a word; `Flow.Refused` — why the others have none.
* `Instruction.flow?` — the operation that an instruction is; `Flow.flow?_word` — it is the encoded one.
* `readFlows` — the operations that words are for; `Context.readFlows_parts` — they are the assembled
  ones.
* `Flow.lossless` — control flow and programs of control flow are recovered from their words.
-/

namespace PulseSequencer

/-! ## Operations that have a word -/

/-- The operators of comparisons, as sequences write them. -/
def operators : List String := ["==", "!=", ">", "<"]

/-- A control-flow operation that has a word. -/
def Flow.Encodable : Flow → Prop
  | .wait | .sync | .ret | .loadCompare => True
  | .branch _ target => 0 ≤ target ∧ target < 0x4000000
  | .loadRepeat count => 0 ≤ count ∧ count < 0x10000
  | .compare operator value => operator ∈ operators ∧ 0 ≤ value ∧ value < 0x100
  | .unspecified => False

/-- Why a control-flow operation has no word. An unknown operator is refused whatever it compares
with. -/
inductive Flow.Refused : Flow → Fault → Prop where
  | unspecified : Refused .unspecified (.unsupported (.flow .unspecified))
  | target {kind : Branch} {target : Int} (h : target < 0 ∨ 0x4000000 ≤ target) :
      Refused (.branch kind target) (.outOfRange (.target kind) target 0x3ffffff 0)
  | count {count : Int} (h : count < 0 ∨ 0x10000 ≤ count) :
      Refused (.loadRepeat count) (.outOfRange .repeatCount count 0xffff 0)
  | operator {operator : String} {value : Int} (h : operator ∉ operators) :
      Refused (.compare operator value) (.unsupported (.comparison operator))
  | value {operator : String} {value : Int} (hop : operator ∈ operators)
      (h : value < 0 ∨ 0x100 ≤ value) :
      Refused (.compare operator value) (.outOfRange .comparisonValue value 0xff 0)

theorem CompareOp.symbol_mem (op : CompareOp) : op.symbol ∈ operators := by
  cases op <;> decide

theorem CompareOp.ofSymbol?_symbol (op : CompareOp) : ofSymbol? op.symbol = some op := by
  cases op <;> rfl

/-- An operator of sequences is the symbol of an operation. -/
theorem CompareOp.exists_symbol {s : String} (h : s ∈ operators) : ∃ op : CompareOp, op.symbol = s := by
  simp only [operators, List.mem_cons, List.not_mem_nil, or_false] at h
  rcases h with rfl | rfl | rfl | rfl
  · exact ⟨.equal, rfl⟩
  · exact ⟨.notEqual, rfl⟩
  · exact ⟨.greaterThan, rfl⟩
  · exact ⟨.lessThan, rfl⟩

theorem CompareOp.ofSymbol?_of_not_mem {s : String} (h : s ∉ operators) : ofSymbol? s = none := by
  refine List.find?_eq_none.2 fun op _ hop => h ?_
  exact beq_iff_eq.1 hop ▸ op.symbol_mem

namespace Flow

/-- A comparison with a known operator. -/
theorem word_compare_symbol (op : CompareOp) (value : Int) :
    (Flow.compare op.symbol value).word = do
      return Word.control .compare (Field.join [(Layout.comparison, op.code),
        (Layout.comparand, ← checkRange .comparisonValue value 0xff 0)]) true := by
  simp only [word, CompareOp.ofSymbol?_symbol]
  rfl

/-- A comparison with an unknown operator. -/
theorem word_compare_of_not_mem {operator : String} (h : operator ∉ operators) (value : Int) :
    (Flow.compare operator value).word = .error (.unsupported (.comparison operator)) := by
  simp only [word, CompareOp.ofSymbol?_of_not_mem h]
  rfl

/-- What is refused has no word, for the reason it is refused. -/
theorem word_of_refused {f : Flow} {fault : Fault} (h : f.Refused fault) : f.word = .error fault := by
  cases h with
  | unspecified => rfl
  | @target kind target h =>
    apply checkRange_then_eq_error.2
    refine ⟨?_, rfl⟩
    change target < 0 ∨ 0x3ffffff < target
    omega
  | @count count h =>
    apply checkRange_then_eq_error.2
    refine ⟨?_, rfl⟩
    change count < 0 ∨ 0xffff < count
    omega
  | @operator operator value h => exact word_compare_of_not_mem h value
  | @value operator value hop h =>
    obtain ⟨op, rfl⟩ := CompareOp.exists_symbol hop
    rw [word_compare_symbol]
    apply checkRange_then_eq_error.2
    exact ⟨by omega, rfl⟩

/-- An operation has a word or is refused. -/
theorem encodable_or_refused (f : Flow) : f.Encodable ∨ ∃ fault, f.Refused fault := by
  cases f with
  | branch kind target =>
    by_cases h : 0 ≤ target ∧ target < 0x4000000
    · exact Or.inl h
    · exact Or.inr ⟨_, .target (by omega)⟩
  | loadRepeat count =>
    by_cases h : 0 ≤ count ∧ count < 0x10000
    · exact Or.inl h
    · exact Or.inr ⟨_, .count (by omega)⟩
  | compare operator value =>
    by_cases hop : operator ∈ operators
    · by_cases h : 0 ≤ value ∧ value < 0x100
      · exact Or.inl ⟨hop, h⟩
      · exact Or.inr ⟨_, .value hop (by omega)⟩
    · exact Or.inr ⟨_, .operator hop⟩
  | unspecified => exact Or.inr ⟨_, .unspecified⟩
  | _ => exact Or.inl trivial

end Flow

/-! ## Reading one word -/

/-- The control-flow operation that an opcode and the fields of an instruction make. -/
def Instruction.flowOf (i : Instruction) : Opcode → Option Flow
  | .wait => some .wait
  | .sync => some .sync
  | .ret => some .ret
  | .loadCompare => some .loadCompare
  | .goto => some (.branch .goto i.target)
  | .call => some (.branch .call i.target)
  | .decRepeat => some (.branch .repeat i.target)
  | .prefetch => some (.branch .prefetch i.target)
  | .loadRepeat => some (.loadRepeat i.target)
  | .compare => some (.compare i.comparison.symbol i.comparand)
  | .waveform | .marker | .modulator => none

/-- The control-flow operation that an instruction is. -/
def Instruction.flow? (i : Instruction) : Option Flow := i.opcode.toOption.bind i.flowOf

namespace Instruction

theorem flow?_of_opcode {i : Instruction} {op : Opcode} (h : i.opcode = .ok op) :
    i.flow? = i.flowOf op := by
  rw [flow?, h]
  rfl

theorem flow?_control (op : Opcode) (payload : Int) (write : Bool) :
    (ofWord (Word.control op payload write)).flow? =
      (ofWord (Word.control op payload write)).flowOf op :=
  flow?_of_opcode (readsControl_control op payload write).opcode_eq

theorem flowOf_branch (i : Instruction) (kind : Branch) :
    i.flowOf kind.opcode = some (.branch kind i.target) := by
  cases kind <;> rfl

theorem target_control (op : Opcode) {target : Int} (h : Layout.target.Fits target) (write : Bool) :
    ((ofWord (Word.control op target write)).target : Int) = target := by
  simp only [Field.Fits, Field.size, Layout.target, Nat.reduceShiftLeft] at h
  simp only [Instruction.target, (readsControl_control op target write).payload_eq, Field.get, Field.size,
    Field.weight, Layout.target, Nat.reduceShiftLeft]
  omega

/-- The fields of a payload for a comparison. -/
theorem comparison_payload {i : Instruction} {op : CompareOp} {value : Int}
    (h : i.payload = Field.join [(Layout.comparison, op.code), (Layout.comparand, value)])
    (hvalue : Layout.comparand.Fits value) : i.comparison = op ∧ (i.comparand : Int) = value := by
  have hread : Layout.comparison.get i.payload = op.code :=
    get_payload_of_lt h rfl op.code_lt (by simp)
  have hget : (i.comparand : Int) = value % Layout.comparand.size := get_payload h rfl (by simp)
  rw [comparison, hread, CompareOp.ofCode_code, hget, Int.emod_eq_of_lt hvalue.1 hvalue.2]
  exact ⟨rfl, rfl⟩

theorem comparison_control (op : CompareOp) {value : Int} (h : Layout.comparand.Fits value) :
    (ofWord (Word.control .compare
        (Field.join [(Layout.comparison, op.code), (Layout.comparand, value)]) true)).comparison = op ∧
      ((ofWord (Word.control .compare
        (Field.join [(Layout.comparison, op.code), (Layout.comparand, value)]) true)).comparand : Int) =
          value :=
  comparison_payload (payload_pack rfl _ _ _) h

end Instruction

namespace Flow

/-- An operation whose arguments are in range has a word, from which it is read back. -/
theorem read_of_encodable {f : Flow} (h : f.Encodable) :
    ∃ w : Word, f.word = .ok w ∧ (Instruction.ofWord w).flow? = some f := by
  cases f with
  | branch kind target =>
    refine ⟨Word.control kind.opcode target true, checkRange_then_eq_ok.2 ⟨?_, rfl⟩, ?_⟩
    · change 0 ≤ target ∧ target ≤ 0x3ffffff
      simp only [Encodable] at h
      omega
    · have hfits : Layout.target.Fits target := h
      rw [Instruction.flow?_control, Instruction.flowOf_branch, Instruction.target_control _ hfits]
  | loadRepeat count =>
    simp only [Encodable] at h
    refine ⟨Word.control .loadRepeat count true, checkRange_then_eq_ok.2 ⟨?_, rfl⟩, ?_⟩
    · change 0 ≤ count ∧ count ≤ 0xffff
      omega
    · have hfits : Layout.target.Fits count := by
        change 0 ≤ count ∧ count < 0x4000000
        omega
      rw [Instruction.flow?_control, Instruction.flowOf, Instruction.target_control _ hfits]
  | compare operator value =>
    obtain ⟨hop, hvalue⟩ := h
    obtain ⟨op, rfl⟩ := CompareOp.exists_symbol hop
    rw [word_compare_symbol]
    refine ⟨_, checkRange_then_eq_ok.2 ⟨by omega, rfl⟩, ?_⟩
    obtain ⟨hcomparison, hcomparand⟩ := Instruction.comparison_control op hvalue
    rw [Instruction.flow?_control, Instruction.flowOf, hcomparison, hcomparand]
  | unspecified => exact h.elim
  | _ => exact ⟨_, rfl, Instruction.flow?_control _ _ _⟩

/-- An operation has a word if and only if its arguments are in range. -/
theorem exists_word_iff (f : Flow) : (∃ w, f.word = .ok w) ↔ f.Encodable := by
  constructor
  · rintro ⟨w, hw⟩
    rcases f.encodable_or_refused with h | ⟨fault, h⟩
    · exact h
    · rw [word_of_refused h] at hw
      cases hw
  · intro h
    obtain ⟨w, hw, _⟩ := read_of_encodable h
    exact ⟨w, hw⟩

/-- Every reason that an operation has no word is listed. -/
theorem word_eq_error_iff {f : Flow} {fault : Fault} : f.word = .error fault ↔ f.Refused fault := by
  constructor
  · intro hfault
    rcases f.encodable_or_refused with h | ⟨reason, h⟩
    · obtain ⟨w, hw, _⟩ := read_of_encodable h
      rw [hw] at hfault
      cases hfault
    · rw [word_of_refused h] at hfault
      exact Except.error.inj hfault ▸ h
  · exact word_of_refused

/-- The word of an operation is read back as the operation. -/
theorem flow?_word {f : Flow} {w : Word} (h : f.word = .ok w) :
    (Instruction.ofWord w).flow? = some f := by
  obtain ⟨v, hv, hread⟩ := read_of_encodable (f.exists_word_iff.1 ⟨w, h⟩)
  rw [h] at hv
  rw [Except.ok.inj hv]
  exact hread

end Flow

/-! ## Reading a program -/

/-- The words go on with one for the modulator. -/
def StartsModulator (words : List Word) : Prop := words.head?.bind Word.opcode? = some .modulator

instance (words : List Word) : Decidable (StartsModulator words) :=
  inferInstanceAs (Decidable (_ = _))

/-- The control-flow operations that words are for. A wait is told from its last word: the words of the
modulator before it are passed over, and so is a synchronisation that they follow. -/
def readFlows : List Word → List Flow
  | [] => []
  | w :: words =>
    match (Instruction.ofWord w).flow? with
    | none => readFlows words
    | some f => if f = .sync ∧ StartsModulator words then readFlows words else f :: readFlows words

theorem readFlows_modulation {op : ModulationOp} {nco payload : Int} {w : Word}
    (h : Word.modulation op nco payload = .ok w) (words : List Word) :
    readFlows (w :: words) = readFlows words := by
  rw [readFlows, Instruction.flow?_of_opcode (Instruction.readsModulation_modulation h).opcode_eq]
  rfl

/-- A word of control flow counts, unless it synchronises for the modulator. -/
theorem readFlows_word {f : Flow} {w : Word} (h : f.word = .ok w) {words : List Word}
    (hnext : ¬ StartsModulator words) : readFlows (w :: words) = f :: readFlows words := by
  simp only [readFlows, Flow.flow?_word h]
  rw [if_neg fun hsync => hnext hsync.2]

theorem readFlows_sync {words : List Word} (hnext : StartsModulator words) :
    readFlows (Word.sync :: words) = readFlows words := by
  have hread : (Instruction.ofWord Word.sync).flow? = some .sync := Flow.flow?_word rfl
  simp [readFlows, hread, hnext]

theorem Flow.not_startsModulator {f : Flow} {w : Word} (h : f.word = .ok w) (words : List Word) :
    ¬ StartsModulator (w :: words) := by
  intro hstart
  obtain ⟨op, hop, hw⟩ := Flow.opcode_word h
  have hmodulator : Word.opcode? w = some .modulator := hstart
  rw [Word.opcode?_eq_some.2 hw] at hmodulator
  exact (Flow.opcode_ne hop).2.2 (Option.some.inj hmodulator)

theorem startsModulator_of_modulation {op : ModulationOp} {nco payload : Int} {w : Word}
    (h : Word.modulation op nco payload = .ok w) (words : List Word) : StartsModulator (w :: words) :=
  Word.opcode?_of_modulation h

namespace Context

/-- The words of one operation, before words that do not start with one for the modulator. They do not
start with one either. -/
theorem Emits.readFlows {c : Context} {f : Flow} {words : List Word} (h : c.Emits (.flow f) words)
    {rest : List Word} (hrest : ¬ StartsModulator rest) :
    readFlows (words ++ rest) = f :: readFlows rest ∧ ¬ StartsModulator (words ++ rest) := by
  cases h with
  | flow hf hw => exact ⟨readFlows_word hw hrest, Flow.not_startsModulator hw rest⟩
  | @wait reset tune hreset htune =>
    obtain ⟨payload, _, htune⟩ := bind_eq_ok.1 htune
    have hsync : Flow.word .sync = .ok Word.sync := rfl
    have hwait : Flow.word .wait = .ok Word.wait := rfl
    refine ⟨?_, Flow.not_startsModulator hsync _⟩
    calc
      PulseSequencer.readFlows (Word.sync :: reset :: tune :: Word.wait :: rest)
      _ = PulseSequencer.readFlows (reset :: tune :: Word.wait :: rest) :=
        readFlows_sync (startsModulator_of_modulation hreset _)
      _ = PulseSequencer.readFlows (tune :: Word.wait :: rest) := readFlows_modulation hreset _
      _ = PulseSequencer.readFlows (Word.wait :: rest) := readFlows_modulation htune _
      _ = .wait :: PulseSequencer.readFlows rest := readFlows_word hwait hrest

/-- The words of a sequence of control flow are read back as the sequence. -/
theorem readFlows_parts {c : Context} {prologue : List Word} (hprologue : c.prologue = .ok prologue)
    {fs : List Flow} {parts : List (List Word)}
    (h : (fs.map Entry.flow).mapM (c.entryWords prologue) = .ok parts) :
    readFlows parts.flatten = fs ∧ ¬ StartsModulator parts.flatten := by
  induction fs generalizing parts with
  | nil =>
    obtain rfl := pure_eq_ok.1 h
    exact ⟨rfl, by decide⟩
  | cons f fs ih =>
    rw [List.map_cons, List.mapM_cons] at h
    obtain ⟨words, hwords, h⟩ := bind_eq_ok.1 h
    obtain ⟨later, hlater, h⟩ := bind_eq_ok.1 h
    obtain rfl := pure_eq_ok.1 h
    obtain ⟨hread, hstart⟩ := ih hlater
    obtain ⟨hfirst, hhead⟩ := (emits_of_flow hprologue hwords).readFlows hstart
    rw [List.flatten_cons]
    exact ⟨by rw [hfirst, hread], hhead⟩

theorem readFlows_assemble {c : Context} {s : Session} {fs : List Flow} {words : List Word}
    (h : Encoder.outcome (c.assemble (fs.map .flow) s) = .ok words) : readFlows words = fs := by
  rw [assemble_outcome] at h
  obtain ⟨prologue, parts, hprologue, hparts, _, rfl⟩ := program_eq_ok.1 h
  exact (readFlows_parts hprologue hparts).1

end Context

/-- **Control flow is encoded without loss.** An operation has a word if and only if its arguments are in
range, and is refused for the listed reasons only. It is read back from its word, and a sequence of
operations from the words it is assembled to. So sequences of operations with the same words are equal,
also if other channels, another carrier or other settings went with each. -/
theorem Flow.lossless :
    (∀ f : Flow, ((∃ w, f.word = .ok w) ↔ f.Encodable) ∧
      (∀ fault, f.word = .error fault ↔ f.Refused fault) ∧
      ∀ w : Word, f.word = .ok w → (Instruction.ofWord w).flow? = some f) ∧
    (∀ (c : Context) (s : Session) (fs : List Flow) (words : List Word),
      Encoder.outcome (c.assemble (fs.map .flow) s) = .ok words → readFlows words = fs) ∧
    ∀ (c c' : Context) (s s' : Session) (fs gs : List Flow) (words : List Word),
      Encoder.outcome (c.assemble (fs.map .flow) s) = .ok words →
      Encoder.outcome (c'.assemble (gs.map .flow) s') = .ok words → fs = gs := by
  refine ⟨fun f => ⟨f.exists_word_iff, fun _ => word_eq_error_iff, fun _ => flow?_word⟩,
    fun _ _ _ _ => Context.readFlows_assemble, ?_⟩
  intro c c' s s' fs gs words h h'
  rw [← Context.readFlows_assemble h, ← Context.readFlows_assemble h']

/-- A synchronisation before a wait and one that belongs to it. -/
theorem Flow.lossless_waits :
    (∃ words, Encoder.outcome (Context.backwards.assemble
        ([.sync, .wait, .compare "<" 255, .branch .repeat 0x3ffffff, .sync].map .flow) {}) = .ok words ∧
      readFlows words = [.sync, .wait, .compare "<" 255, .branch .repeat 0x3ffffff, .sync] ∧
      ∀ (c : Context) (gs : List Flow), Encoder.outcome (c.assemble (gs.map .flow) {}) = .ok words →
        [.sync, .wait, .compare "<" 255, .branch .repeat 0x3ffffff, .sync] = gs) ∧
    (Flow.compare "<=" 256).word = .error (.unsupported (.comparison "<=")) := by
  have hrun : (Encoder.outcome (Context.backwards.assemble
      ([.sync, .wait, .compare "<" 255, .branch .repeat 0x3ffffff, .sync].map .flow) {})).toOption.map
        List.length = some 8 := by
    decide +kernel
  obtain ⟨words, hwords, _⟩ := exists_of_toOption hrun
  obtain ⟨hword, hread, hsame⟩ := Flow.lossless
  exact ⟨⟨words, hwords, hread _ _ _ _ hwords, fun c gs => hsame _ c _ _ _ gs words hwords⟩,
    ((hword _).2.1 _).2 (.operator (by decide))⟩

end PulseSequencer
