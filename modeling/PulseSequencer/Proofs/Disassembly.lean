import Mathlib.Algebra.GroupWithZero.Nat
import Mathlib.Data.List.Chain
import PulseSequencer.Instruction
import PulseSequencer.Proofs.Success

/-!
# The disassembly as labelled values

The disassembly of an instruction is the name of its opcode and then values behind labels. No value holds
a blank, a comma, a semicolon or an end of line, and every label starts with one of the first three: so
where a value ends can be told from the text, and equal texts have equal values.

* `IsValue`, `Separated`, `IsValue.append_inj` — a value is told from what follows it.
* `toDigits_inj`, `padZeros_inj`, `intText_inj` — the values that are numbers.
* `Instruction.items`, `Instruction.text_eq` — the labelled values of a disassembly.
* `Instruction.text_inj` — equal texts have the same opcode and the same values.
* `IsNeat`, `Instruction.isNeat_text`, `Instruction.length_text_le` — the shape of a disassembly.
-/

namespace PulseSequencer

/-! ## Values and what follows them -/

/-- What no value of a disassembly holds. -/
def separators : List Char := [' ', ',', ';', '\n']

/-- A text that is not empty and holds no separator. -/
structure IsValue (v : List Char) : Prop where
  ne_nil : v ≠ []
  plain : ∀ c ∈ v, c ∉ separators

instance (v : List Char) : Decidable (IsValue v) :=
  decidable_of_iff (v ≠ [] ∧ v.all (fun c => !separators.contains c) = true)
    ⟨fun h => ⟨h.1, by simpa using h.2⟩, fun h => ⟨h.1, by simpa using h.2⟩⟩

/-- A text before which a value has ended: it is empty or starts with a separator. -/
def Separated (rest : List Char) : Prop := ∀ c ∈ rest.head?, c ∈ separators

instance : (rest : List Char) → Decidable (Separated rest)
  | [] => isTrue (by simp [Separated])
  | c :: _ => decidable_of_iff (c ∈ separators) (by simp [Separated])

/-- No two blanks stand side by side. -/
def SingleBlanks (s : List Char) : Prop := s.IsChain fun a b => ¬ (a = ' ' ∧ b = ' ')

instance (s : List Char) : Decidable (SingleBlanks s) :=
  inferInstanceAs (Decidable (s.IsChain fun a b => ¬ (a = ' ' ∧ b = ' ')))

/-- A text on one line whose blanks stand alone and inside. -/
structure IsNeat (s : List Char) : Prop where
  ne_nil : s ≠ []
  head : ∀ c ∈ s.head?, c ≠ ' '
  last : ∀ c ∈ s.getLast?, c ≠ ' '
  singleBlanks : SingleBlanks s
  not_newline : '\n' ∉ s

/-- Text that sets one value off from another. -/
structure IsLabel (label : List Char) : Prop where
  ne_nil : label ≠ []
  separated : Separated label
  singleBlanks : SingleBlanks label
  not_newline : '\n' ∉ label

instance (label : List Char) : Decidable (IsLabel label) :=
  decidable_of_iff (label ≠ [] ∧ Separated label ∧ SingleBlanks label ∧ '\n' ∉ label)
    ⟨fun h => ⟨h.1, h.2.1, h.2.2.1, h.2.2.2⟩, fun h => ⟨h.1, h.2, h.3, h.4⟩⟩

namespace IsValue

variable {v v' rest rest' : List Char}

/-- A value goes as far as the first separator. -/
theorem takeWhile_append (hv : IsValue v) (hrest : Separated rest) :
    (v ++ rest).takeWhile (· ∉ separators) = v := by
  have hstop : rest.takeWhile (· ∉ separators) = [] := by
    cases rest with
    | nil => rfl
    | cons c rest =>
      have hc : c ∈ separators := hrest c rfl
      simp [hc]
  rw [List.takeWhile_append_of_pos (by simpa using hv.plain), hstop, List.append_nil]

/-- Two texts that start with values agree in the values and in the rest. -/
theorem append_inj (hv : IsValue v) (hv' : IsValue v') (hrest : Separated rest)
    (hrest' : Separated rest') (h : v ++ rest = v' ++ rest') : v = v' ∧ rest = rest' := by
  have hvalue : v = v' := by
    rw [← hv.takeWhile_append hrest, h, hv'.takeWhile_append hrest']
  subst hvalue
  exact ⟨rfl, List.append_cancel_left h⟩

theorem append (hv : IsValue v) (hv' : IsValue v') : IsValue (v ++ v') where
  ne_nil := by simp [hv.ne_nil]
  plain := List.forall_mem_append.2 ⟨hv.plain, hv'.plain⟩

theorem isNeat (hv : IsValue v) : IsNeat v := by
  have hblank : ∀ c ∈ v, c ≠ ' ' := by
    rintro c hc rfl
    exact hv.plain _ hc (by decide)
  refine ⟨hv.ne_nil, fun c hc => hblank c (List.mem_of_mem_head? hc),
    fun c hc => hblank c (List.mem_of_mem_getLast? hc), ?_, fun hc => hv.plain _ hc (by decide)⟩
  refine List.Pairwise.isChain (List.pairwise_of_forall_mem_list ?_)
  intro a ha b _ hab
  exact hblank a ha hab.1

end IsValue

/-- A label sets two neat texts off from each other. -/
theorem IsLabel.isNeat_append {s label t : List Char} (hlabel : IsLabel label) (hs : IsNeat s)
    (ht : IsNeat t) : IsNeat (s ++ (label ++ t)) where
  ne_nil := by simp [hs.ne_nil]
  head := by
    rw [List.head?_append_of_ne_nil _ hs.ne_nil]
    exact hs.head
  last := by
    rw [← List.append_assoc, List.getLast?_append_of_ne_nil _ ht.ne_nil]
    exact ht.last
  singleBlanks := by
    have hend : SingleBlanks (label ++ t) :=
      hlabel.singleBlanks.append ht.singleBlanks fun a _ b hb hab => ht.head b hb hab.2
    exact hs.singleBlanks.append hend fun a ha b _ hab => hs.last a ha hab.1
  not_newline := by
    simp only [List.mem_append, not_or]
    exact ⟨hs.not_newline, hlabel.not_newline, ht.not_newline⟩

/-! ## Numbers as values -/

theorem exists_of_mem_toDigits {b n : Nat} {c : Char} (hb : 1 < b) (h : c ∈ Nat.toDigits b n) :
    ∃ d < b, c = d.digitChar := by
  induction n using Nat.strongRecOn with
  | ind n ih =>
    rw [Nat.toDigits_eq_if hb] at h
    split at h
    · rename_i hn
      exact ⟨n, hn, List.mem_singleton.1 h⟩
    · rename_i hn
      rcases List.mem_append.1 h with h | h
      · exact ih (n / b) (Nat.div_lt_self (by omega) hb) h
      · exact ⟨n % b, Nat.mod_lt n (by omega), List.mem_singleton.1 h⟩

theorem digitChar_not_mem_separators : ∀ d < 16, Nat.digitChar d ∉ separators := by decide

theorem digitChar_inj : ∀ d < 16, ∀ e < 16, Nat.digitChar d = Nat.digitChar e → d = e := by decide

theorem isValue_toDigits {b : Nat} (hb : 1 < b) (hb' : b ≤ 16) (n : Nat) : IsValue (Nat.toDigits b n) where
  ne_nil := Nat.toDigits_ne_nil
  plain := by
    intro c hc
    obtain ⟨d, hd, rfl⟩ := exists_of_mem_toDigits hb hc
    exact digitChar_not_mem_separators d (by omega)

theorem isValue_padZeros {digits : List Char} (h : IsValue digits) (width : Nat) :
    IsValue (padZeros width digits) where
  ne_nil := by simp [padZeros, h.ne_nil]
  plain := by
    intro c hc
    rcases List.mem_append.1 hc with hc | hc
    · rw [List.eq_of_mem_replicate hc]
      decide
    · exact h.plain c hc

theorem length_padZeros {width : Nat} {digits : List Char} (h : digits.length ≤ width) :
    (padZeros width digits).length = width := by
  simp only [padZeros, zeros, List.length_append, List.length_replicate]
  omega

/-- The digits of a number in a base up to sixteen tell it. -/
theorem toDigits_inj {b : Nat} (hb : 1 < b) (hb' : b ≤ 16) {m n : Nat}
    (h : Nat.toDigits b m = Nat.toDigits b n) : m = n := by
  induction m using Nat.strongRecOn generalizing n with
  | ind m ih =>
    rw [Nat.toDigits_eq_if hb, Nat.toDigits_eq_if (n := n) hb] at h
    split at h <;> split at h
    · exact digitChar_inj m (by omega) n (by omega) (List.singleton_inj.1 h)
    · exact absurd (congrArg List.length h) (by simp)
    · exact absurd (congrArg List.length h) (by simp)
    · -- the last digits agree, and so do the digits before them
      obtain ⟨hhigh, hlow⟩ := List.append_inj' h rfl
      have hquotient : m / b = n / b := ih (m / b) (Nat.div_lt_self (by omega) hb) hhigh
      have hremainder : m % b = n % b :=
        digitChar_inj _ (Nat.lt_of_lt_of_le (Nat.mod_lt m (by omega)) hb') _
          (Nat.lt_of_lt_of_le (Nat.mod_lt n (by omega)) hb') (List.singleton_inj.1 hlow)
      rw [← Nat.div_add_mod m b, hquotient, hremainder, Nat.div_add_mod]

/-- The digits of a number behind zeros tell it. -/
theorem padZeros_inj {b : Nat} (hb : 1 < b) (hb' : b ≤ 10) {width m n : Nat}
    (h : padZeros width (Nat.toDigits b m) = padZeros width (Nat.toDigits b n)) : m = n := by
  have hread : ∀ k, Nat.ofDigitChars b (padZeros width (Nat.toDigits b k)) 0 = k := by
    intro k
    rw [padZeros, zeros, Nat.ofDigitChars_append, Nat.ofDigitChars_replicate_zero, Nat.mul_zero,
      Nat.ofDigitChars_toDigits hb hb']
  rw [← hread m, h, hread n]

theorem toList_intText (n : Int) : (toString n).toList =
    if 0 ≤ n then Nat.toDigits 10 n.toNat else '-' :: Nat.toDigits 10 (-n).toNat := by
  rw [Int.toString_eq_repr, Int.repr_eq_if]
  split
  · exact Nat.toList_repr
  · rw [String.toList_append, Nat.toList_repr]
    rfl

theorem isValue_intText (n : Int) : IsValue (toString n).toList := by
  rw [toList_intText]
  split
  · exact isValue_toDigits (by decide) (by decide) _
  · have hsign : IsValue ['-'] := by decide
    exact hsign.append (isValue_toDigits (by decide) (by decide) _)

theorem intText_inj {m n : Int} (h : (toString m).toList = (toString n).toList) : m = n := by
  -- a sign cannot be taken for a digit
  have hsign : ∀ k : Nat, '-' ∉ Nat.toDigits 10 k := by
    intro k hk
    exact absurd (Nat.isDigit_of_mem_toDigits (by decide) (by decide) hk) (by decide)
  rw [toList_intText, toList_intText] at h
  split at h <;> split at h
  · have := toDigits_inj (by decide) (by decide) h
    omega
  · exact absurd (h ▸ List.mem_cons_self) (hsign _)
  · exact absurd (h ▸ List.mem_cons_self) (hsign _)
  · have := toDigits_inj (by decide) (by decide) (List.cons.inj h).2
    omega

/-! ## Names as values -/

/-- Names that find their owner in a list tell the owners apart. -/
theorem inj_of_find? {α : Type} {name : α → String} (all : List α)
    (hfind : ∀ a, all.find? (fun b => name b == name a) = some a) {a b : α} (h : name a = name b) :
    a = b := by
  rw [← Option.some.injEq, ← hfind a, h, hfind b]

theorem Opcode.name_inj {op op' : Opcode} (h : op.name = op'.name) : op = op' :=
  inj_of_find? all (fun op => by cases op <;> rfl) h

theorem ModulationOp.name_inj {op op' : ModulationOp} (h : op.name = op'.name) : op = op' :=
  inj_of_find? all (fun op => by cases op <;> rfl) h

theorem CompareOp.name_inj {op op' : CompareOp} (h : op.name = op'.name) : op = op' :=
  inj_of_find? all (fun op => by cases op <;> rfl) h

theorem Opcode.isValue_name (op : Opcode) : IsValue op.name.toList := by cases op <;> decide

theorem ModulationOp.isValue_name (op : ModulationOp) : IsValue op.name.toList := by
  cases op <;> decide

theorem CompareOp.isValue_name (op : CompareOp) : IsValue op.name.toList := by cases op <;> decide

theorem WaveformOp.isValue_name (op : WaveformOp) : IsValue op.name.toList := by cases op <;> decide

namespace Instruction

theorem isValue_bit (b : Bool) : IsValue (bit b).toList := by cases b <;> decide

theorem bit_inj {a b : Bool} (h : (bit a).toList = (bit b).toList) : a = b := by
  revert h
  cases a <;> cases b <;> decide

/-! ## Labelled values -/

/-- A value behind its label. -/
structure Item where
  label : String
  value : List Char

def Item.chars (x : Item) : List Char := x.label.toList ++ x.value

structure Item.WellFormed (x : Item) : Prop where
  label : IsLabel x.label.toList
  value : IsValue x.value
  short : x.chars.length ≤ 23

/-- What waveform and marker words say first. -/
def engineItems (i : Instruction) : List Item :=
  [⟨"; engine=", Nat.toDigits 10 i.engine⟩, ⟨", write=", (bit i.write).toList⟩,
    ⟨" | ", i.waveformOp.name.toList⟩]

/-- The labelled values that follow the name of an opcode. -/
def items (i : Instruction) : Opcode → Except Fault (List Item)
  | .waveform => return i.engineItems ++ [⟨"; TA_bit=", (bit i.isTa).toList⟩,
      ⟨", count=", Nat.toDigits 10 i.count⟩, ⟨", addr=", Nat.toDigits 10 i.address⟩]
  | .marker => return i.engineItems ++ [⟨"; state=", (bit i.state).toList⟩,
      ⟨", transition=0b", padZeros 4 (Nat.toDigits 2 i.transition)⟩,
      ⟨", count=", Nat.toDigits 10 i.quads⟩]
  | .modulator => do
    let m ← i.modulationOp
    return ⟨" | ", m.name.toList⟩ :: ⟨"; nco_select=0x", hexDigits i.nco⟩ ::
      if m = .resetPhase then [] else [⟨", payload=", (toString i.immediate).toList⟩]
  | .compare => return [⟨" | ", i.comparison.name.toList⟩,
      ⟨", value=", Nat.toDigits 10 i.comparand⟩]
  | .goto | .call | .decRepeat | .prefetch => return [⟨" | target_addr=", Nat.toDigits 10 i.target⟩]
  | .loadRepeat => return [⟨" | count=", Nat.toDigits 10 i.target⟩]
  | .wait | .ret | .sync | .loadCompare => return []

theorem toString_self (s : String) : toString s = s := rfl

theorem transition_label : ", transition=0b".toList = ", ".toList ++ "transition=0b".toList := by decide

/-- **The disassembly is the name of the opcode and then labelled values.** -/
theorem text_eq (i : Instruction) : i.text = do
    let op ← i.opcode
    let items ← i.items op
    return String.ofList (op.name.toList ++ items.flatMap Item.chars) := by
  unfold text
  cases i.opcode with
  | error f => rfl
  | ok op =>
    cases op with
    | modulator =>
      cases hm : i.modulationOp with
      | error f => simp only [items, hm]; rfl
      | ok m =>
        simp only [items, hm]
        refine congrArg Except.ok (String.toList_injective ?_)
        by_cases hreset : m = .resetPhase
        · simp only [hreset, if_true, Item.chars, toString_self, String.toList_append,
            String.toList_ofList, List.flatMap_cons, List.flatMap_nil, List.append_nil,
            List.append_assoc]
        · simp only [hreset, if_false, Item.chars, toString_self, String.toList_append,
            String.toList_ofList, List.flatMap_cons, List.flatMap_nil, List.append_nil,
            List.append_assoc]
    | _ =>
      refine congrArg Except.ok (String.toList_injective ?_)
      simp only [Item.chars, engineItems, engineText, toString_self, String.toList_append,
        String.toList_ofList, Nat.toString_eq_ofList_toDigits, binaryText, transition_label,
        List.cons_append, List.nil_append, List.flatMap_cons, List.flatMap_nil, List.append_nil,
        List.append_assoc]

theorem text_eq_ok {i : Instruction} {s : String} (h : i.text = .ok s) :
    ∃ op xs, i.opcode = .ok op ∧ i.items op = .ok xs ∧
      s.toList = op.name.toList ++ xs.flatMap Item.chars := by
  rw [text_eq] at h
  obtain ⟨op, hop, h⟩ := bind_eq_ok.1 h
  obtain ⟨xs, hxs, h⟩ := bind_eq_ok.1 h
  obtain rfl := pure_eq_ok.1 h
  exact ⟨op, xs, hop, hxs, String.toList_ofList⟩

/-- An item with a value of at most `k` characters. -/
theorem Item.wellFormed {label : String} {value : List Char} {k : Nat}
    (hlabel : IsLabel label.toList ∧ label.toList.length + k ≤ 23) (hvalue : IsValue value)
    (hk : value.length ≤ k) : (⟨label, value⟩ : Item).WellFormed := by
  refine ⟨hlabel.1, hvalue, ?_⟩
  simp only [Item.chars, List.length_append]
  omega

/-- An item with the value of a field that has at most `k` decimal digits. -/
theorem Item.wellFormed_digits {label : String} {f : Field} {x : Int} (k : Nat)
    (hlabel : IsLabel label.toList ∧ label.toList.length + k ≤ 23)
    (hk : 0 < k ∧ f.size ≤ 10 ^ k) :
    (⟨label, Nat.toDigits 10 (f.get x)⟩ : Item).WellFormed :=
  Item.wellFormed hlabel (isValue_toDigits (by decide) (by decide) _)
    ((Nat.length_toDigits_le_iff (by decide) hk.1).2 (Nat.lt_of_lt_of_le (f.get_lt x) hk.2))

theorem Item.wellFormed_bit {label : String}
    (hlabel : IsLabel label.toList ∧ label.toList.length + 1 ≤ 23) (b : Bool) :
    (⟨label, (bit b).toList⟩ : Item).WellFormed :=
  Item.wellFormed hlabel (isValue_bit b) (by cases b <;> decide)

theorem engineItems_wellFormed (i : Instruction) : ∀ x ∈ i.engineItems, x.WellFormed := by
  have hname : i.waveformOp.name.toList.length ≤ 12 := by cases i.waveformOp <;> decide
  simp only [engineItems, List.forall_mem_cons]
  exact ⟨Item.wellFormed_digits 1 (by decide) (by decide), Item.wellFormed_bit (by decide) _,
    Item.wellFormed (by decide) (WaveformOp.isValue_name _) hname, List.forall_mem_nil _⟩

theorem length_immediate (i : Instruction) : (toString i.immediate).toList.length ≤ 11 := by
  have hget := Layout.immediate.get_lt i.payload
  have hrange : -0x80000000 ≤ i.immediate ∧ i.immediate < 0x80000000 := by
    unfold immediate
    change _ < 0x100000000 at hget
    dsimp only
    split <;> omega
  rw [toList_intText]
  split
  · have h := (Nat.length_toDigits_le_iff (b := 10) (k := 10) (n := i.immediate.toNat) (by decide)
      (by decide)).2 (by omega)
    omega
  · have h := (Nat.length_toDigits_le_iff (b := 10) (k := 10) (n := (-i.immediate).toNat) (by decide)
      (by decide)).2 (by omega)
    rw [List.length_cons]
    omega

/-- Every labelled value of a disassembly is well-formed. -/
theorem items_wellFormed {i : Instruction} {op : Opcode} {xs : List Item} (h : i.items op = .ok xs) :
    ∀ x ∈ xs, x.WellFormed := by
  cases op with
  | waveform =>
    obtain rfl := pure_eq_ok.1 h
    refine List.forall_mem_append.2 ⟨i.engineItems_wellFormed, ?_⟩
    simp only [List.forall_mem_cons]
    exact ⟨Item.wellFormed_bit (by decide) _, Item.wellFormed_digits 7 (by decide) (by decide),
      Item.wellFormed_digits 8 (by decide) (by decide), List.forall_mem_nil _⟩
  | marker =>
    obtain rfl := pure_eq_ok.1 h
    have hbits : IsValue (padZeros 4 (Nat.toDigits 2 i.transition)) :=
      isValue_padZeros (isValue_toDigits (by decide) (by decide) _) 4
    have hlength : (padZeros 4 (Nat.toDigits 2 i.transition)).length = 4 :=
      length_padZeros ((Nat.length_toDigits_le_iff (by decide) (by decide)).2
        (Layout.transition.get_lt i.payload))
    refine List.forall_mem_append.2 ⟨i.engineItems_wellFormed, ?_⟩
    simp only [List.forall_mem_cons]
    exact ⟨Item.wellFormed_bit (by decide) _, Item.wellFormed (by decide) hbits hlength.le,
      Item.wellFormed_digits 9 (by decide) (by decide), List.forall_mem_nil _⟩
  | modulator =>
    obtain ⟨m, _, h⟩ := bind_eq_ok.1 h
    obtain rfl := pure_eq_ok.1 h
    have hname : m.name.toList.length ≤ 12 := by cases m <;> decide
    have hnco : IsValue (hexDigits i.nco) := isValue_toDigits (by decide) (by decide) _
    have hlength : (hexDigits i.nco).length ≤ 1 :=
      (Nat.length_toDigits_le_iff (by decide) (by decide)).2 (Layout.nco.get_lt i.payload)
    simp only [List.forall_mem_cons]
    refine ⟨Item.wellFormed (by decide) m.isValue_name hname,
      Item.wellFormed (by decide) hnco hlength, ?_⟩
    split
    · exact List.forall_mem_nil _
    · exact List.forall_mem_singleton.2
        (Item.wellFormed (by decide) (isValue_intText _) i.length_immediate)
  | compare =>
    obtain rfl := pure_eq_ok.1 h
    have hname : i.comparison.name.toList.length ≤ 11 := by cases i.comparison <;> decide
    simp only [List.forall_mem_cons]
    exact ⟨Item.wellFormed (by decide) (CompareOp.isValue_name _) hname,
      Item.wellFormed_digits 3 (by decide) (by decide), List.forall_mem_nil _⟩
  | goto | call | decRepeat | prefetch | loadRepeat =>
    obtain rfl := pure_eq_ok.1 h
    exact List.forall_mem_singleton.2 (Item.wellFormed_digits 8 (by decide) (by decide))
  | wait | ret | sync | loadCompare =>
    obtain rfl := pure_eq_ok.1 h
    exact List.forall_mem_nil _

/-! ## Telling instructions apart -/

/-- Labelled values start with a separator. -/
theorem separated_chars {xs : List Item} (h : ∀ x ∈ xs, x.WellFormed) :
    Separated (xs.flatMap Item.chars) := by
  cases xs with
  | nil => simp [Separated]
  | cons x xs =>
    have hlabel := (h x List.mem_cons_self).label
    rw [List.flatMap_cons, Item.chars, List.append_assoc]
    intro c hc
    rw [List.head?_append_of_ne_nil _ hlabel.ne_nil] at hc
    exact hlabel.separated c hc

/-- Equal texts behind equal labels have an equal first value. -/
theorem chars_cons_inj {x y : Item} {xs ys : List Item} (hx : ∀ z ∈ x :: xs, z.WellFormed)
    (hy : ∀ z ∈ y :: ys, z.WellFormed) (hlabel : x.label = y.label)
    (h : (x :: xs).flatMap Item.chars = (y :: ys).flatMap Item.chars) :
    x = y ∧ xs.flatMap Item.chars = ys.flatMap Item.chars := by
  obtain ⟨hx, hxs⟩ := List.forall_mem_cons.1 hx
  obtain ⟨hy, hys⟩ := List.forall_mem_cons.1 hy
  simp only [List.flatMap_cons, Item.chars, hlabel, List.append_assoc] at h
  obtain ⟨hvalue, hrest⟩ := hx.value.append_inj hy.value (separated_chars hxs) (separated_chars hys)
    (List.append_cancel_left h)
  cases x
  cases y
  exact ⟨by simp_all, hrest⟩

/-- Equal texts behind equal labels have equal values. -/
theorem chars_inj {xs ys : List Item} (hx : ∀ x ∈ xs, x.WellFormed) (hy : ∀ y ∈ ys, y.WellFormed)
    (hlabels : xs.map Item.label = ys.map Item.label)
    (h : xs.flatMap Item.chars = ys.flatMap Item.chars) : xs = ys := by
  induction xs generalizing ys with
  | nil => exact (List.map_eq_nil_iff.1 hlabels.symm).symm
  | cons x xs ih =>
    cases ys with
    | nil => cases hlabels
    | cons y ys =>
      obtain ⟨hlabel, htail⟩ := List.cons.inj hlabels
      obtain ⟨rfl, hrest⟩ := chars_cons_inj hx hy hlabel h
      rw [ih (List.forall_mem_cons.1 hx).2 (List.forall_mem_cons.1 hy).2 htail hrest]

/-- For the same opcode, equal texts have equal values. The labels of a modulator word depend on its
operation, which is the first value. -/
theorem items_inj {i j : Instruction} {op : Opcode} {xs ys : List Item} (hx : i.items op = .ok xs)
    (hy : j.items op = .ok ys) (h : xs.flatMap Item.chars = ys.flatMap Item.chars) : xs = ys := by
  have hxs := items_wellFormed hx
  have hys := items_wellFormed hy
  cases op with
  | modulator =>
    obtain ⟨m, _, hx⟩ := bind_eq_ok.1 hx
    obtain rfl := pure_eq_ok.1 hx
    obtain ⟨m', _, hy⟩ := bind_eq_ok.1 hy
    obtain rfl := pure_eq_ok.1 hy
    -- the labels cannot be compared before the operations are known to agree
    obtain ⟨hname, _⟩ := chars_cons_inj hxs hys rfl h
    obtain rfl := ModulationOp.name_inj (String.toList_injective (Item.mk.inj hname).2)
    refine chars_inj hxs hys ?_ h
    by_cases hreset : m = .resetPhase
    · simp only [hreset, if_true, List.map_cons, List.map_nil]
    · simp only [hreset, if_false, List.map_cons, List.map_nil]
  | _ =>
    obtain rfl := pure_eq_ok.1 hx
    obtain rfl := pure_eq_ok.1 hy
    refine chars_inj hxs hys ?_ h
    simp only [engineItems, List.map_append, List.map_cons, List.map_nil]

/-- **Equal texts have the same opcode and the same values.** -/
theorem text_inj {i j : Instruction} {s : String} (hi : i.text = .ok s) (hj : j.text = .ok s) :
    ∃ op xs, i.opcode = .ok op ∧ j.opcode = .ok op ∧ i.items op = .ok xs ∧ j.items op = .ok xs := by
  obtain ⟨op, xs, hop, hxs, hs⟩ := text_eq_ok hi
  obtain ⟨op', ys, hop', hys, hs'⟩ := text_eq_ok hj
  obtain ⟨hname, hchars⟩ := op.isValue_name.append_inj op'.isValue_name
    (separated_chars (items_wellFormed hxs)) (separated_chars (items_wellFormed hys)) (hs.symm.trans hs')
  obtain rfl := Opcode.name_inj (String.toList_injective hname)
  obtain rfl := items_inj hxs hys hchars
  exact ⟨op, xs, hop, hop', hxs, hys⟩

/-! ## The shape of a disassembly -/

theorem isNeat_append_chars {s : List Char} (hs : IsNeat s) {xs : List Item}
    (hxs : ∀ x ∈ xs, x.WellFormed) : IsNeat (s ++ xs.flatMap Item.chars) := by
  induction xs generalizing s with
  | nil => rwa [List.flatMap_nil, List.append_nil]
  | cons x xs ih =>
    obtain ⟨hx, hxs⟩ := List.forall_mem_cons.1 hxs
    rw [List.flatMap_cons, ← List.append_assoc]
    exact ih (hx.label.isNeat_append hs hx.value.isNeat) hxs

theorem isNeat_text {i : Instruction} {s : String} (h : i.text = .ok s) : IsNeat s.toList := by
  obtain ⟨op, xs, _, hxs, hs⟩ := text_eq_ok h
  rw [hs]
  exact isNeat_append_chars op.isValue_name.isNeat (items_wellFormed hxs)

theorem length_items_le {i : Instruction} {op : Opcode} {xs : List Item} (h : i.items op = .ok xs) :
    xs.length ≤ 6 := by
  cases op with
  | modulator =>
    obtain ⟨m, _, h⟩ := bind_eq_ok.1 h
    obtain rfl := pure_eq_ok.1 h
    simp only [List.length_cons]
    split <;> simp
  | _ =>
    obtain rfl := pure_eq_ok.1 h
    simp [engineItems]

theorem length_chars_le {xs : List Item} (h : ∀ x ∈ xs, x.WellFormed) :
    (xs.flatMap Item.chars).length ≤ 23 * xs.length := by
  induction xs with
  | nil => simp
  | cons x xs ih =>
    obtain ⟨hx, hxs⟩ := List.forall_mem_cons.1 h
    have hshort := hx.short
    have hrest := ih hxs
    simp only [List.flatMap_cons, List.length_append, List.length_cons]
    omega

/-- A disassembly has at most six labelled values, of at most 23 characters each. -/
theorem length_text_le {i : Instruction} {s : String} (h : i.text = .ok s) : s.length ≤ 149 := by
  obtain ⟨op, xs, _, hxs, hs⟩ := text_eq_ok h
  have hname : op.name.length ≤ 11 := by cases op <;> decide
  have hchars := length_chars_le (items_wellFormed hxs)
  have hcount := length_items_le hxs
  rw [← String.length_toList, hs, List.length_append, String.length_toList]
  omega

end Instruction

end PulseSequencer
