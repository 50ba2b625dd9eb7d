import PulseSequencer.Proofs.Outputs

/-!
# The words of a program, piece by piece

A program is a list of pieces. Each piece is emitted for one control-flow operation or for one element
of a block, and nothing comes between its words.

* `Source`, `Piece` — what words are emitted for, and the words.
* `Context.pieces` — the pieces of an entry; `Context.entryWords_eq_pieces` — they hold its words.
* `Context.Emits` — all that a piece can be; `Context.emits_of_mem_pieces`.
* `Context.flows_of_mapM` — the control flow of a sequence is that of its pieces.
* `compile_pieces` — the pieces of a compiled sequence; `EmittedFor` — what a place is emitted for.
* `exists_of_getElem?_flatMap`, `flatMap_eq_of_getElem?` — the piece that a place of the program lies in.
-/

namespace PulseSequencer

/-- What words are emitted for. -/
inductive Source where
  | flow (f : Flow)
  | element (o : Occurrence)

/-- The control-flow operation that words are emitted for. -/
def Source.flow? : Source → Option Flow
  | .flow f => some f
  | .element _ => none

/-- Words that are emitted together. -/
structure Piece where
  source : Source
  words : List Word

/-! ## Places in a list of parts -/

section

variable {α β : Type} {f : α → List β}

/-- What is before a part, the part, and what is after it. -/
theorem flatMap_eq_of_getElem? {as : List α} {k : Nat} {a : α} (h : as[k]? = some a) :
    as.flatMap f = (as.take k).flatMap f ++ f a ++ (as.drop (k + 1)).flatMap f := by
  obtain ⟨hk, rfl⟩ := List.getElem?_eq_some_iff.1 h
  conv => lhs; rw [← List.take_append_drop k as, List.drop_eq_getElem_cons hk]
  rw [List.flatMap_append, List.flatMap_cons, List.append_assoc]

/-- Every place lies in a part. -/
theorem exists_of_getElem?_flatMap {as : List α} {i : Nat} {b : β} (h : (as.flatMap f)[i]? = some b) :
    ∃ k a j, as[k]? = some a ∧ (f a)[j]? = some b ∧ i = ((as.take k).flatMap f).length + j := by
  induction as generalizing i with
  | nil => cases h
  | cons first as ih =>
    rw [List.flatMap_cons] at h
    by_cases hi : i < (f first).length
    · rw [List.getElem?_append_left hi] at h
      exact ⟨0, first, i, rfl, h, by simp⟩
    · rw [List.getElem?_append_right (by omega)] at h
      obtain ⟨k, a, j, hk, hj, hij⟩ := ih h
      refine ⟨k + 1, a, j, hk, hj, ?_⟩
      rw [List.take_succ_cons, List.flatMap_cons, List.length_append]
      omega

/-- The places of a part. -/
theorem getElem?_flatMap_add {as : List α} {k j : Nat} {a : α} (hk : as[k]? = some a)
    (hj : j < (f a).length) :
    (as.flatMap f)[((as.take k).flatMap f).length + j]? = (f a)[j]? := by
  rw [flatMap_eq_of_getElem? hk, List.append_assoc, List.getElem?_append_right (by omega),
    Nat.add_sub_cancel_left, List.getElem?_append_left hj]

/-- What is before a place of a part. -/
theorem take_flatMap_add {as : List α} {k j : Nat} {a : α} (hk : as[k]? = some a)
    (hj : j < (f a).length) :
    (as.flatMap f).take (((as.take k).flatMap f).length + j) =
      (as.take k).flatMap f ++ (f a).take j := by
  rw [flatMap_eq_of_getElem? hk, List.append_assoc, List.take_length_add_append,
    List.take_append_of_le_length (Nat.le_of_lt hj)]

/-- The place of the only element that has a property. -/
theorem eq_length_of_getElem? {P : α → Prop} {before after : List α} {a b : α} {j : Nat}
    (hother : ∀ x ∈ before ++ after, ¬ P x) (h : (before ++ a :: after)[j]? = some b) (hb : P b) :
    j = before.length := by
  rcases Nat.lt_trichotomy j before.length with hj | hj | hj
  · rw [List.getElem?_append_left hj] at h
    exact absurd hb (hother b (List.mem_append_left _ (List.mem_of_getElem? h)))
  · exact hj
  · obtain ⟨d, rfl⟩ := Nat.exists_eq_add_of_lt hj
    rw [List.getElem?_append_right (by omega), show before.length + d + 1 - before.length = d + 1 by omega,
      List.getElem?_cons_succ] at h
    exact absurd hb (hother b (List.mem_append_right _ (List.mem_of_getElem? h)))

theorem filterMap_cons_toList (g : α → Option β) (a : α) (as : List α) :
    (a :: as).filterMap g = (g a).toList ++ as.filterMap g := by
  cases h : g a <;> simp [h]

end

/-- A word that is given on a condition has the operation it is made with. -/
theorem Optionally.modulation? {cond : Bool} {op : ModulationOp} {nco : Int} {x : Except Fault Int}
    {words : List Word} (h : Optionally cond (do Word.modulation op nco (← x)) words) :
    ∀ w ∈ words, Word.modulation? w = some op := by
  refine h.forall_mem fun w hw => ?_
  obtain ⟨payload, _, hw⟩ := bind_eq_ok.1 hw
  exact Word.modulation?_of_modulation hw

namespace Context

/-! ## Pieces of an entry -/

/-- The pieces of an entry. Those of a block are in the order of its schedule. -/
def pieces (c : Context) (prologue : List Word) : Entry → Except Fault (List Piece)
  | .block b => (c.schedule b).mapM fun s =>
    (c.emission s.item).map fun em => ⟨.element s.item, em.words⟩
  | .flow f => (c.entryWords prologue (.flow f)).map fun words => [⟨.flow f, words⟩]
  | e => .error (.unsupported (.entry e))

theorem mapM_map_words (emit : Slot Occurrence → Except Fault Emission) (slots : List (Slot Occurrence)) :
    (slots.mapM emit).map (·.flatMap (·.words)) =
      (slots.mapM fun s => (emit s).map fun em => (⟨.element s.item, em.words⟩ : Piece)).map
        (·.flatMap Piece.words) := by
  induction slots with
  | nil => rfl
  | cons s slots ih =>
    rw [List.mapM_cons, List.mapM_cons]
    cases hs : emit s with
    | error f => rfl
    | ok em =>
      calc
        _ = ((slots.mapM emit).map (·.flatMap (·.words))).map (em.words ++ ·) := by
          cases slots.mapM emit <;> rfl
        _ = _ := by
          rw [ih]
          cases slots.mapM fun s => (emit s).map fun em => (⟨.element s.item, em.words⟩ : Piece) <;> rfl

/-- **The words of an entry, or the fault that prevents them, are those of its pieces.** -/
theorem entryWords_eq_pieces {c : Context} (hcounted : ∀ b, c.Counted b) (prologue : List Word)
    (e : Entry) :
    c.entryWords prologue e = (c.pieces prologue e).map (·.flatMap Piece.words) := by
  cases e with
  | block b => exact (serialize_words (hcounted b)).trans (mapM_map_words _ _)
  | flow f =>
    simp only [pieces]
    cases c.entryWords prologue (.flow f) with
    | error g => rfl
    | ok words => simp [Except.map]
  | pulse p => rfl
  | frame f => rfl
  | foreign t => rfl

/-! ## What a piece can be -/

/-- The words of a piece, by what it is emitted for. -/
inductive Emits (c : Context) : Source → List Word → Prop where
  | wait {reset tune : Word} (hreset : Modulator.resetPhase c.settings.resetNcoSelect.val = .ok reset)
      (htune : Modulator.setFrequency c.nco c.carrier = .ok tune) :
      Emits c (.flow .wait) [Word.sync, reset, tune, Word.wait]
  | flow {f : Flow} {w : Word} (hf : f ≠ .wait) (hw : f.word = .ok w) : Emits c (.flow f) [w]
  | frame {channel : Channel} {index : Nat} {f : Frame} {w : Word}
      (hw : Modulator.updateFrame c.nco f.angle = .ok w) :
      Emits c (.element ⟨channel, index, .frame f⟩) [w]
  | analog {channel : Channel} {index : Nat} {p : Pulse} {r : Record} {words : List Word}
      (hchannel : channel.isAnalog = true) (hr : c.library.find? p.uid = some r)
      (hwords : c.AnalogWords p r words) : Emits c (.element ⟨channel, index, .pulse p⟩) words
  | digital {channel : Channel} {index : Nat} {p : Pulse} {r : Record}
      (hchannel : channel.isAnalog = false) (hr : c.library.find? p.uid = some r) :
      Emits c (.element ⟨channel, index, .pulse p⟩) [r.word]

theorem emits_of_element {c : Context} {o : Occurrence} {em : Emission} (h : c.emission o = .ok em) :
    c.Emits (.element o) em.words := by
  obtain ⟨channel, index, e⟩ := o
  rcases element_cases h with ⟨p, rfl, hp⟩ | ⟨f, w, rfl, hw, rfl⟩
  · obtain ⟨r, hr, _, hwords⟩ := pulse_eq_ok hp
    have hfind := Library.record_eq_ok.1 hr
    split at hwords
    · rename_i hchannel
      exact .analog hchannel hfind hwords
    · rename_i hchannel
      rw [hwords]
      exact .digital (by simpa using hchannel) hfind
  · exact .frame hw

theorem emits_of_flow {c : Context} {prologue words : List Word} {f : Flow}
    (hprologue : c.prologue = .ok prologue) (h : c.entryWords prologue (.flow f) = .ok words) :
    c.Emits (.flow f) words := by
  rcases entryWords_eq_ok h with ⟨b, s, he, _⟩ | ⟨g, w, he, hw, rfl⟩
  · cases he
  · obtain rfl := Entry.flow.inj he
    split
    · rename_i hwait
      subst hwait
      obtain ⟨reset, tune, hreset, htune, rfl⟩ := prologue_eq_ok hprologue
      obtain rfl := pure_eq_ok.1 hw
      exact .wait hreset htune
    · rename_i hwait
      exact .flow hwait hw

/-- A word of an element is that of a record or lets the modulator act, without a reset. -/
theorem Emits.element_word {c : Context} {o : Occurrence} {words : List Word}
    (h : c.Emits (.element o) words) {w : Word} (hw : w ∈ words) :
    (∃ n r, c.library.find? n = some r ∧ w = r.word) ∨
      ∃ op payload, op ≠ .resetPhase ∧ Word.modulation op c.nco payload = .ok w := by
  have hgiven : ∀ {op : ModulationOp} {x : Except Fault Int} {v : Word}, op ≠ .resetPhase →
      (do Word.modulation op c.nco (← x)) = .ok v →
      ∃ op payload, op ≠ .resetPhase ∧ Word.modulation op c.nco payload = .ok v := by
    intro op x v hop hv
    obtain ⟨payload, _, hv⟩ := bind_eq_ok.1 hv
    exact ⟨op, payload, hop, hv⟩
  cases h with
  | frame hv =>
    obtain rfl := List.mem_singleton.1 hw
    exact Or.inr (hgiven (by decide) hv)
  | @analog channel index p r words hchannel hr hwords =>
    obtain ⟨phase, tune, run, restore, rfl, hphase, htune, hrun, hrestore⟩ := hwords
    simp only [List.mem_append, List.mem_cons, List.not_mem_nil, or_false] at hw
    rcases hw with ((hw | hw) | rfl | rfl) | hw
    · exact Or.inr (hphase.forall_mem (fun _ => hgiven (by decide)) w hw)
    · exact Or.inr (htune.forall_mem (fun _ => hgiven (by decide)) w hw)
    · exact Or.inr ⟨.modulate, r.count, by decide, hrun⟩
    · exact Or.inl ⟨p.uid, r, hr, rfl⟩
    · exact Or.inr (hrestore.forall_mem (fun _ => hgiven (by decide)) w hw)
  | @digital channel index p r hchannel hr =>
    obtain rfl := List.mem_singleton.1 hw
    exact Or.inl ⟨p.uid, r, hr, rfl⟩

/-- Where the oscillators run in the words of an analog pulse. -/
theorem AnalogWords.modulate_at {c : Context} {p : Pulse} {r : Record} {words : List Word}
    (h : c.AnalogWords p r words) {j : Nat} {w : Word} (hj : words[j]? = some w)
    (hmod : Word.modulation? w = some .modulate) :
    ∃ phase tune restore, words = phase ++ tune ++ [w, r.word] ++ restore ∧
      j = (phase ++ tune).length ∧
      Optionally c.settings.phaseByInstruction (Modulator.setPhase c.nco p.phase) phase ∧
      Optionally (c.retunes p) (Modulator.setFrequency c.nco (c.carrier + p.frequency)) tune ∧
      Modulator.modulate c.nco r.count = .ok w := by
  obtain ⟨phase, tune, run, restore, rfl, hphase, htune, hrun, hrestore⟩ := h
  have hother : ∀ v ∈ (phase ++ tune) ++ (r.word :: restore), ¬ Word.modulation? v = some .modulate := by
    intro v hv
    simp only [List.mem_append, List.mem_cons] at hv
    rcases hv with (hv | hv) | rfl | hv
    · rw [hphase.modulation? v hv]
      decide
    · rw [htune.modulation? v hv]
      decide
    · rw [r.modulation?_word]
      decide
    · rw [hrestore.modulation? v hv]
      decide
  rw [List.append_assoc (phase ++ tune)] at hj
  obtain rfl := eq_length_of_getElem? hother hj hmod
  obtain rfl : run = w := by simpa using hj
  exact ⟨phase, tune, restore, rfl, rfl, hphase, htune, hrun⟩

/-- Only the pieces of analog pulses let the oscillators run. -/
theorem Emits.analog_of_modulate {c : Context} {source : Source} {words : List Word}
    (h : c.Emits source words) {j : Nat} {w : Word} (hj : words[j]? = some w)
    (hmod : Word.modulation? w = some .modulate) :
    ∃ channel index p r, source = .element ⟨channel, index, .pulse p⟩ ∧ channel.isAnalog = true ∧
      c.library.find? p.uid = some r ∧ c.AnalogWords p r words := by
  have hw := List.mem_of_getElem? hj
  cases h with
  | @wait reset tune hreset htune =>
    obtain ⟨payload, _, htune⟩ := bind_eq_ok.1 htune
    simp only [List.mem_cons, List.not_mem_nil, or_false] at hw
    rcases hw with rfl | rfl | rfl | rfl
    · simp at hmod
    · simp [Word.modulation?_of_modulation hreset] at hmod
    · simp [Word.modulation?_of_modulation htune] at hmod
    · simp at hmod
  | flow hf hv =>
    obtain rfl := List.mem_singleton.1 hw
    simp [Flow.modulation?_word hv] at hmod
  | frame hv =>
    obtain ⟨payload, _, hv⟩ := bind_eq_ok.1 hv
    obtain rfl := List.mem_singleton.1 hw
    simp [Word.modulation?_of_modulation hv] at hmod
  | @analog channel index p r words hchannel hr hwords =>
    exact ⟨channel, index, p, r, rfl, hchannel, hr, hwords⟩
  | @digital channel index p r hchannel hr =>
    obtain rfl := List.mem_singleton.1 hw
    simp [r.modulation?_word] at hmod

/-- The source of a piece is the entry itself, or an element of it. -/
def SourceOf (c : Context) (e : Entry) : Source → Prop
  | .flow f => e = .flow f
  | .element o => ∃ b : Block, e = .block b ∧ o.channel ∈ c.channels ∧ o.entry ∈ b.on o.channel

/-- What the pieces of an entry are. -/
theorem emits_of_mem_pieces {c : Context} {prologue : List Word} {e : Entry} {ps : List Piece}
    (hprologue : c.prologue = .ok prologue) (h : c.pieces prologue e = .ok ps) {x : Piece}
    (hx : x ∈ ps) : c.SourceOf e x.source ∧ c.Emits x.source x.words := by
  cases e with
  | block b =>
    obtain ⟨s, hs, hsx⟩ := exists_of_mem_mapM h hx
    obtain ⟨em, hem, rfl⟩ := map_eq_ok.1 hsx
    obtain ⟨hc, he⟩ := exists_mem_schedule.1 ⟨s, hs, rfl, rfl⟩
    exact ⟨⟨b, rfl, hc, he⟩, emits_of_element hem⟩
  | flow f =>
    obtain ⟨words, hwords, rfl⟩ := map_eq_ok.1 h
    obtain rfl := List.mem_singleton.1 hx
    exact ⟨rfl, emits_of_flow hprologue hwords⟩
  | pulse p => cases h
  | frame f => cases h
  | foreign t => cases h

end Context

/-! ## Compiled sequences -/

theorem mapM_pieces {c : Context} (hcounted : ∀ b, c.Counted b) (prologue : List Word)
    (entries : List Entry) {parts : List (List Word)}
    (h : entries.mapM (c.entryWords prologue) = .ok parts) :
    ∃ pieces, entries.mapM (c.pieces prologue) = .ok pieces ∧
      parts = pieces.map (·.flatMap Piece.words) := by
  induction entries generalizing parts with
  | nil =>
    obtain rfl := pure_eq_ok.1 h
    exact ⟨[], rfl, rfl⟩
  | cons e entries ih =>
    rw [List.mapM_cons] at h
    obtain ⟨words, hwords, h⟩ := bind_eq_ok.1 h
    obtain ⟨later, hlater, h⟩ := bind_eq_ok.1 h
    obtain rfl := pure_eq_ok.1 h
    rw [Context.entryWords_eq_pieces hcounted] at hwords
    obtain ⟨ps, hps, rfl⟩ := map_eq_ok.1 hwords
    obtain ⟨pieces, hpieces, rfl⟩ := ih hlater
    refine ⟨ps :: pieces, ?_, rfl⟩
    rw [List.mapM_cons, hps, hpieces]
    rfl

/-- The pieces of a program, entry by entry. -/
structure Pieces (c : Context) (entries : List Entry) (words : List Word) (parts : List (List Piece)) :
    Prop where
  assembled : ∃ prologue, c.prologue = .ok prologue ∧ entries.mapM (c.pieces prologue) = .ok parts
  words_eq : words = parts.flatten.flatMap Piece.words

/-- **The words of a compiled sequence are those of its pieces.** -/
theorem compile_pieces {entries : List Entry} {map : ChannelMap} {pulses : Option Repertoire}
    {settings : Settings} {prog : Program} {t : Session}
    (h : compile entries map pulses settings = .ok prog t) :
    ∃ parts, Pieces (map.context prog.library settings) entries prog.words parts := by
  obtain ⟨_, _, prologue, parts, hprologue, hparts, hwords⟩ := compile_eq_ok h
  obtain ⟨pieces, hpieces, rfl⟩ := mapM_pieces (compile_counted h) prologue entries hparts
  refine ⟨pieces, ⟨prologue, hprologue, hpieces⟩, ?_⟩
  rw [hwords, List.flatten_eq_flatMap (L := pieces), List.flatMap_assoc]
  rfl

/-- The control-flow operation that an entry is. -/
def Entry.flow? : Entry → Option Flow
  | .flow f => some f
  | _ => none

/-- The control flow of an entry is that of its pieces. -/
theorem Context.flows_of_pieces {c : Context} {prologue : List Word} {e : Entry} {ps : List Piece}
    (h : c.pieces prologue e = .ok ps) : ps.filterMap (·.source.flow?) = e.flow?.toList := by
  cases e with
  | block b =>
    refine List.filterMap_eq_nil_iff.2 fun x hx => ?_
    obtain ⟨s, _, hsx⟩ := exists_of_mem_mapM h hx
    obtain ⟨em, _, rfl⟩ := map_eq_ok.1 hsx
    rfl
  | flow f =>
    obtain ⟨words, _, rfl⟩ := map_eq_ok.1 h
    rfl
  | pulse p => cases h
  | frame f => cases h
  | foreign t => cases h

/-- The control flow of a sequence is that of its pieces, in order. -/
theorem Context.flows_of_mapM {c : Context} {prologue : List Word} {entries : List Entry}
    {parts : List (List Piece)} (h : entries.mapM (c.pieces prologue) = .ok parts) :
    parts.flatten.filterMap (·.source.flow?) = entries.filterMap Entry.flow? := by
  induction entries generalizing parts with
  | nil =>
    obtain rfl := pure_eq_ok.1 h
    rfl
  | cons e entries ih =>
    rw [List.mapM_cons] at h
    obtain ⟨ps, hps, h⟩ := bind_eq_ok.1 h
    obtain ⟨later, hlater, h⟩ := bind_eq_ok.1 h
    obtain rfl := pure_eq_ok.1 h
    rw [List.flatten_cons, List.filterMap_append, ih hlater, flows_of_pieces hps, filterMap_cons_toList]

/-- Place `i` of the words of the pieces lies in what is emitted for `source`. -/
def EmittedFor (ps : List Piece) (i : Nat) (source : Source) : Prop :=
  ∃ k x j, ps[k]? = some x ∧ x.source = source ∧ j < x.words.length ∧
    i = ((ps.take k).flatMap Piece.words).length + j

/-- What a piece of a program is. -/
theorem Pieces.emits {c : Context} {entries : List Entry} {words : List Word}
    {parts : List (List Piece)} (h : Pieces c entries words parts) {x : Piece}
    (hx : x ∈ parts.flatten) :
    (∃ e ∈ entries, c.SourceOf e x.source) ∧ c.Emits x.source x.words := by
  obtain ⟨prologue, hprologue, hparts⟩ := h.assembled
  obtain ⟨ps, hps, hx⟩ := List.mem_flatten.1 hx
  obtain ⟨e, he, hep⟩ := exists_of_mem_mapM hparts hps
  obtain ⟨hsource, hemits⟩ := Context.emits_of_mem_pieces hprologue hep hx
  exact ⟨⟨e, he, hsource⟩, hemits⟩

end PulseSequencer
