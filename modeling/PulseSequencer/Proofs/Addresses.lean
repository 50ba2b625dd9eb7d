import Mathlib.Algebra.GroupWithZero.Nat
import PulseSequencer.Proofs.Compilation
import PulseSequencer.Proofs.Emission

/-!
# Addresses

How many words an entry takes can be read off the sequence, so the address of every entry is known
before anything is encoded. Nothing is asked of the library: its counts may be negative, in which case
clocks of lanes run backwards.

* `merge_perm` — a merge emits every pending element once.
* `Context.size` — the number of words of an entry; `Context.length_entryWords`.
* `Context.program` — the words of a sequence or why there are none; `Context.assemble_outcome`.
* `Context.program_append` — entry after entry; `Context.program_of_each` — when a program is too long.
* `Context.assemble_addresses` — where the words of each entry stand.
-/

namespace PulseSequencer

/-! ## What a merge emits -/

/-- A round emits some of the pending elements and leaves the others. -/
theorem round_perm {t : Int} {lanes rest : List Lane} {words : List Word}
    (h : round t lanes = .ok (words, rest)) :
    ∃ ems : List Emission, words = ems.flatMap Emission.words ∧
      (ems.map Except.ok ++ rest.flatMap Lane.pending).Perm (lanes.flatMap Lane.pending) := by
  fun_induction round t lanes generalizing words rest with
  | case1 =>
    obtain ⟨rfl, rfl⟩ := Prod.mk.inj (Except.ok.inj h)
    exact ⟨[], rfl, List.Perm.refl _⟩
  | case2 clock lanes ih =>
    obtain ⟨⟨later, rest⟩, hr, h⟩ := bind_eq_ok.1 h
    obtain ⟨rfl, rfl⟩ := Prod.mk.inj (pure_eq_ok.1 h)
    obtain ⟨ems, hwords, hperm⟩ := ih hr
    exact ⟨ems, hwords, hperm⟩
  | case3 clock e es lanes hlt ih =>
    obtain ⟨⟨later, rest⟩, hr, h⟩ := bind_eq_ok.1 h
    obtain ⟨rfl, rfl⟩ := Prod.mk.inj (pure_eq_ok.1 h)
    obtain ⟨ems, hwords, hperm⟩ := ih hr
    exact ⟨ems, hwords, (List.perm_append_comm_assoc _ _ _).trans (hperm.append_left _)⟩
  | case4 clock e es lanes hlt ih =>
    obtain ⟨em, he, hrest⟩ := bind_eq_ok.1 h
    obtain ⟨⟨later, rest⟩, hr, hdone⟩ := bind_eq_ok.1 hrest
    obtain ⟨rfl, rfl⟩ := Prod.mk.inj (pure_eq_ok.1 hdone)
    obtain ⟨ems, rfl, hperm⟩ := ih hr
    subst he
    refine ⟨em :: ems, rfl, List.Perm.cons _ ?_⟩
    exact (List.perm_append_comm_assoc _ _ _).trans (hperm.append_left _)

theorem pending_eq_nil_of_nextStart {lanes : List Lane} (h : nextStart lanes = none) :
    lanes.flatMap Lane.pending = [] := by
  rw [nextStart, List.min?_eq_none_iff, List.map_eq_nil_iff, List.filter_eq_nil_iff] at h
  refine List.flatMap_eq_nil_iff.2 fun l hl => ?_
  simpa using h l hl

/-- **A merge emits every pending element once**, whatever the clocks say. -/
theorem merge_perm {lanes final : List Lane} {rounds : List (List Word)}
    (h : merge lanes = .ok (rounds, final)) :
    ∃ ems : List Emission, rounds.flatten = ems.flatMap Emission.words ∧
      (ems.map Except.ok).Perm (lanes.flatMap Lane.pending) := by
  fun_induction merge lanes generalizing rounds final with
  | case1 lanes hs =>
    obtain ⟨rfl, rfl⟩ := Prod.mk.inj (Except.ok.inj h)
    exact ⟨[], rfl, by rw [pending_eq_nil_of_nextStart hs]; exact List.Perm.refl _⟩
  | case2 lanes t hs f hr => cases h
  | case3 lanes t hs words rest hr _ ih =>
    obtain ⟨⟨later, last⟩, hrest, h⟩ := bind_eq_ok.1 h
    obtain ⟨rfl, rfl⟩ := Prod.mk.inj (pure_eq_ok.1 h)
    obtain ⟨ems, rfl, hperm⟩ := round_perm hr
    obtain ⟨ems', hwords, hperm'⟩ := ih hrest
    refine ⟨ems ++ ems', by rw [List.flatten_cons, hwords, List.flatMap_append], ?_⟩
    rw [List.map_append]
    exact (hperm'.append_left _).trans hperm

/-! ## Sizes -/

namespace Context

/-- The number of words of an element. -/
def elementSize (c : Context) (channel : Channel) : Entry → Nat
  | .pulse p =>
    if channel.isAnalog then
      2 + (if c.settings.phaseByInstruction then 1 else 0) + (if c.retunes p then 2 else 0)
    else 1
  | .frame _ => 1
  | _ => 0

/-- The number of words of an entry. -/
def size (c : Context) : Entry → Nat
  | .block b => (c.channels.flatMap fun channel => (Block.on b channel).map (c.elementSize channel)).sum
  | .flow .wait => 4
  | .flow _ => 1
  | _ => 0

end Context

theorem Optionally.length {cond : Bool} {x : Except Fault Word} {words : List Word}
    (h : Optionally cond x words) : words.length = if cond then 1 else 0 := by
  unfold Optionally at h
  split at h
  · rename_i hcond
    obtain ⟨w, _, rfl⟩ := h
    rw [if_pos hcond]
    rfl
  · rename_i hcond
    rw [h, if_neg hcond]
    rfl

namespace Context

variable {c : Context}

theorem length_element {channel : Channel} {e : Entry} {em : Emission}
    (h : c.element channel e = .ok em) : em.words.length = c.elementSize channel e := by
  rcases element_cases h with ⟨p, rfl, hp⟩ | ⟨f, w, rfl, _, rfl⟩
  · obtain ⟨r, _, _, hwords⟩ := pulse_eq_ok hp
    unfold elementSize
    split at hwords
    · rename_i hchannel
      obtain ⟨phase, tune, run, restore, hwords, hphase, htune, _, hrestore⟩ := hwords
      simp only [hwords, hchannel, if_true, List.length_append, List.length_cons, List.length_nil,
        hphase.length, htune.length, hrestore.length]
      have htwice : (if c.retunes p then 2 else 0) = 2 * (if c.retunes p then 1 else 0) := by
        split <;> rfl
      omega
    · rename_i hchannel
      simp [hwords, hchannel]
  · rfl

/-- The number of words of an element, none if it has a fault. -/
def wordCount : Except Fault Emission → Nat
  | .ok em => em.words.length
  | .error _ => 0

/-- The words of a block are as many as those of its elements. -/
theorem length_serialize {b : Block} {s : Stream} (h : c.serialize b = .ok s) :
    s.words.length = c.size (.block b) := by
  obtain ⟨⟨rounds, final⟩, hmerge, h⟩ := bind_eq_ok.1 h
  obtain rfl := pure_eq_ok.1 h
  obtain ⟨ems, hwords, hperm⟩ := merge_perm hmerge
  have hsame : (c.channels.map (c.lane b)).flatMap Lane.pending =
      c.channels.flatMap fun channel => (b.on channel).map (c.element channel) := List.flatMap_map _ _ _
  rw [hsame] at hperm
  have hcount : ∀ channel ∈ c.channels,
      ((b.on channel).map (c.element channel)).map wordCount = (b.on channel).map (c.elementSize channel) := by
    intro channel hchannel
    rw [List.map_map]
    refine List.map_congr_left fun e he => ?_
    have hmem := hperm.mem_iff.2 (List.mem_flatMap.2 ⟨channel, hchannel, List.mem_map_of_mem he⟩)
    obtain ⟨em, _, hem⟩ := List.mem_map.1 hmem
    rw [Function.comp_apply, ← length_element hem.symm, ← hem]
    rfl
  calc
    rounds.flatten.length = ((ems.map Except.ok).map wordCount).sum := by
      rw [hwords, List.length_flatMap, List.map_map]
      rfl
    _ = ((c.channels.flatMap fun channel => (b.on channel).map (c.element channel)).map wordCount).sum :=
      (hperm.map wordCount).sum_nat
    _ = c.size (.block b) := by
      rw [List.map_flatMap]
      exact congrArg (fun sizes => sizes.flatten.sum) (List.map_congr_left hcount)

/-- The number of words of an entry is its size. -/
theorem length_entryWords {prologue words : List Word} (hprologue : c.prologue = .ok prologue)
    {e : Entry} (h : c.entryWords prologue e = .ok words) : words.length = c.size e := by
  rcases entryWords_eq_ok h with ⟨b, s, rfl, hs, rfl⟩ | ⟨f, w, rfl, _, rfl⟩
  · exact length_serialize hs
  · obtain ⟨reset, tune, _, _, rfl⟩ := prologue_eq_ok hprologue
    cases f <;> rfl

/-! ## Sequences -/

/-- The words of a sequence, or why there are none. -/
def program (c : Context) (entries : List Entry) : Except Fault (List Word) := do
  let prologue ← c.prologue
  let parts ← entries.mapM (c.entryWords prologue)
  let _ ← checkRange .programLength parts.flatten.length Hardware.programCapacity 0
  return parts.flatten

theorem entry_outcome (prologue : List Word) (e : Entry) (s : Session) :
    Encoder.outcome (c.entry prologue e s) = c.entryWords prologue e := by
  cases e with
  | block b =>
    refine (Encoder.outcome_bind (Encoder.outcome_ofExcept _) (fun stream t => ?_) s).trans
      (map_eq_pure_bind _ _).symm
    rfl
  | flow f =>
    cases f
    all_goals
      refine (Encoder.outcome_bind (Encoder.outcome_ofExcept _) (fun w t => ?_) s).trans
        (map_eq_pure_bind _ _).symm
      rfl
  | pulse p => rfl
  | frame f => rfl
  | foreign t => rfl

/-- What a sequence is assembled to does not depend on the session. -/
theorem assemble_outcome (c : Context) (entries : List Entry) (s : Session) :
    Encoder.outcome (c.assemble entries s) = c.program entries := by
  refine Encoder.outcome_bind (Encoder.outcome_ofExcept _) (fun prologue t => ?_) s
  refine Encoder.outcome_bind (Encoder.outcome_mapM (entry_outcome prologue) entries) (fun _ t => ?_) t
  refine Encoder.outcome_bind (Encoder.outcome_ofExcept _) (fun _ _ => ?_) t
  rfl

theorem program_eq_ok {entries : List Entry} {words : List Word} :
    c.program entries = .ok words ↔ ∃ prologue parts, c.prologue = .ok prologue ∧
      entries.mapM (c.entryWords prologue) = .ok parts ∧
      parts.flatten.length ≤ Hardware.programCapacity ∧ words = parts.flatten := by
  constructor
  · intro h
    obtain ⟨prologue, hprologue, h⟩ := bind_eq_ok.1 h
    obtain ⟨parts, hparts, h⟩ := bind_eq_ok.1 h
    obtain ⟨_, hrange, h⟩ := bind_eq_ok.1 h
    obtain ⟨_, _, hmax⟩ := checkRange_eq_ok.1 hrange
    exact ⟨prologue, parts, hprologue, hparts, by omega, (pure_eq_ok.1 h).symm⟩
  · rintro ⟨prologue, parts, hprologue, hparts, hmax, rfl⟩
    exact bind_eq_ok.2 ⟨prologue, hprologue, bind_eq_ok.2 ⟨parts, hparts,
      bind_eq_ok.2 ⟨_, checkRange_eq_ok.2 ⟨rfl, by omega, by omega⟩, rfl⟩⟩⟩

theorem length_parts {prologue : List Word} (hprologue : c.prologue = .ok prologue)
    {entries : List Entry} {parts : List (List Word)}
    (h : entries.mapM (c.entryWords prologue) = .ok parts) :
    parts.flatten.length = (entries.map c.size).sum := by
  induction entries generalizing parts with
  | nil =>
    obtain rfl := pure_eq_ok.1 h
    rfl
  | cons e entries ih =>
    rw [List.mapM_cons] at h
    obtain ⟨words, hwords, h⟩ := bind_eq_ok.1 h
    obtain ⟨later, hlater, h⟩ := bind_eq_ok.1 h
    obtain rfl := pure_eq_ok.1 h
    rw [List.flatten_cons, List.length_append, ih hlater, length_entryWords hprologue hwords,
      List.map_cons, List.sum_cons]

theorem length_program {entries : List Entry} {words : List Word} (h : c.program entries = .ok words) :
    words.length = (entries.map c.size).sum := by
  obtain ⟨prologue, parts, hprologue, hparts, _, rfl⟩ := program_eq_ok.1 h
  exact length_parts hprologue hparts

/-- **The words of two sequences one after the other.** Neither depends on the other. -/
theorem program_append {before after : List Entry} {words : List Word}
    (h : c.program (before ++ after) = .ok words) :
    ∃ first second, c.program before = .ok first ∧ c.program after = .ok second ∧
      words = first ++ second := by
  obtain ⟨prologue, parts, hprologue, hparts, hmax, rfl⟩ := program_eq_ok.1 h
  rw [List.mapM_append] at hparts
  obtain ⟨firsts, hfirsts, hparts⟩ := bind_eq_ok.1 hparts
  obtain ⟨seconds, hseconds, hparts⟩ := bind_eq_ok.1 hparts
  obtain rfl := pure_eq_ok.1 hparts
  rw [List.flatten_append, List.length_append] at hmax
  exact ⟨firsts.flatten, seconds.flatten,
    program_eq_ok.2 ⟨prologue, firsts, hprologue, hfirsts, by omega, rfl⟩,
    program_eq_ok.2 ⟨prologue, seconds, hprologue, hseconds, by omega, rfl⟩, List.flatten_append⟩

/-- The words of an entry among those of its sequence. -/
theorem program_entry {entries : List Entry} {words : List Word} (h : c.program entries = .ok words)
    {k : Nat} {e : Entry} (he : entries[k]? = some e) :
    ∃ before part after, words = before ++ part ++ after ∧
      before.length = ((entries.take k).map c.size).sum ∧ part.length = c.size e ∧
      c.program [e] = .ok part := by
  obtain ⟨hk, rfl⟩ := List.getElem?_eq_some_iff.1 he
  rw [← List.take_append_drop k entries, List.drop_eq_getElem_cons hk] at h
  obtain ⟨before, rest, hbefore, hrest, rfl⟩ := program_append h
  change c.program ([entries[k]] ++ entries.drop (k + 1)) = .ok rest at hrest
  obtain ⟨part, after, hpart, _, rfl⟩ := program_append hrest
  refine ⟨before, part, after, (List.append_assoc _ _ _).symm, length_program hbefore, ?_, hpart⟩
  rw [length_program hpart]
  simp

/-- A sequence of entries that can each be assembled is assembled unless it is too long. -/
theorem program_of_each {entries : List Entry} (hne : entries ≠ [])
    (h : ∀ e ∈ entries, ∃ part, c.program [e] = .ok part) :
    ∃ words, c.program entries = if 2 ^ 26 < (entries.map c.size).sum then
      .error (.outOfRange .programLength (entries.map c.size).sum Hardware.programCapacity 0)
    else .ok words := by
  have hcapacity : Hardware.programCapacity = 2 ^ 26 := by decide
  obtain ⟨first, hfirst⟩ := List.exists_mem_of_ne_nil entries hne
  obtain ⟨_, hpart⟩ := h first hfirst
  obtain ⟨prologue, _, hprologue, _⟩ := program_eq_ok.1 hpart
  have heach : ∀ e ∈ entries, ∃ part, c.entryWords prologue e = .ok part := by
    intro e he
    obtain ⟨_, hpart⟩ := h e he
    obtain ⟨prologue', parts, hprologue', hparts, _⟩ := program_eq_ok.1 hpart
    obtain rfl : prologue' = prologue := Except.ok.inj (hprologue'.symm.trans hprologue)
    obtain ⟨part, _, hpart⟩ := exists_of_mapM_eq_ok hparts (List.mem_singleton_self e)
    exact ⟨part, hpart⟩
  obtain ⟨parts, hparts⟩ := mapM_of_forall heach
  have hlength := length_parts hprologue hparts
  refine ⟨parts.flatten, ?_⟩
  split
  · rename_i hlong
    have hrange : checkRange .programLength parts.flatten.length Hardware.programCapacity 0 =
        .error (.outOfRange .programLength (entries.map c.size).sum Hardware.programCapacity 0) := by
      unfold checkRange
      rw [if_neg (by omega), hlength]
    unfold program
    rw [hprologue]
    change (entries.mapM (c.entryWords prologue) >>= _) = _
    rw [hparts]
    change (checkRange _ _ _ _ >>= _) = _
    rw [hrange]
    rfl
  · exact program_eq_ok.2 ⟨prologue, parts, hprologue, hparts, by omega, rfl⟩

/-- **Where the words of each entry stand.** If a sequence is assembled, the words of an entry start
after as many words as the sizes of the entries before it add up to, are as many as its own size, and
are those it is assembled to alone; likewise for a cut of the sequence into two. If the entries of a
sequence can each be assembled, the only fault of the whole is that its size is above the capacity. -/
theorem assemble_addresses (c : Context) (entries : List Entry) (s : Session) :
    (∀ words, Encoder.outcome (c.assemble entries s) = .ok words →
      (∀ (k : Nat) (e : Entry), entries[k]? = some e → ∃ before part after,
        words = before ++ part ++ after ∧ before.length = ((entries.take k).map c.size).sum ∧
        part.length = c.size e ∧ ∀ t, Encoder.outcome (c.assemble [e] t) = .ok part) ∧
      ∀ front back, entries = front ++ back → ∃ first second, words = first ++ second ∧
        ∀ t, Encoder.outcome (c.assemble front t) = .ok first ∧
          Encoder.outcome (c.assemble back t) = .ok second) ∧
    (entries ≠ [] → (∀ e ∈ entries, ∃ part, Encoder.outcome (c.assemble [e] s) = .ok part) →
      ((∃ f, Encoder.outcome (c.assemble entries s) = .error f) ↔ 2 ^ 26 < (entries.map c.size).sum) ∧
      ∀ f, Encoder.outcome (c.assemble entries s) = .error f →
        f = .outOfRange .programLength (entries.map c.size).sum Hardware.programCapacity 0 ∧
          Quantity.programLength.text = "Number of instructions") := by
  simp only [assemble_outcome]
  constructor
  · intro words hwords
    constructor
    · intro k e he
      obtain ⟨before, part, after, heq, hbefore, hlength, hpart⟩ := program_entry hwords he
      exact ⟨before, part, after, heq, hbefore, hlength, fun _ => hpart⟩
    · rintro front back rfl
      obtain ⟨first, second, hfirst, hsecond, heq⟩ := program_append hwords
      exact ⟨first, second, heq, fun _ => ⟨hfirst, hsecond⟩⟩
  · intro hne heach
    obtain ⟨words, hprogram⟩ := program_of_each hne heach
    rw [hprogram]
    split
    · rename_i hlong
      refine ⟨⟨fun _ => hlong, fun _ => ⟨_, rfl⟩⟩, fun f hf => ⟨?_, rfl⟩⟩
      exact (Except.error.inj hf).symm
    · rename_i hshort
      refine ⟨⟨fun ⟨f, hf⟩ => ?_, fun hlong => absurd hlong hshort⟩, fun f hf => ?_⟩
      · cases hf
      · cases hf

/-- A library with a negative count, which takes the clock of a lane back. -/
def backwards : Context where
  library := Table.empty.insert 0 (.waveform ⟨0, -3, false⟩)
  channels := [.analog "q" 0.0 0]
  carrier := 1.0e7
  settings := { phaseByInstruction := true, frequencyByInstruction := true }

def backwardsBlock : Block := .ofList [(.analog "q" 0.0 0,
  [.pulse { uid := 0, label := "p", length := 1.0e-8, frequency := 2.0e7 }, .frame ⟨0.25, "Z"⟩])]

theorem assemble_addresses_backwards :
    (∃ words before part after,
      Encoder.outcome (backwards.assemble [.flow .wait, .block backwardsBlock, .flow .sync] {}) =
        .ok words ∧
      words = before ++ part ++ after ∧ before.length = 4 ∧ part.length = 6 ∧
      ∀ t, Encoder.outcome (backwards.assemble [.block backwardsBlock] t) = .ok part) ∧
    ∃ f, Encoder.outcome (backwards.assemble (List.replicate (2 ^ 26 + 1) (.flow .sync)) {}) =
        .error f ∧
      f = .outOfRange .programLength (2 ^ 26 + 1 : Nat) Hardware.programCapacity 0 := by
  constructor
  · have hrun : (Encoder.outcome (backwards.assemble
        [.flow .wait, .block backwardsBlock, .flow .sync] {})).toOption.map (fun _ => ()) = some () := by
      decide +kernel
    obtain ⟨words, hwords, _⟩ := exists_of_toOption hrun
    obtain ⟨before, part, after, heq, hbefore, hpart, halone⟩ :=
      ((assemble_addresses _ _ _).1 words hwords).1 1 (.block backwardsBlock) rfl
    refine ⟨words, before, part, after, hwords, heq, hbefore, ?_, halone⟩
    rw [hpart]
    decide +kernel
  · have hsync : (Encoder.outcome (backwards.assemble [.flow .sync] {})).toOption.map
        (fun _ => ()) = some () := by decide +kernel
    obtain ⟨part, hpart, _⟩ := exists_of_toOption hsync
    -- for any number of entries, so that the list is not built
    have hlong : ∀ n : Nat, 2 ^ 26 < n →
        ∃ f, Encoder.outcome (backwards.assemble (List.replicate n (.flow .sync)) {}) = .error f ∧
          f = .outOfRange .programLength n Hardware.programCapacity 0 := by
      intro n hn
      have hsize : ((List.replicate n (Entry.flow .sync)).map backwards.size).sum = n := by
        rw [List.map_replicate, List.sum_replicate_nat,
          show backwards.size (.flow .sync) = 1 from rfl, Nat.mul_one]
      have hne : List.replicate n (Entry.flow .sync) ≠ [] := by
        rw [ne_eq, List.replicate_eq_nil_iff]
        omega
      obtain ⟨hfails, hfault⟩ := (assemble_addresses backwards _ {}).2 hne
        fun e he => ⟨part, (List.mem_replicate.1 he).2 ▸ hpart⟩
      rw [hsize] at hfails hfault
      obtain ⟨f, hf⟩ := hfails.2 hn
      exact ⟨f, hf, (hfault f hf).1⟩
    exact hlong _ (Nat.lt_succ_self _)

end Context

end PulseSequencer
