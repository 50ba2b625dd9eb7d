import PulseSequencer.Proofs.Interleaving

/-!
# The fault of a block

A block has no stream if one of its elements fails. Lanes are merged by time, so the fault that is
reported is not that of the first failing element in the order of the channels: of the elements that fail
first on their channels it is the one whose place comes first. Places are known up to there, since they
depend on the elements before only.

* `Context.modulatorWords` — the words of the modulator that an element needs.
* `Context.Fails` — an element fails, and why; `Context.element_eq_error_iff`.
* `Context.FailsFirst` — the place of the first element that fails on its channel.
* `Context.failsFirst_of_firstFault` — the first to fail in the schedule is first among those.
* `Context.serialize_fault` — the fault of a block.
-/

namespace PulseSequencer

open Slot

/-! ## Elements that fail -/

/-- A step that is taken only on a condition is a list of one step or of none. -/
theorem optionally_eq_mapM {α : Type} {cond : Bool} {x : Except Fault Word}
    {next : List Word → Except Fault α} :
    (if cond then (do let words ← (do return [← x]); next words)
      else (do let words ← pure []; next words)) =
      (if cond then [x] else []).mapM id >>= next := by
  cases cond with
  | false => rfl
  | true => cases x <;> rfl

namespace Context

/-- The words of the modulator that an element needs, in order. -/
def modulatorWords (c : Context) (channel : Channel) : Entry → List (Except Fault Word)
  | .pulse p =>
    match c.library.find? p.uid with
    | none => []
    | some r =>
      if channel.isAnalog then
        (if c.settings.phaseByInstruction then [Modulator.setPhase c.nco p.phase] else []) ++
          ((if c.retunes p then [Modulator.setFrequency c.nco (c.carrier + p.frequency)] else []) ++
            (Modulator.modulate c.nco r.count ::
              if c.retunes p then [Modulator.setFrequency c.nco c.carrier] else []))
      else []
  | .frame f => [Modulator.updateFrame c.nco f.angle]
  | _ => []

/-- An element fails: it is neither a pulse nor a frame change, it is a pulse without a record, or a word
of the modulator cannot be made. Of several such words the first counts. -/
inductive Fails (c : Context) (channel : Channel) : Entry → Fault → Prop where
  | unsupported {e : Entry} (hpulse : ∀ p, e ≠ .pulse p) (hframe : ∀ f, e ≠ .frame f) :
    Fails c channel e (.unsupported (.element e channel.label))
  | absent {p : Pulse} (h : c.library.find? p.uid = none) : Fails c channel (.pulse p) (.notEncoded p)
  | word {e : Entry} {x : Except Fault Word} {f : Fault}
    (h : FirstFault id (c.modulatorWords channel e) x f) : Fails c channel e f

variable {c : Context} {b : Block} {channel : Channel}

/-- A pulse with a record fails as its words of the modulator do. -/
theorem pulse_eq_error_iff {p : Pulse} {r : Record} {f : Fault} (hr : c.library.find? p.uid = some r) :
    c.pulse channel p = .error f ↔ (c.modulatorWords channel (.pulse p)).mapM id = .error f := by
  unfold pulse modulatorWords
  rw [Library.record_eq_ok.2 hr]
  simp only [hr]
  change (if channel.isAnalog = true then _ else _) = _ ↔ _
  cases channel.isAnalog with
  | false =>
    simp only [Bool.false_eq_true, if_false]
    constructor <;> intro h <;> cases h
  | true =>
    -- both fail where the same steps do, in the same order
    simp only [if_true, optionally_eq_mapM, List.mapM_append, List.mapM_cons, id_eq, bind_eq_error,
      pure_ne_error, and_false, exists_false, or_false]

theorem pulse_of_absent {p : Pulse} (h : c.library.find? p.uid = none) :
    c.pulse channel p = .error (.notEncoded p) := by
  have hr : c.library.record p = .error (.notEncoded p) := by simp [Library.record, h]
  rw [pulse, hr]
  rfl

/-- **When an element has no words, and why.** -/
theorem element_eq_error_iff {e : Entry} {f : Fault} :
    c.element channel e = .error f ↔ c.Fails channel e f := by
  constructor
  · intro h
    cases e with
    | pulse p =>
      cases hr : c.library.find? p.uid with
      | none =>
        obtain rfl : .notEncoded p = f := Except.error.inj ((pulse_of_absent hr).symm.trans h)
        exact .absent hr
      | some r =>
        obtain ⟨x, hx⟩ := mapM_eq_error_iff.1 ((pulse_eq_error_iff hr).1 h)
        exact .word hx
    | frame g =>
      rcases bind_eq_error.1 h with hw | ⟨_, _, h⟩
      · exact .word ⟨[], [], rfl, (fun _ hx => by cases hx), hw⟩
      · cases h
    | flow _ => cases h; exact .unsupported nofun nofun
    | block _ => cases h; exact .unsupported nofun nofun
    | foreign _ => cases h; exact .unsupported nofun nofun
  · intro h
    cases h with
    | unsupported hpulse hframe =>
      cases e with
      | pulse p => exact absurd rfl (hpulse p)
      | frame g => exact absurd rfl (hframe g)
      | _ => rfl
    | absent hr => exact pulse_of_absent hr
    | word hx =>
      have hwords := mapM_eq_error_iff.2 ⟨_, hx⟩
      cases e with
      | pulse p =>
        cases hr : c.library.find? p.uid with
        | none => simp [modulatorWords, hr, pure, Except.pure] at hwords
        | some r => exact (pulse_eq_error_iff hr).2 hwords
      | frame g =>
        rcases bind_eq_error.1 hwords with hw | ⟨_, _, h⟩
        · exact bind_eq_error.2 (Or.inl hw)
        · cases h
      | _ => cases hwords

/-! ## Places -/

/-- The first element that fails on its channel, at its place, and how it fails. The place is that at
which the elements before it end. -/
structure FailsFirst (c : Context) (b : Block) (s : Slot Occurrence) (f : Fault) : Prop where
  channel : c.channels[s.position]? = some s.item.channel
  entry : (b.on s.item.channel)[s.item.index]? = some s.item.entry
  fails : c.Fails s.item.channel s.item.entry f
  earlier : ∀ e ∈ (b.on s.item.channel).take s.item.index, ∀ g, ¬ c.Fails s.item.channel e g
  start : s.start = startOf (((b.on s.item.channel).take s.item.index).map c.duration) s.item.index
  ordinal : s.ordinal = ordinalOf (((b.on s.item.channel).take s.item.index).map c.duration) s.item.index

theorem FailsFirst.mem_schedule {s : Slot Occurrence} {f : Fault} (h : c.FailsFirst b s f) :
    s ∈ c.schedule b := by
  have hstart := h.start
  have hordinal := h.ordinal
  rw [List.map_take, startOf_take (Nat.le_refl _)] at hstart
  rw [List.map_take, ordinalOf_take] at hordinal
  refine mem_schedule_iff.2 ⟨h.channel, h.entry, ?_⟩
  unfold slotAt
  rw [← hstart, ← hordinal]

theorem getElem?_channelSlots {s : Slot Occurrence} (hs : s ∈ c.schedule b) :
    (c.channelSlots b s.item.channel s.position)[s.item.index]? = some s := by
  obtain ⟨_, hentry, hplace⟩ := mem_schedule_iff.1 hs
  rw [channelSlots_eq, List.getElem?_mapIdx, hentry]
  exact congrArg some hplace.symm

/-- Earlier elements of a channel have earlier places. -/
theorem before_of_index_lt (hcount : c.Counted b) {s s' : Slot Occurrence} (hs : s ∈ c.schedule b)
    (hs' : s' ∈ c.schedule b) (hposition : s.position = s'.position)
    (hindex : s.item.index < s'.item.index) : Before s s' := by
  have hchannel := (mem_schedule_iff.1 hs).1
  have hchannel' := (mem_schedule_iff.1 hs').1
  rw [hposition] at hchannel
  have hget := getElem?_channelSlots hs
  rw [Option.some.inj (hchannel.symm.trans hchannel'), hposition] at hget
  obtain ⟨hi, hgeti⟩ := List.getElem?_eq_some_iff.1 hget
  obtain ⟨hj, hgetj⟩ := List.getElem?_eq_some_iff.1 (getElem?_channelSlots hs')
  have hpairwise := channelSlots_pairwise hcount (List.mem_of_getElem? hchannel') s'.position
  have hbefore := List.pairwise_iff_getElem.1 hpairwise _ _ hi hj hindex
  rwa [hgeti, hgetj] at hbefore

/-! ## The fault that is reported -/

/-- The first element of the schedule to fail is the first on its channel, and comes before all that are
first on theirs. -/
theorem failsFirst_of_firstFault (hcount : c.Counted b) {s : Slot Occurrence} {f : Fault}
    (h : FirstFault (fun x => c.emission x.item) (c.schedule b) s f) :
    c.FailsFirst b s f ∧ ∀ s' f', c.FailsFirst b s' f' → s' = s ∨ Before s s' := by
  have hfirst : ∀ x ∈ c.schedule b, ∀ g, c.Fails x.item.channel x.item.entry g → x = s ∨ Before s x :=
    fun x hx g hg => h.eq_or_rel (schedule_pairwise hcount) hx (element_eq_error_iff.2 hg)
  obtain ⟨hchannel, hentry, hplace⟩ := mem_schedule_iff.1 h.mem
  refine ⟨⟨hchannel, hentry, element_eq_error_iff.1 h.fails, ?_, ?_, ?_⟩,
    fun s' f' h' => hfirst s' h'.mem_schedule f' h'.fails⟩
  · intro e he g hfails
    obtain ⟨i, hi⟩ := List.mem_iff_getElem?.1 he
    obtain ⟨hlt, hi⟩ : i < s.item.index ∧ (b.on s.item.channel)[i]? = some e := by
      simpa [List.getElem?_take] using hi
    have hx : c.slotAt b s.position ⟨s.item.channel, i, e⟩ ∈ c.schedule b :=
      mem_schedule_iff.2 ⟨hchannel, hi, rfl⟩
    -- an earlier element has an earlier place, so it cannot fail
    have hbefore := before_of_index_lt hcount hx h.mem rfl hlt
    rcases hfirst _ hx g hfails with hsame | hafter
    · exact hbefore.asymm (hsame ▸ hbefore)
    · exact hbefore.asymm hafter
  · rw [List.map_take, startOf_take (Nat.le_refl _)]
    exact congrArg Slot.start hplace
  · rw [List.map_take, ordinalOf_take]
    exact congrArg Slot.ordinal hplace

/-- A block has the fault of the first element of its schedule to fail. -/
theorem serialize_eq_error_iff (hcount : c.Counted b) {f : Fault} :
    c.serialize b = .error f ↔ ∃ s, FirstFault (fun x => c.emission x.item) (c.schedule b) s f := by
  rw [← mapM_eq_error_iff, ← map_eq_error (f := fun s : Stream => s.words), serialize_words hcount,
    map_eq_error]

/-- A block has a fault if and only if one of its elements has. -/
theorem exists_serialize_eq_error_iff (hcount : c.Counted b) :
    (∃ f, c.serialize b = .error f) ↔
      ∃ channel ∈ c.channels, ∃ e ∈ b.on channel, ∃ f, c.Fails channel e f := by
  constructor
  · rintro ⟨f, h⟩
    obtain ⟨s, hs⟩ := (serialize_eq_error_iff hcount).1 h
    obtain ⟨hfirst, _⟩ := failsFirst_of_firstFault hcount hs
    exact ⟨_, List.mem_of_getElem? hfirst.channel, _, List.mem_of_getElem? hfirst.entry, f, hfirst.fails⟩
  · rintro ⟨channel, hchannel, e, he, f, hf⟩
    cases h : c.serialize b with
    | error g => exact ⟨g, rfl⟩
    | ok stream =>
      obtain ⟨emissions, _, _, hall⟩ := serialize_emissions hcount h
      obtain ⟨em, _, hem⟩ := hall channel hchannel e he
      cases hem.symm.trans (element_eq_error_iff.2 hf)

/-- **The fault of a block.** A block has no stream if and only if an element on one of its channels
fails. The fault is that of the failing element with the first place among the elements that fail first
on their channels. -/
theorem serialize_fault (hcount : c.Counted b) :
    ((∃ f, c.serialize b = .error f) ↔
      ∃ channel ∈ c.channels, ∃ e ∈ b.on channel, ∃ f, c.Fails channel e f) ∧
    ∀ f, c.serialize b = .error f ↔
      ∃ s, c.FailsFirst b s f ∧ ∀ s' f', c.FailsFirst b s' f' → s' = s ∨ Before s s' := by
  refine ⟨exists_serialize_eq_error_iff hcount, fun f => ⟨fun h => ?_, ?_⟩⟩
  · obtain ⟨s, hs⟩ := (serialize_eq_error_iff hcount).1 h
    exact ⟨s, failsFirst_of_firstFault hcount hs⟩
  · rintro ⟨s, hs, hfirst⟩
    obtain ⟨g, hg⟩ := (exists_serialize_eq_error_iff hcount).2
      ⟨_, List.mem_of_getElem? hs.channel, _, List.mem_of_getElem? hs.entry, f, hs.fails⟩
    obtain ⟨x, hx⟩ := (serialize_eq_error_iff hcount).1 hg
    obtain ⟨hxs, hxfirst⟩ := failsFirst_of_firstFault hcount hx
    -- two elements that are both first are the same
    obtain rfl : x = s := by
      rcases hfirst x g hxs with h | h
      · exact h
      · rcases hxfirst s f hs with h' | h'
        · exact h'.symm
        · exact absurd h' h.asymm
    have hsame := (element_eq_error_iff.2 hs.fails).symm.trans (element_eq_error_iff.2 hxs.fails)
    rw [hg, Except.error.inj hsame]

/-- Two channels with something foreign after a pulse. The pulse on the second is the shorter one. -/
def foreignBlock : Block := .ofList
  [(.analog "q" 0.0 0, [.pulse { uid := 0, label := "a", length := 0.0 }, .foreign "late"]),
    (.marker "m", [.pulse { uid := 1, label := "b", length := 0.0 }, .foreign "early"])]

theorem serialize_fault_foreign :
    twoLanes.Counted foreignBlock ∧
      twoLanes.Fails (.analog "q" 0.0 0) (.foreign "late")
        (.unsupported (.element (.foreign "late") "q")) ∧
      twoLanes.serialize foreignBlock = .error (.unsupported (.element (.foreign "early") "m")) ∧
      ∃ s, twoLanes.FailsFirst foreignBlock s (.unsupported (.element (.foreign "early") "m")) ∧
        ∀ s' f', twoLanes.FailsFirst foreignBlock s' f' → s' = s ∨ Before s s' := by
  have hrun : (match twoLanes.serialize foreignBlock with
      | .error (.unsupported (.element (.foreign text) label)) => some (text, label)
      | _ => none) = some ("early", "m") := by decide +kernel
  split at hrun
  · rename_i h
    cases hrun
    exact ⟨twoLanes_counted _, .unsupported nofun nofun, h,
      ((serialize_fault (twoLanes_counted _)).2 _).1 h⟩
  · cases hrun

end Context

end PulseSequencer
