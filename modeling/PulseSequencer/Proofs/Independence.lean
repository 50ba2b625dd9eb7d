import Mathlib.Data.List.Flatten
import PulseSequencer.Proofs.Decoding
import PulseSequencer.Proofs.Interleaving
import PulseSequencer.Proofs.PulseMap

/-!
# Channels do not disturb each other

A lane that is behind holds the others back, but does not change the order in which they go on. So what
some of the channels emit, and in which order, is the same whether or not the other channels are there.
What the others emit is another matter: a frame change turns the frame of the analog pair, also if it is
listed on a channel that has no modulator.

* `Lane.step` — what one lane does in a round; `round_cons` — a round, lane after lane.
* `round_marked` — a round of some of the lanes is part of the round of all.
* `merge_of_round` — a round that no lane is behind of changes nothing but what it emits.
* `merge_marked` — a merge of some of the lanes is part of the merge of all.
* `Context.serialize_only` — the same for the channels of a block.
* `Context.serialize_undisturbed` — what reaches the analog pair is what its channels emit, and frame
  changes of other channels.
* `Context.serialize_strayFrame` — a frame change on a marker channel reaches the analog pair.
-/

namespace PulseSequencer

/-! ## One lane in a round -/

/-- What a lane emits in a round at `t`, and what is left of it. -/
def Lane.step (t : Int) : Lane → Except Fault (List Emission × Lane)
  | ⟨clock, []⟩ => .ok ([], ⟨clock, []⟩)
  | ⟨clock, e :: es⟩ =>
    if t < clock then .ok ([], ⟨clock, e :: es⟩)
    else e.map fun em => ([em], ⟨clock + em.duration, es⟩)

theorem round_cons (t : Int) (l : Lane) (lanes : List Lane) :
    round t (l :: lanes) = l.step t >>= fun x => (round t lanes).map fun r =>
      (x.1.flatMap Emission.words ++ r.1, x.2 :: r.2) := by
  obtain ⟨clock, pending⟩ := l
  cases pending with
  | nil => rw [round]; cases round t lanes <;> rfl
  | cons e es =>
    rw [round, Lane.step]
    split
    · cases round t lanes <;> rfl
    · cases e with
      | error f => rfl
      | ok em =>
        cases hr : round t lanes with
        | error f => rfl
        | ok r => simp [bind, Except.bind, Except.map, pure, Except.pure]

/-- A lane emits the first of its elements or none. -/
theorem Lane.step_pending {t : Int} {l l' : Lane} {ems : List Emission}
    (h : l.step t = .ok (ems, l')) : l.pending = ems.map Except.ok ++ l'.pending := by
  obtain ⟨clock, pending⟩ := l
  cases pending with
  | nil =>
    obtain ⟨rfl, rfl⟩ := Prod.mk.inj (Except.ok.inj h)
    rfl
  | cons e es =>
    rw [Lane.step] at h
    split at h
    · obtain ⟨rfl, rfl⟩ := Prod.mk.inj (Except.ok.inj h)
      rfl
    · obtain ⟨em, rfl, heq⟩ := map_eq_ok.1 h
      obtain ⟨rfl, rfl⟩ := Prod.mk.inj heq
      rfl

/-- A lane that is ahead or has nothing to come stays as it is. -/
theorem Lane.step_of_ahead {t : Int} {l : Lane} (h : l.pending ≠ [] → t < l.clock) :
    l.step t = .ok ([], l) := by
  obtain ⟨clock, pending⟩ := l
  cases pending with
  | nil => rfl
  | cons e es => exact if_pos (h (List.cons_ne_nil _ _))

theorem round_of_ahead {t : Int} {lanes : List Lane}
    (h : ∀ l ∈ lanes, l.pending ≠ [] → t < l.clock) : round t lanes = .ok ([], lanes) := by
  induction lanes with
  | nil => rfl
  | cons l lanes ih =>
    rw [round_cons, Lane.step_of_ahead (h l List.mem_cons_self),
      ih fun x hx => h x (List.mem_cons_of_mem _ hx)]
    rfl

/-! ## Some of the lanes -/

section

variable {κ : Type}

/-- The elements to come on lanes, each with the mark of its lane. -/
def markedPending (xs : List (κ × Lane)) : List (κ × Except Fault Emission) :=
  xs.flatMap fun x => x.2.pending.map (x.1, ·)

/-- Marked emissions as elements that have their results. -/
def markedResults (ems : List (κ × Emission)) : List (κ × Except Fault Emission) :=
  ems.map fun x => (x.1, .ok x.2)

/-- The marked lanes that are kept, without their marks. -/
def keptLanes (keep : κ → Bool) (xs : List (κ × Lane)) : List Lane :=
  (xs.filter fun x => keep x.1).map Prod.snd

/-- The words of the marked emissions that are kept. -/
def keptWords (keep : κ → Bool) (ems : List (κ × Emission)) : List Word :=
  (ems.filter fun x => keep x.1).flatMap (·.2.words)

/-- **A round of some of the lanes is part of the round of all.** -/
theorem round_marked {t : Int} {xs : List (κ × Lane)} {words : List Word} {rest : List Lane}
    (h : round t (xs.map Prod.snd) = .ok (words, rest)) :
    ∃ (ems : List (κ × Emission)) (ys : List (κ × Lane)), words = ems.flatMap (·.2.words) ∧
      rest = ys.map Prod.snd ∧
      (markedResults ems ++ markedPending ys).Perm (markedPending xs) ∧
      ∀ keep, round t (keptLanes keep xs) = .ok (keptWords keep ems, keptLanes keep ys) := by
  induction xs generalizing words rest with
  | nil =>
    obtain ⟨rfl, rfl⟩ := Prod.mk.inj (Except.ok.inj h)
    exact ⟨[], [], rfl, rfl, List.Perm.refl _, fun _ => rfl⟩
  | cons x xs ih =>
    obtain ⟨k, l⟩ := x
    rw [List.map_cons, round_cons] at h
    obtain ⟨⟨now, l'⟩, hstep, h⟩ := bind_eq_ok.1 h
    obtain ⟨⟨later, lanes⟩, hround, heq⟩ := map_eq_ok.1 h
    obtain ⟨rfl, rfl⟩ := Prod.mk.inj heq
    obtain ⟨ems, ys, rfl, rfl, hperm, hkeep⟩ := ih hround
    refine ⟨now.map (k, ·) ++ ems, (k, l') :: ys, ?_, rfl, ?_, fun keep => ?_⟩
    · rw [List.flatMap_append, List.flatMap_map]
    · have hl : l.pending.map (k, ·) =
          now.map (fun em => (k, Except.ok em)) ++ l'.pending.map (k, ·) := by
        rw [Lane.step_pending hstep, List.map_append, List.map_map]
        rfl
      simp only [markedPending, markedResults, List.flatMap_cons, hl, List.map_append, List.map_map,
        List.append_assoc]
      exact ((List.perm_append_comm_assoc _ _ _).trans (hperm.append_left _)).append_left _
    · -- a lane that is kept makes its step in both rounds
      have hrest := hkeep keep
      unfold keptLanes keptWords at hrest ⊢
      cases hk : keep k with
      | false => simpa [hk, List.filter_map, Function.comp_def] using hrest
      | true =>
        simp only [List.filter_cons, hk, if_true, List.map_cons, round_cons, hstep, hrest,
          List.filter_append, List.filter_map, Function.comp_def, List.flatMap_append]
        simp [bind, Except.bind, Except.map, List.flatMap_map]

theorem nextStart_eq_some {lanes : List Lane} {t : Int}
    (hle : ∀ l ∈ lanes, l.pending ≠ [] → t ≤ l.clock)
    (hex : ∃ l ∈ lanes, l.pending ≠ [] ∧ l.clock ≤ t) : nextStart lanes = some t := by
  refine List.min?_eq_some_iff.2 ⟨?_, ?_⟩
  · obtain ⟨l, hl, hp, hc⟩ := hex
    have hclock : l.clock = t := Int.le_antisymm hc (hle l hl hp)
    exact List.mem_map.2 ⟨l, List.mem_filter.2 ⟨hl, by simpa using hp⟩, hclock⟩
  · intro clock hclock
    obtain ⟨l, hl, rfl⟩ := List.mem_map.1 hclock
    obtain ⟨hl, hp⟩ := List.mem_filter.1 hl
    exact hle l hl (by simpa using hp)

/-- A round at a time that no pending lane is behind of is the next one, or does nothing. -/
theorem merge_of_round {t : Int} {lanes rest : List Lane} {words : List Word}
    {r : List (List Word) × List Lane} (hle : ∀ l ∈ lanes, l.pending ≠ [] → t ≤ l.clock)
    (hround : round t lanes = .ok (words, rest)) (hmerge : merge rest = .ok r) :
    ∃ r', merge lanes = .ok r' ∧ r'.1.flatten = words ++ r.1.flatten := by
  by_cases hex : ∃ l ∈ lanes, l.pending ≠ [] ∧ l.clock ≤ t
  · refine ⟨(words :: r.1, r.2), ?_, List.flatten_cons⟩
    rw [merge_of_nextStart_some (nextStart_eq_some hle hex)]
    refine bind_eq_ok.2 ⟨(words, rest), hround, map_eq_ok.2 ⟨r, hmerge, rfl⟩⟩
  · have hahead : ∀ l ∈ lanes, l.pending ≠ [] → t < l.clock := by
      intro l hl hp
      exact Int.not_le.1 fun hc => hex ⟨l, hl, hp, hc⟩
    rw [round_of_ahead hahead] at hround
    obtain ⟨rfl, rfl⟩ := Prod.mk.inj (Except.ok.inj hround)
    exact ⟨r, hmerge, rfl⟩

theorem mem_of_mem_keptLanes {keep : κ → Bool} {xs : List (κ × Lane)} {l : Lane}
    (h : l ∈ keptLanes keep xs) : l ∈ xs.map Prod.snd := by
  obtain ⟨x, hx, rfl⟩ := List.mem_map.1 h
  exact List.mem_map_of_mem (List.mem_filter.1 hx).1

/-- **A merge of some of the lanes is part of the merge of all.** The same emissions make up both, in
the same order, whatever the clocks say. -/
theorem merge_marked {xs : List (κ × Lane)} {rounds : List (List Word)} {final : List Lane}
    (h : merge (xs.map Prod.snd) = .ok (rounds, final)) :
    ∃ ems : List (κ × Emission), rounds.flatten = ems.flatMap (·.2.words) ∧
      (markedResults ems).Perm (markedPending xs) ∧
      ∀ keep, ∃ r, merge (keptLanes keep xs) = .ok r ∧ r.1.flatten = keptWords keep ems := by
  generalize hlanes : xs.map Prod.snd = lanes at h
  fun_induction merge lanes generalizing xs rounds final with
  | case1 lanes hs =>
    subst hlanes
    obtain ⟨rfl, rfl⟩ := Prod.mk.inj (Except.ok.inj h)
    have hnone : ∀ l ∈ xs.map Prod.snd, l.pending = [] :=
      List.flatMap_eq_nil_iff.1 (pending_eq_nil_of_nextStart hs)
    refine ⟨[], rfl, ?_, fun keep => ⟨([], keptLanes keep xs), merge_of_nextStart_none ?_, rfl⟩⟩
    · have hnil : markedPending xs = [] := List.flatMap_eq_nil_iff.2 fun x hx => by
        rw [hnone x.2 (List.mem_map_of_mem hx), List.map_nil]
      rw [hnil]
      exact List.Perm.refl _
    · rw [nextStart, List.min?_eq_none_iff, List.map_eq_nil_iff, List.filter_eq_nil_iff]
      intro l hl
      simp [hnone l (mem_of_mem_keptLanes hl)]
  | case2 lanes t hs f hr => cases h
  | case3 lanes t hs words rest hr _ ih =>
    subst hlanes
    obtain ⟨⟨later, last⟩, hrest, h⟩ := bind_eq_ok.1 h
    obtain ⟨rfl, rfl⟩ := Prod.mk.inj (pure_eq_ok.1 h)
    obtain ⟨ems, ys, rfl, rfl, hperm, hkeep⟩ := round_marked hr
    obtain ⟨ems', hwords, hperm', hkeep'⟩ := ih rfl hrest
    refine ⟨ems ++ ems', ?_, ?_, fun keep => ?_⟩
    · rw [List.flatten_cons, hwords, List.flatMap_append]
    · rw [markedResults, List.map_append]
      exact (hperm'.append_left _).trans hperm
    · obtain ⟨r, hmerge, hr⟩ := hkeep' keep
      have hle : ∀ l ∈ keptLanes keep xs, l.pending ≠ [] → t ≤ l.clock := fun l hl =>
        le_clock_of_nextStart hs l (mem_of_mem_keptLanes hl)
      obtain ⟨r', hmerge', hr'⟩ := merge_of_round hle (hkeep keep) hmerge
      refine ⟨r', hmerge', ?_⟩
      rw [hr', hr, keptWords, keptWords, keptWords, List.filter_append, List.flatMap_append]

end

/-! ## Some of the channels -/

/-- The frame change of an entry that is one. -/
def Entry.frame? : Entry → Option Frame
  | .frame f => some f
  | _ => none

namespace Context

variable {c : Context} {b : Block}

/-- The same with some of the channels only. -/
def only (c : Context) (keep : Channel → Bool) : Context :=
  { c with channels := c.channels.filter keep }

/-- What the elements of a block become, each with its channel. -/
def results (c : Context) (b : Block) : List (Channel × Except Fault Emission) :=
  c.channels.flatMap fun channel => (b.on channel).map fun e => (channel, c.element channel e)

/-- **Channels do not disturb each other.** The stream of some of the channels is what they emit among
all of them. -/
theorem serialize_only {s : Stream} (h : c.serialize b = .ok s) :
    ∃ ems : List (Channel × Emission), s.words = ems.flatMap (·.2.words) ∧
      (markedResults ems).Perm (c.results b) ∧
      ∀ keep, ∃ s', (c.only keep).serialize b = .ok s' ∧ s'.words = keptWords keep ems := by
  obtain ⟨⟨rounds, final⟩, hmerge, h⟩ := bind_eq_ok.1 h
  obtain rfl := pure_eq_ok.1 h
  have hlanes : c.channels.map (c.lane b) =
      (c.channels.map fun channel => (channel, c.lane b channel)).map Prod.snd := by
    rw [List.map_map]
    rfl
  rw [hlanes] at hmerge
  obtain ⟨ems, hwords, hperm, hkeep⟩ := merge_marked hmerge
  refine ⟨ems, hwords, ?_, fun keep => ?_⟩
  · have hresults : markedPending (c.channels.map fun channel => (channel, c.lane b channel)) =
        c.results b := by
      simp only [markedPending, results, List.flatMap_map, lane, List.map_map]
      rfl
    exact hresults ▸ hperm
  · obtain ⟨r, hmerge, hr⟩ := hkeep keep
    have hkept : keptLanes keep (c.channels.map fun channel => (channel, c.lane b channel)) =
        (c.only keep).channels.map ((c.only keep).lane b) := by
      rw [keptLanes, List.filter_map, List.map_map]
      rfl
    rw [hkept] at hmerge
    exact ⟨⟨r.1.flatten, r.2.map (·.clock)⟩, bind_eq_ok.2 ⟨r, hmerge, rfl⟩, hr⟩

end Context

/-! ## The analog pair -/

/-- A word reaches the analog pair: it plays a waveform or lets the modulator act. -/
def Word.reachesPair (w : Word) : Bool :=
  decide (opcode? w = some .waveform ∨ opcode? w = some .modulator)

theorem Word.reachesPair_of_modulator {op : ModulationOp} {nco : Int} {x : Except Fault Int} {w : Word}
    (h : (do Word.modulation op nco (← x)) = .ok w) : reachesPair w = true :=
  decide_eq_true (Or.inr (opcode?_eq_some.2 (Modulator.opcode_word h)))

theorem Waveform.reachesPair_word (w : Waveform) : Word.reachesPair w.word = true :=
  decide_eq_true (Or.inl (Word.opcode?_eq_some.2 w.opcode_word))

theorem Marker.reachesPair_word (m : Marker) : Word.reachesPair m.word = false := by
  unfold Word.reachesPair
  rw [Word.opcode?_eq_some.2 m.opcode_word]
  decide

namespace Context

variable {c : Context} {b : Block}

/-- The records that a block needs are of the kind of its channels: waveforms on analog channels, markers
on all others. -/
def Matched (c : Context) (b : Block) : Prop :=
  ∀ channel ∈ c.channels, ∀ p, Entry.pulse p ∈ b.on channel →
    if channel.isAnalog then ∃ w, c.library.find? p.uid = some (.waveform w)
    else ∃ m, c.library.find? p.uid = some (.marker m)

/-- The frame changes of a block on channels that are not analog. -/
def strayFrames (c : Context) (b : Block) : List Frame :=
  (c.channels.filter (!·.isAnalog)).flatMap fun channel => (b.on channel).filterMap Entry.frame?

/-- All words of an analog channel reach the analog pair. -/
theorem Matched.reachesPair (hmatch : c.Matched b) {channel : Channel} (hc : channel ∈ c.channels)
    (hkind : channel.isAnalog = true) {e : Entry} (he : e ∈ b.on channel) {em : Emission}
    (hem : c.element channel e = .ok em) : ∀ w ∈ em.words, Word.reachesPair w = true := by
  rcases element_cases hem with ⟨p, rfl, hp⟩ | ⟨f, w, rfl, hw, rfl⟩
  · obtain ⟨r, hr, _, hwords⟩ := pulse_eq_ok hp
    have hrecord := hmatch channel hc p he
    rw [if_pos hkind] at hwords hrecord
    obtain ⟨wave, hwave⟩ := hrecord
    obtain rfl : r = .waveform wave :=
      Option.some.inj ((Library.record_eq_ok.1 hr).symm.trans hwave)
    obtain ⟨phase, tune, run, restore, hwords, hphase, htune, hrun, hrestore⟩ := hwords
    intro w hw
    simp only [hwords, List.mem_append, List.mem_cons, List.not_mem_nil, or_false] at hw
    rcases hw with ((hw | hw) | rfl | rfl) | hw
    · exact hphase.forall_mem (fun _ => Word.reachesPair_of_modulator) w hw
    · exact htune.forall_mem (fun _ => Word.reachesPair_of_modulator) w hw
    · exact Word.reachesPair_of_modulator (x := pure wave.count) hrun
    · exact wave.reachesPair_word
    · exact hrestore.forall_mem (fun _ => Word.reachesPair_of_modulator) w hw
  · intro w' hw'
    obtain rfl := List.mem_singleton.1 hw'
    exact Word.reachesPair_of_modulator hw

/-- Of any other channel, only the words of frame changes reach the analog pair. -/
theorem Matched.filter_words (hmatch : c.Matched b) {channel : Channel} (hc : channel ∈ c.channels)
    (hkind : channel.isAnalog = false) {e : Entry} (he : e ∈ b.on channel) {em : Emission}
    (hem : c.element channel e = .ok em) :
    (e.frame? = none ∧ em.words.filter Word.reachesPair = []) ∨
      ∃ f w, e.frame? = some f ∧ Modulator.updateFrame c.nco f.angle = .ok w ∧
        em.words.filter Word.reachesPair = [w] := by
  rcases element_cases hem with ⟨p, rfl, hp⟩ | ⟨f, w, rfl, hw, rfl⟩
  · obtain ⟨r, hr, _, hwords⟩ := pulse_eq_ok hp
    have hrecord := hmatch channel hc p he
    rw [hkind, if_neg Bool.false_ne_true] at hwords hrecord
    obtain ⟨m, hm⟩ := hrecord
    obtain rfl : r = .marker m := Option.some.inj ((Library.record_eq_ok.1 hr).symm.trans hm)
    refine Or.inl ⟨rfl, ?_⟩
    rw [hwords]
    exact List.filter_cons_of_neg (by rw [Record.word, m.reachesPair_word]; decide)
  · refine Or.inr ⟨f, w, rfl, hw, ?_⟩
    exact List.filter_cons_of_pos (Word.reachesPair_of_modulator hw)

/-- The words of an element that reach the analog pair, none if it has a fault. -/
def reached (x : Channel × Except Fault Emission) : List Word :=
  x.2.toOption.toList.flatMap fun em => em.words.filter Word.reachesPair

theorem reached_ok (channel : Channel) (em : Emission) :
    reached (channel, .ok em) = em.words.filter Word.reachesPair :=
  List.append_nil _

theorem flatMap_reached (ems : List (Channel × Emission)) :
    (markedResults ems).flatMap reached = (ems.flatMap (·.2.words)).filter Word.reachesPair := by
  rw [markedResults, List.flatMap_map, List.filter_flatMap]
  exact List.flatMap_congr fun x _ => reached_ok x.1 x.2

/-- The words of the frame change of an entry, none if it is no frame change or has a fault. -/
def frameWords (c : Context) (e : Entry) : List Word :=
  e.frame?.toList.flatMap fun f => (Modulator.updateFrame c.nco f.angle).toOption.toList

/-- Of an element of a channel that is not analog, its frame change reaches the analog pair. -/
theorem Matched.reached_eq (hmatch : c.Matched b) {channel : Channel} (hc : channel ∈ c.channels)
    (hkind : channel.isAnalog = false) {e : Entry} (he : e ∈ b.on channel) {em : Emission}
    (hem : c.element channel e = .ok em) : reached (channel, .ok em) = c.frameWords e := by
  rw [reached_ok, frameWords]
  rcases hmatch.filter_words hc hkind he hem with ⟨hf, hnil⟩ | ⟨f, w, hf, hw, hone⟩
  · rw [hnil, hf]
    rfl
  · rw [hone, hf, Option.toList_some, List.flatMap_singleton, hw]
    rfl

/-- What a word for each frame change comes to, in the order of the frame changes. -/
theorem eq_flatMap_of_mapM {α : Type} {f : α → Except Fault Word} {as : List α} {words : List Word}
    (h : as.mapM f = .ok words) : words = as.flatMap fun a => (f a).toOption.toList := by
  induction as generalizing words with
  | nil => exact (pure_eq_ok.1 h).symm
  | cons a as ih =>
    rw [List.mapM_cons] at h
    obtain ⟨w, hw, h⟩ := bind_eq_ok.1 h
    obtain ⟨later, hlater, h⟩ := bind_eq_ok.1 h
    obtain rfl := pure_eq_ok.1 h
    rw [List.flatMap_cons, hw, ← ih hlater]
    rfl

theorem flatMap_filter_eq {α β : Type} (k : α → Bool) (f : α → List β) (xs : List α) :
    (xs.filter k).flatMap f = xs.flatMap fun x => if k x then f x else [] := by
  induction xs with
  | nil => rfl
  | cons x xs ih => cases hx : k x <;> simp [hx, ih]

/-- Of the channels that are not analog, the stray frame changes reach the analog pair. -/
theorem Matched.reached_others (hmatch : c.Matched b)
    (hall : ∀ channel ∈ c.channels, ∀ e ∈ b.on channel, ∃ em, c.element channel e = .ok em) :
    ((c.results b).filter (!·.1.isAnalog)).flatMap reached =
      (c.strayFrames b).flatMap fun f => (Modulator.updateFrame c.nco f.angle).toOption.toList := by
  rw [flatMap_filter_eq, results, strayFrames, List.flatMap_assoc, List.flatMap_assoc,
    flatMap_filter_eq]
  refine List.flatMap_congr fun channel hc => ?_
  rw [List.flatMap_map, List.filterMap_eq_flatMap_toList, List.flatMap_assoc]
  cases hkind : channel.isAnalog with
  | true =>
    simp only [hkind]
    exact List.flatMap_eq_nil_iff.2 fun _ _ => rfl
  | false =>
    simp only [hkind]
    refine List.flatMap_congr fun e he => ?_
    obtain ⟨em, hem⟩ := hall channel hc e he
    rw [hem]
    exact hmatch.reached_eq hc hkind he hem

/-- A frame change of a block that has a stream has a word. -/
theorem exists_updateFrame {s : Stream} (h : c.serialize b = .ok s) :
    ∀ f ∈ c.strayFrames b, ∃ w, Modulator.updateFrame c.nco f.angle = .ok w := by
  intro f hf
  obtain ⟨channel, hchannel, hf⟩ := List.mem_flatMap.1 hf
  obtain ⟨e, he, hef⟩ := List.mem_filterMap.1 hf
  obtain ⟨em, hem⟩ := exists_element_of_serialize h (List.mem_filter.1 hchannel).1 he
  rcases element_cases hem with ⟨p, rfl, _⟩ | ⟨f', w, rfl, hw, _⟩
  · cases hef
  · obtain rfl := Option.some.inj hef
    exact ⟨w, hw⟩

theorem filter_updateFrame {nco : Int} {frames : List Frame} {extra : List Word}
    (h : frames.mapM (fun f => Modulator.updateFrame nco f.angle) = .ok extra) :
    extra.filter (Word.modulation? · ≠ some .updateFrame) = [] := by
  refine List.filter_eq_nil_iff.2 fun w hw => ?_
  obtain ⟨f, _, hf⟩ := exists_of_mem_mapM h hw
  obtain ⟨n, _, hn⟩ := bind_eq_ok.1 hf
  simp [Word.modulation?_of_modulation hn]

/-- All that the analog channels emit reaches the analog pair. -/
theorem Matched.filter_kept (hmatch : c.Matched b) {ems : List (Channel × Emission)}
    (hperm : (markedResults ems).Perm (c.results b)) :
    (keptWords Channel.isAnalog ems).filter Word.reachesPair = keptWords Channel.isAnalog ems := by
  refine List.filter_eq_self.2 fun w hw => ?_
  obtain ⟨x, hx, hw⟩ := List.mem_flatMap.1 hw
  obtain ⟨hx, hkind⟩ := List.mem_filter.1 hx
  have hmem : (x.1, Except.ok x.2) ∈ c.results b := hperm.mem_iff.1 (List.mem_map_of_mem hx)
  obtain ⟨channel, hc, hmem⟩ := List.mem_flatMap.1 hmem
  obtain ⟨e, he, heq⟩ := List.mem_map.1 hmem
  obtain ⟨rfl, hem⟩ := Prod.mk.inj heq
  exact hmatch.reachesPair hc hkind he hem w hw

/-- What reaches the analog pair comes from its channels and from stray frame changes. -/
theorem Matched.perm_reached (hmatch : c.Matched b) {ems : List (Channel × Emission)}
    (hperm : (markedResults ems).Perm (c.results b))
    (hall : ∀ channel ∈ c.channels, ∀ e ∈ b.on channel, ∃ em, c.element channel e = .ok em) :
    ((ems.flatMap (·.2.words)).filter Word.reachesPair).Perm (keptWords Channel.isAnalog ems ++
      (c.strayFrames b).flatMap fun f => (Modulator.updateFrame c.nco f.angle).toOption.toList) := by
  have hkept : ((markedResults ems).filter (·.1.isAnalog)).flatMap reached =
      keptWords Channel.isAnalog ems := by
    rw [← hmatch.filter_kept hperm, keptWords, ← flatMap_reached, markedResults, markedResults,
      List.filter_map]
    rfl
  rw [← flatMap_reached, ← hkept, ← hmatch.reached_others hall]
  refine ((List.filter_append_perm (·.1.isAnalog) _).flatMap_right reached).symm.trans ?_
  rw [List.flatMap_append]
  exact ((hperm.filter _).flatMap_right _).append_left _

/-- **What reaches the analog pair** is what its channels emit alone, in the same order, and a frame
update for every frame change on another channel. Apart from frame updates the two streams agree; they
agree entirely if and only if no frame change is on another channel. -/
theorem serialize_undisturbed {s : Stream} (hmatch : c.Matched b) (h : c.serialize b = .ok s) :
    ∃ s' extra, (c.only Channel.isAnalog).serialize b = .ok s' ∧
      (c.strayFrames b).mapM (fun f => Modulator.updateFrame c.nco f.angle) = .ok extra ∧
      s'.words.Sublist (s.words.filter Word.reachesPair) ∧
      (s.words.filter Word.reachesPair).Perm (s'.words ++ extra) ∧
      (s.words.filter Word.reachesPair).filter (Word.modulation? · ≠ some .updateFrame) =
        s'.words.filter (Word.modulation? · ≠ some .updateFrame) ∧
      (s.words.filter Word.reachesPair = s'.words ↔ c.strayFrames b = []) := by
  obtain ⟨ems, hwords, hperm, hkeep⟩ := serialize_only h
  obtain ⟨s', hs', hwords'⟩ := hkeep Channel.isAnalog
  obtain ⟨extra, hextra⟩ := mapM_of_forall (exists_updateFrame h)
  have hcount : (c.strayFrames b).length = extra.length := (mapM_eq_ok_iff.1 hextra).1
  have hsublist : s'.words.Sublist (s.words.filter Word.reachesPair) := by
    rw [hwords, hwords', ← hmatch.filter_kept hperm]
    exact (List.filter_sublist.flatMap _).filter _
  have hsplit : (s.words.filter Word.reachesPair).Perm (s'.words ++ extra) := by
    rw [hwords, hwords', eq_flatMap_of_mapM hextra]
    exact hmatch.perm_reached hperm fun channel hc e he => exists_element_of_serialize h hc he
  have hlength := hsplit.length_eq
  rw [List.length_append] at hlength
  refine ⟨s', extra, hs', hextra, hsublist, hsplit, ?_, fun heq => ?_, fun hnone => ?_⟩
  · have hlen := (hsplit.filter (Word.modulation? · ≠ some .updateFrame)).length_eq
    rw [List.filter_append, filter_updateFrame hextra, List.append_nil] at hlen
    exact ((hsublist.filter _).eq_of_length hlen.symm).symm
  · rw [heq] at hlength
    exact List.length_eq_zero_iff.1 (by omega)
  · rw [hnone, List.length_nil] at hcount
    exact (hsublist.eq_of_length (by omega)).symm

/-- A waveform between two frame changes, beside markers with a frame change between them. -/
def strayBlock : Block := .ofList
  [(.analog "q" 0.0 0, [.frame ⟨0.25, "Z"⟩, .pulse { uid := 0, label := "a", length := 0.0 },
      .frame ⟨0.5, "Z"⟩]),
    (.marker "m", [.pulse { uid := 1, label := "b", length := 0.0 }, .frame ⟨0.75, "Z"⟩,
      .pulse { uid := 1, label := "b", length := 0.0 }])]

theorem strayBlock_matched : twoLanes.Matched strayBlock := by
  have hanalog : strayBlock.on (.analog "q" 0.0 0) = [.frame ⟨0.25, "Z"⟩,
      .pulse { uid := 0, label := "a", length := 0.0 }, .frame ⟨0.5, "Z"⟩] := rfl
  have hmarker : strayBlock.on (.marker "m") = [.pulse { uid := 1, label := "b", length := 0.0 },
      .frame ⟨0.75, "Z"⟩, .pulse { uid := 1, label := "b", length := 0.0 }] := rfl
  intro channel hc p hp
  rcases List.mem_cons.1 hc with rfl | hc
  · simp only [hanalog, List.mem_cons, List.not_mem_nil, Entry.pulse.injEq, reduceCtorEq, false_or,
      or_false] at hp
    subst hp
    exact ⟨_, rfl⟩
  · obtain rfl := List.mem_singleton.1 hc
    simp only [hmarker, List.mem_cons, List.not_mem_nil, Entry.pulse.injEq, reduceCtorEq, false_or,
      or_false, or_self] at hp
    subst hp
    exact ⟨_, rfl⟩

theorem serialize_undisturbed_strayBlock :
    twoLanes.Matched strayBlock ∧ ∃ s s' : Stream, ∃ extra, twoLanes.serialize strayBlock = .ok s ∧
      (twoLanes.only Channel.isAnalog).serialize strayBlock = .ok s' ∧
      (s.words.filter Word.reachesPair).Perm (s'.words ++ extra) ∧
      (s.words.filter Word.reachesPair).filter (Word.modulation? · ≠ some .updateFrame) =
        s'.words.filter (Word.modulation? · ≠ some .updateFrame) ∧
      s.words.length = 7 ∧ s'.words.length = 4 ∧ extra.length = 1 := by
  have hrun : (twoLanes.serialize strayBlock).toOption.map (·.words.length) = some 7 := by
    decide +kernel
  have halone : ((twoLanes.only Channel.isAnalog).serialize strayBlock).toOption.map
      (·.words.length) = some 4 := by decide +kernel
  obtain ⟨s, h, hs⟩ := exists_of_toOption hrun
  obtain ⟨s', extra, hs', hextra, _, hperm, heq, _⟩ := serialize_undisturbed strayBlock_matched h
  rw [hs'] at halone
  exact ⟨strayBlock_matched, s, s', extra, h, hs', hperm, heq, hs, Option.some.inj halone,
    (mapM_eq_ok_iff.1 hextra).1.symm⟩

/-- A frame change on a marker channel turns the frame of the analog pair. -/
theorem serialize_strayFrame :
    twoLanes.Matched strayBlock ∧ ∃ s s' : Stream, twoLanes.serialize strayBlock = .ok s ∧
      (twoLanes.only Channel.isAnalog).serialize strayBlock = .ok s' ∧
      s.words.filter Word.reachesPair ≠ s'.words := by
  have hrun : (twoLanes.serialize strayBlock).toOption.map
      (fun s => (s.words.filter Word.reachesPair).length) = some 5 := by decide +kernel
  have halone : ((twoLanes.only Channel.isAnalog).serialize strayBlock).toOption.map
      (·.words.length) = some 4 := by decide +kernel
  obtain ⟨s, h, hs⟩ := exists_of_toOption hrun
  obtain ⟨s', h', hs'⟩ := exists_of_toOption halone
  refine ⟨strayBlock_matched, s, s', h, h', fun heq => ?_⟩
  rw [heq, hs'] at hs
  cases hs

end Context

end PulseSequencer
