import PulseSequencer.Program
import PulseSequencer.Proofs.Cursors
import PulseSequencer.Proofs.FirstFault
import PulseSequencer.Proofs.Independence

/-!
# Merges are safe and end

A merge in place leads to the stream of the block, or to its fault. Every state on the way determines what
is still to come, and no step changes it; so the stream is known before the first step and is there after
the last. Counts of records may be negative: that the merge ends does not depend on them.

* `Context.outcome` — what a merge under way will lead to.
* `Context.Move.outcome_eq` — no step changes it.
* `Context.serialize_eq_outcome` — at the start it is the stream of the block.
* `Context.Met` — what holds after a number of steps.
* `Context.merge_safe` — a merge is safe and ends, with the stream of the block or its fault.
-/

namespace PulseSequencer

/-! ## Rounds -/

/-- All rounds from given lanes on, after a number of rounds that have emitted `words`. -/
def settle (rounds : Nat) (words : List Word) (lanes : List Lane) : Except Fault (Nat × Stream) :=
  (merge lanes).map fun r => (rounds + r.1.length, ⟨words ++ r.1.flatten, r.2.map (·.clock)⟩)

/-- The rest of a round, and all later ones, with the lanes before the one that is visited. -/
def settleRound (t : Int) (rounds : Nat) (words : List Word) (earlier later : List Lane) :
    Except Fault (Nat × Stream) :=
  round t later >>= fun r => settle rounds (words ++ r.1) (earlier ++ r.2)

theorem settle_of_none {lanes : List Lane} (h : nextStart lanes = none) (rounds : Nat) (words : List Word) :
    settle rounds words lanes = .ok (rounds, ⟨words, lanes.map (·.clock)⟩) := by
  simp [settle, merge_of_nextStart_none h, Except.map]

theorem settle_of_some {lanes : List Lane} {t : Int} (h : nextStart lanes = some t) (rounds : Nat)
    (words : List Word) :
    settle rounds words lanes = settleRound t (rounds + 1) words [] lanes := by
  rw [settle, merge_of_nextStart_some h, settleRound]
  cases round t lanes with
  | error f => rfl
  | ok r =>
    simp only [settle, bind, Except.bind, List.nil_append]
    cases merge r.2 with
    | error f => rfl
    | ok m => simp [Except.map, Nat.add_assoc, Nat.add_comm 1]

/-- A visit moves a lane from the later ones to the earlier ones. -/
theorem settleRound_cons {t : Int} {l l' : Lane} {ems : List Emission} (h : l.step t = .ok (ems, l'))
    (rounds : Nat) (words : List Word) (earlier later : List Lane) :
    settleRound t rounds words earlier (l :: later) =
      settleRound t rounds (words ++ ems.flatMap Emission.words) (earlier ++ [l']) later := by
  unfold settleRound
  rw [round_cons, h]
  cases round t later with
  | error f => rfl
  | ok r =>
    change settle rounds (words ++ (ems.flatMap Emission.words ++ r.1)) (earlier ++ l' :: r.2) =
      settle rounds (words ++ ems.flatMap Emission.words ++ r.1) (earlier ++ [l'] ++ r.2)
    rw [List.append_assoc, List.append_assoc]
    rfl

theorem settleRound_nil (t : Int) (rounds : Nat) (words : List Word) (earlier : List Lane) :
    settleRound t rounds words earlier [] = settle rounds words earlier := by
  change settle rounds (words ++ []) (earlier ++ []) = _
  rw [List.append_nil, List.append_nil]

namespace Context

/-! ## The outcome -/

/-- What is still to come on a channel. -/
def remaining (c : Context) (b : Block) (channel : Channel) (cur : Cursor) : Lane :=
  ⟨cur.clock, ((b.on channel).drop cur.index).map (c.element channel)⟩

/-- The lanes as the cursors stand. -/
def lanes (c : Context) (b : Block) (cursors : List Cursor) : List Lane :=
  List.zipWith (c.remaining b) c.channels cursors

/-- The rounds and the stream to which a merge under way will lead. -/
def outcome (c : Context) (b : Block) (s : Scan) : Except Fault (Nat × Stream) :=
  match s.stage with
  | .test => settle s.rounds s.words (c.lanes b s.cursors)
  | .visit t i =>
    settleRound t s.rounds s.words ((c.lanes b s.cursors).take i) ((c.lanes b s.cursors).drop i)
  | .finished => .ok (s.rounds, ⟨s.words, s.cursors.map (·.clock)⟩)

variable {c : Context} {b : Block}

theorem isEmpty_remaining {channel : Channel} {cur : Cursor} (h : c.Tracks b channel cur) :
    (c.remaining b channel cur).pending.isEmpty = cur.done := by
  have hindex := h.index_le
  rw [Bool.eq_iff_iff, h.done_iff]
  simp only [remaining, List.isEmpty_iff, List.map_eq_nil_iff, List.drop_eq_nil_iff]
  omega

/-- A channel that is not ahead emits its next element, unless that one fails. -/
theorem step_remaining {t : Int} {channel : Channel} {cur : Cursor} {e : Entry} (hclock : cur.clock ≤ t)
    (he : (b.on channel)[cur.index]? = some e) :
    (c.remaining b channel cur).step t = (c.element channel e).map fun em =>
      ([em], c.remaining b channel (cur.advance (b.on channel).length em.duration)) := by
  obtain ⟨hlt, hget⟩ := List.getElem?_eq_some_iff.1 he
  rw [remaining, List.drop_eq_getElem_cons hlt, hget, List.map_cons, Lane.step,
    if_neg (Int.not_lt.2 hclock)]
  rfl

/-- The lanes have the clocks of the cursors, and those that are not done have elements to come. -/
theorem lanes_clocks {channels : List Channel} {cursors : List Cursor}
    (h : List.Forall₂ (c.Tracks b) channels cursors) :
    (List.zipWith (c.remaining b) channels cursors).map (·.clock) = cursors.map (·.clock) ∧
      ((List.zipWith (c.remaining b) channels cursors).filter (!·.pending.isEmpty)).map (·.clock) =
        (cursors.filter (!·.done)).map (·.clock) := by
  induction h with
  | nil => exact ⟨rfl, rfl⟩
  | cons htracks _ ih =>
    obtain ⟨hall, hpending⟩ := ih
    rw [List.zipWith_cons_cons, List.map_cons, List.map_cons, hall, List.filter_cons, List.filter_cons,
      isEmpty_remaining htracks]
    refine ⟨rfl, ?_⟩
    split
    · rw [List.map_cons, List.map_cons, hpending]
      rfl
    · exact hpending

/-- The lane furthest behind has the least clock. -/
theorem nextStart_lanes {s : Scan} (hs : c.Consistent b s) :
    nextStart (c.lanes b s.cursors) = s.earliest? := congrArg List.min? (lanes_clocks hs).2

/-- The lanes from a visited channel on, and those up to it. -/
theorem lanes_at {cursors : List Cursor} {i : Nat} {channel : Channel} {cur : Cursor}
    (hchannel : c.channels[i]? = some channel) (hcur : cursors[i]? = some cur) :
    (c.lanes b cursors).drop i = c.remaining b channel cur :: (c.lanes b cursors).drop (i + 1) ∧
      (c.lanes b cursors).take (i + 1) = (c.lanes b cursors).take i ++ [c.remaining b channel cur] := by
  have hlane : (c.lanes b cursors)[i]? = some (c.remaining b channel cur) := by
    rw [lanes, List.getElem?_zipWith, hchannel, hcur]
  obtain ⟨hlt, hget⟩ := List.getElem?_eq_some_iff.1 hlane
  rw [List.drop_eq_getElem_cons hlt, hget, List.take_add_one, hlane]
  exact ⟨rfl, rfl⟩

/-- A cursor that moves changes no other lane. -/
theorem lanes_set (c : Context) (b : Block) (cursors : List Cursor) (i : Nat) (cur : Cursor) :
    (c.lanes b (cursors.set i cur)).drop (i + 1) = (c.lanes b cursors).drop (i + 1) ∧
      (c.lanes b (cursors.set i cur)).take i = (c.lanes b cursors).take i := by
  unfold lanes
  rw [List.drop_zipWith, List.drop_zipWith, List.take_zipWith, List.take_zipWith,
    List.drop_set_of_lt (Nat.lt_succ_self i), List.take_set_of_le (Nat.le_refl i)]
  exact ⟨rfl, rfl⟩

/-- **No step changes the outcome.** -/
theorem Move.outcome_eq {s s' : Scan} (hs : c.Consistent b s) (h : c.Move b s (.ok s')) :
    c.outcome b s' = c.outcome b s := by
  cases h with
  | finish hstage hdone =>
    have hnone : nextStart (c.lanes b s.cursors) = none :=
      (nextStart_lanes hs).trans (Scan.earliest?_eq_none_iff.2 hdone)
    simp only [outcome, hstage]
    rw [settle_of_none hnone, lanes, (lanes_clocks hs).1]
  | begin hstage ht =>
    rw [← nextStart_lanes hs] at ht
    simp only [outcome, hstage]
    rw [settle_of_some ht, List.take_zero, List.drop_zero]
  | @pass t i channel cur hstage hchannel hcur hskip =>
    obtain ⟨cur', hcur', htracks⟩ := exists_of_forall₂ hs hchannel
    obtain rfl := Option.some.inj (hcur.symm.trans hcur')
    obtain ⟨hlater, hearlier⟩ := lanes_at (b := b) hchannel hcur
    have hidle : (c.remaining b channel cur).pending ≠ [] → t < cur.clock := by
      refine fun hpending => hskip.resolve_left fun hdone => hpending ?_
      rwa [← isEmpty_remaining htracks, List.isEmpty_iff] at hdone
    simp only [outcome, hstage]
    rw [hlater, settleRound_cons (Lane.step_of_ahead hidle), ← hearlier, List.flatMap_nil, List.append_nil]
  | @emit t i channel cur e em hstage hchannel hcur hclock he hem =>
    have hnew : (s.cursors.set i (cur.advance (b.on channel).length em.duration))[i]? =
        some (cur.advance (b.on channel).length em.duration) :=
      List.getElem?_set_self (List.getElem?_eq_some_iff.1 hcur).1
    obtain ⟨hlater, hearlier⟩ :=
      c.lanes_set b s.cursors i (cur.advance (b.on channel).length em.duration)
    have hstep : (c.remaining b channel cur).step t =
        .ok ([em], c.remaining b channel (cur.advance (b.on channel).length em.duration)) := by
      rw [step_remaining hclock he, hem]
      rfl
    simp only [outcome, hstage]
    rw [(lanes_at hchannel hcur).1, settleRound_cons hstep, (lanes_at hchannel hnew).2, hlater, hearlier,
      List.flatMap_singleton]
  | @turn t i hstage hi =>
    have hlen : (c.lanes b s.cursors).length ≤ i := by
      have := List.getElem?_eq_none_iff.1 hi
      rw [lanes, List.length_zipWith]
      omega
    simp only [outcome, hstage]
    rw [List.drop_eq_nil_of_le hlen, List.take_of_length_le hlen, settleRound_nil]
  | rest _ => rfl

/-- An element that fails decides the outcome. -/
theorem outcome_of_fail {s : Scan} {t : Int} {i : Nat} {channel : Channel} {cur : Cursor} {e : Entry}
    {f : Fault} (hstage : s.stage = .visit t i) (hchannel : c.channels[i]? = some channel)
    (hcur : s.cursors[i]? = some cur) (hclock : cur.clock ≤ t)
    (he : (b.on channel)[cur.index]? = some e) (hf : c.element channel e = .error f) :
    c.outcome b s = .error f := by
  simp only [outcome, hstage, settleRound]
  rw [(lanes_at hchannel hcur).1, round_cons, step_remaining hclock he, hf]
  rfl

/-- The outcome of the whole merge. -/
theorem outcome_start (c : Context) (b : Block) :
    c.outcome b (c.start b) = (merge (c.channels.map (c.lane b))).map fun r =>
      (r.1.length, ⟨r.1.flatten, r.2.map (·.clock)⟩) := by
  have hlanes : c.lanes b (c.start b).cursors = c.channels.map (c.lane b) := by
    rw [lanes, start, List.zipWith_map_right, List.zipWith_self]
    rfl
  change settle 0 [] (c.lanes b (c.start b).cursors) = _
  rw [hlanes, settle]
  simp only [Nat.zero_add, List.nil_append]

theorem serialize_eq_outcome (c : Context) (b : Block) :
    c.serialize b = (c.outcome b (c.start b)).map (·.2) := by
  rw [outcome_start, serialize]
  cases merge (c.channels.map (c.lane b)) <;> rfl

/-! ## Whole merges -/

/-- What holds after `k` steps. -/
structure Met (c : Context) (b : Block) (k : Nat) (s : Scan) : Prop where
  paid : s.Paid s.rounds
  aged : c.Aged k s
  ended : s.stage = .finished → ∀ cur ∈ s.cursors, cur.done = true
  outcome_eq : c.outcome b s = c.outcome b (c.start b)

theorem Move.met {k : Nat} {s s' : Scan} (hs : c.Consistent b s) (hmet : c.Met b k s)
    (h : c.Move b s (.ok s')) : c.Met b (k + 1) s' := by
  refine ⟨h.paid_rounds hs hmet.paid, h.aged hmet.aged, ?_, (h.outcome_eq hs).trans hmet.outcome_eq⟩
  cases h with
  | finish _ hdone => exact fun _ => hdone
  | rest _ => exact hmet.ended
  | _ => exact nofun

theorem met_of_steps {k : Nat} {s : Scan} (h : c.steps b k (c.start b) = .ok s) :
    c.Consistent b s ∧ c.Met b k s := by
  have hstart : c.Met b 0 (c.start b) :=
    ⟨.inl (Nat.zero_le _), (Nat.zero_mul _).symm, nofun, rfl⟩
  have hmet := steps_keep (fun k s s' => Move.met) (c.start_consistent b) hstart h
  rwa [Nat.zero_add] at hmet

/-- Only an element that fails stops a merge, and the block has its fault. -/
theorem fails_of_steps {k : Nat} {halt : Halt} (h : c.steps b k (c.start b) = .error halt) :
    ∃ f, halt = .fault f ∧ c.serialize b = .error f ∧
      ∃ channel ∈ c.channels, ∃ e ∈ b.on channel, c.Fails channel e f := by
  obtain ⟨j, s, hj, hstop⟩ := steps_eq_error h
  obtain ⟨hs, hmet⟩ := met_of_steps hj
  have hmove := step_move hs
  rw [hstop] at hmove
  cases hmove with
  | @fail t i channel cur e f hstage hchannel hcur hclock he hf =>
    refine ⟨f, rfl, ?_, channel, List.mem_of_getElem? hchannel, e, List.mem_of_getElem? he,
      element_eq_error_iff.1 hf⟩
    rw [serialize_eq_outcome, ← hmet.outcome_eq, outcome_of_fail hstage hchannel hcur hclock he hf]
    rfl

/-- As many steps as a merge can have. -/
def enoughSteps (c : Context) (b : Block) : Nat := c.elementCount b * (c.channels.length + 2) + 1

/-- A merge that nothing stops is finished after enough steps. -/
theorem finished_of_steps {s : Scan} (h : c.steps b (c.enoughSteps b) (c.start b) = .ok s) :
    s.stage = .finished := by
  obtain ⟨hs, hmet⟩ := met_of_steps h
  by_contra hstage
  have hage := hmet.aged.le hstage
  have hrounds := Nat.mul_le_mul_right (c.channels.length + 2) (hs.paid_le hmet.paid)
  unfold enoughSteps at hage
  omega

/-- How long a channel plays: the sum of the durations of all its elements. -/
def playTime (c : Context) (b : Block) (channel : Channel) : Int :=
  startOf ((b.on channel).map c.duration) (b.on channel).length

/-- Cursors that are all done are at the ends of their lanes. -/
theorem cursors_of_done {channels : List Channel} {cursors : List Cursor}
    (h : List.Forall₂ (c.Tracks b) channels cursors) (hdone : ∀ cur ∈ cursors, cur.done = true) :
    cursors = channels.map fun channel => ⟨c.playTime b channel, (b.on channel).length, true⟩ := by
  induction h with
  | nil => rfl
  | @cons channel cur channels cursors htracks _ ih =>
    rw [List.map_cons, ← ih fun cur hcur => hdone cur (List.mem_cons_of_mem _ hcur)]
    have hend := hdone cur List.mem_cons_self
    have hindex := htracks.done_iff.1 hend
    have hclock := htracks.clock_eq
    rw [hindex] at hclock
    obtain ⟨clock, index, done⟩ := cur
    cases hend
    cases hindex
    cases hclock
    rfl

/-- What a finished merge says about the block. -/
theorem result_of_finished {k : Nat} {s : Scan} (h : c.steps b k (c.start b) = .ok s)
    (hstage : s.stage = .finished) :
    s.cursors = c.channels.map (fun channel => ⟨c.playTime b channel, (b.on channel).length, true⟩) ∧
      (∃ rounds lanes, merge (c.channels.map (c.lane b)) = .ok (rounds, lanes) ∧
        rounds.length = s.rounds) ∧
      c.serialize b = .ok ⟨s.words, c.channels.map (c.playTime b)⟩ := by
  obtain ⟨hs, hmet⟩ := met_of_steps h
  have hcursors := cursors_of_done hs (hmet.ended hstage)
  have hclocks : s.cursors.map (·.clock) = c.channels.map (c.playTime b) := by
    rw [hcursors, List.map_map]
    rfl
  have houtcome : c.outcome b (c.start b) = .ok (s.rounds, ⟨s.words, c.channels.map (c.playTime b)⟩) := by
    rw [← hmet.outcome_eq, ← hclocks]
    simp only [outcome, hstage]
  refine ⟨hcursors, ?_, by rw [serialize_eq_outcome, houtcome]; rfl⟩
  rw [outcome_start] at houtcome
  obtain ⟨⟨rounds, lanes⟩, hmerge, hr⟩ := map_eq_ok.1 houtcome
  exact ⟨rounds, lanes, hmerge, congrArg Prod.fst hr⟩

/-- A block that has a stream notes its length and its durations. -/
theorem block_of_serialize {stream : Stream} (h : c.serialize b = .ok stream) (t : Session) :
    c.block b t = .ok stream.words
      { t with log := t.log.push (.serialized stream.words.length stream.durations) } := by
  unfold block
  rw [h]
  rfl

/-- **A merge is safe and ends.** The records of the library may have any counts. After any number of steps
every cursor agrees with its lane, and no more rounds have begun than there are elements. Where a channel
is not done there is a least clock, and the round takes an element before the next test. Only an element
that fails stops the merge, and the block has its fault. Otherwise the merge ends: every channel has
emitted all its elements, its clock is the sum of their durations, and these durations are noted. -/
theorem merge_safe (c : Context) (b : Block) :
    (∀ k s, c.steps b k (c.start b) = .ok s →
      c.Consistent b s ∧ s.rounds ≤ c.elementCount b ∧
      (s.stage = .test → (∃ cur ∈ s.cursors, cur.done = false) →
        (∃ t, s.earliest? = some t) ∧
        ∀ s', c.steps b (c.channels.length + 2) s = .ok s' →
          s'.stage = .test ∧ s'.rounds = s.rounds + 1 ∧ taken s.cursors < taken s'.cursors)) ∧
    (∀ k halt, c.steps b k (c.start b) = .error halt →
      ∃ f, halt = .fault f ∧ c.serialize b = .error f ∧
        ∃ channel ∈ c.channels, ∃ e ∈ b.on channel, c.Fails channel e f) ∧
    ((∃ f, c.steps b (c.enoughSteps b) (c.start b) = .error (.fault f)) ∨
      ∃ s rounds lanes, c.steps b (c.enoughSteps b) (c.start b) = .ok s ∧ s.stage = .finished ∧
        s.cursors = c.channels.map (fun channel => ⟨c.playTime b channel, (b.on channel).length, true⟩) ∧
        merge (c.channels.map (c.lane b)) = .ok (rounds, lanes) ∧ rounds.length = s.rounds ∧
        c.serialize b = .ok ⟨s.words, c.channels.map (c.playTime b)⟩ ∧
        ∀ t, c.block b t = .ok s.words
          { t with log := t.log.push (.serialized s.words.length (c.channels.map (c.playTime b))) }) := by
  refine ⟨?_, fun k halt => fails_of_steps, ?_⟩
  · intro k s h
    obtain ⟨hs, hmet⟩ := met_of_steps h
    exact ⟨hs, hs.paid_le hmet.paid, round_takes hs⟩
  · cases h : c.steps b (c.enoughSteps b) (c.start b) with
    | error halt =>
      obtain ⟨f, rfl, _⟩ := fails_of_steps h
      exact .inl ⟨f, rfl⟩
    | ok s =>
      have hstage := finished_of_steps h
      obtain ⟨hcursors, ⟨rounds, lanes, hmerge, hrounds⟩, hserialize⟩ := result_of_finished h hstage
      exact .inr ⟨s, rounds, lanes, rfl, hstage, hcursors, hmerge, hrounds, hserialize,
        block_of_serialize hserialize⟩

/-- A waveform with a negative count takes its channel back in time, beside a channel that goes on. -/
def backwardLanes : Context :=
  { twoLanes with library := .ofList [(0, .waveform ⟨0, -3, false⟩), (1, .marker ⟨1, true, 0, 15⟩)] }

example : (backwardLanes.serialize twoLaneBlock).toOption.map (·.durations) = some [-4, 3] := by
  decide +kernel

end Context

end PulseSequencer
