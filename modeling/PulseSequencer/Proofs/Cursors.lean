import Mathlib.Data.List.Forall2
import PulseSequencer.Proofs.Emission
import PulseSequencer.Proofs.Slot

/-!
# Merging in place

The lanes of a block can be merged without taking them apart. Each channel has a cursor: a clock, the index
of its next element, and a flag that is set when there is none. In every round the channels are visited in
order, and those that are not ahead of the least clock emit an element. Here this loop is taken in single
steps, with all that could go wrong on the way: a cursor or an element that is not there, and the least
clock of no channels.

* `Scan` — a merge under way; `Context.step`, `Context.steps` — its steps.
* `Context.Consistent` — the invariant: every cursor agrees with the lane of its channel.
* `Context.Move`, `Context.step_move` — all that a step can do. Only an element can stop it.
* `Context.steps_keep` — what every step keeps, a run keeps.
* `Scan.Paid` — every round is paid by an element. Clocks do not show progress, since frame changes leave
  them where they are and counts may be negative.
* `Context.Aged` — how many steps the rounds have.
* `Context.round_takes` — a round has a least clock, and takes an element before the next test.
-/

namespace PulseSequencer

/-- Where a channel stands: its clock, the index of its next element, and whether there is none. -/
structure Cursor where
  clock : Int
  index : Nat
  done : Bool
  deriving DecidableEq, Repr

/-- A cursor after an element of a lane of `length` elements. -/
def Cursor.advance (cur : Cursor) (length : Nat) (duration : Int) : Cursor :=
  ⟨cur.clock + duration, cur.index + 1, decide (length ≤ cur.index + 1)⟩

/-- The number of elements taken. -/
def taken : List Cursor → Nat
  | [] => 0
  | cur :: cursors => cur.index + taken cursors

/-- What is done next. -/
inductive Stage where
  /-- The test whether all channels are done. -/
  | test
  /-- The visit of the channel at `position` in a round at `time`. -/
  | visit (time : Int) (position : Nat)
  | finished
  deriving DecidableEq, Repr

/-- A merge under way. -/
structure Scan where
  stage : Stage
  cursors : List Cursor
  words : List Word
  /-- The number of rounds begun. -/
  rounds : Nat

/-- The least clock of the channels that are not done. -/
def Scan.earliest? (s : Scan) : Option Int := ((s.cursors.filter (!·.done)).map (·.clock)).min?

/-- Why a merge stops before its end. -/
inductive Halt where
  /-- An element has no words. -/
  | fault (f : Fault)
  /-- There is no cursor at a position, or no element at an index. -/
  | outOfRange
  /-- The least clock of no channels was asked for. -/
  | noMinimum

namespace Context

variable (c : Context) (b : Block)

/-- All channels are at their first element. -/
def start : Scan where
  stage := .test
  cursors := c.channels.map fun channel => ⟨0, 0, (b.on channel).isEmpty⟩
  words := []
  rounds := 0

/-- The visit of a channel: its next element is emitted unless it is done or ahead of the round. -/
def visit (s : Scan) (t : Int) (position : Nat) (channel : Channel) : Except Halt Scan :=
  match s.cursors[position]? with
  | none => .error .outOfRange
  | some cur =>
    if cur.done || decide (t < cur.clock) then .ok { s with stage := .visit t (position + 1) }
    else
      match (b.on channel)[cur.index]? with
      | none => .error .outOfRange
      | some e =>
        match c.element channel e with
        | .error f => .error (.fault f)
        | .ok em => .ok { s with
            stage := .visit t (position + 1)
            cursors := s.cursors.set position (cur.advance (b.on channel).length em.duration)
            words := s.words ++ em.words }

/-- One step: a test, the visit of a channel, or the end of a round. -/
def step (s : Scan) : Except Halt Scan :=
  match s.stage with
  | .test =>
    if s.cursors.all (·.done) then .ok { s with stage := .finished }
    else
      match s.earliest? with
      | none => .error .noMinimum
      | some t => .ok { s with stage := .visit t 0, rounds := s.rounds + 1 }
  | .visit t position =>
    match c.channels[position]? with
    | none => .ok { s with stage := .test }
    | some channel => c.visit b s t position channel
  | .finished => .ok s

/-- A number of steps. -/
def steps : Nat → Scan → Except Halt Scan
  | 0, s => .ok s
  | k + 1, s =>
    match c.step b s with
    | .error halt => .error halt
    | .ok s' => steps k s'

/-- The cursor of a channel agrees with its lane: it is not beyond the end, it is done if and only if it
is at the end, and its clock is the sum of the durations of the elements taken. -/
structure Tracks (channel : Channel) (cur : Cursor) : Prop where
  index_le : cur.index ≤ (b.on channel).length
  done_iff : cur.done = true ↔ cur.index = (b.on channel).length
  clock_eq : cur.clock = startOf ((b.on channel).map c.duration) cur.index

/-- Every channel has a cursor, which agrees with its lane. -/
def Consistent (s : Scan) : Prop := List.Forall₂ (c.Tracks b) c.channels s.cursors

/-- What a step does to a merge whose cursors agree with the lanes. -/
inductive Move (s : Scan) : Except Halt Scan → Prop where
  /-- All channels are done. -/
  | finish (hstage : s.stage = .test) (hdone : ∀ cur ∈ s.cursors, cur.done = true) :
    Move s (.ok { s with stage := .finished })
  /-- A round begins at the least clock. -/
  | begin {t : Int} (hstage : s.stage = .test) (ht : s.earliest? = some t) :
    Move s (.ok { s with stage := .visit t 0, rounds := s.rounds + 1 })
  /-- A channel is done or ahead of the round. -/
  | pass {t : Int} {i : Nat} {channel : Channel} {cur : Cursor} (hstage : s.stage = .visit t i)
    (hchannel : c.channels[i]? = some channel) (hcur : s.cursors[i]? = some cur)
    (hskip : cur.done = true ∨ t < cur.clock) :
    Move s (.ok { s with stage := .visit t (i + 1) })
  /-- A channel emits its next element. -/
  | emit {t : Int} {i : Nat} {channel : Channel} {cur : Cursor} {e : Entry} {em : Emission}
    (hstage : s.stage = .visit t i) (hchannel : c.channels[i]? = some channel)
    (hcur : s.cursors[i]? = some cur) (hclock : cur.clock ≤ t)
    (he : (b.on channel)[cur.index]? = some e) (hem : c.element channel e = .ok em) :
    Move s (.ok { s with
      stage := .visit t (i + 1)
      cursors := s.cursors.set i (cur.advance (b.on channel).length em.duration)
      words := s.words ++ em.words })
  /-- The next element of a channel fails. -/
  | fail {t : Int} {i : Nat} {channel : Channel} {cur : Cursor} {e : Entry} {f : Fault}
    (hstage : s.stage = .visit t i) (hchannel : c.channels[i]? = some channel)
    (hcur : s.cursors[i]? = some cur) (hclock : cur.clock ≤ t)
    (he : (b.on channel)[cur.index]? = some e) (hf : c.element channel e = .error f) :
    Move s (.error (.fault f))
  /-- All channels have been visited. -/
  | turn {t : Int} {i : Nat} (hstage : s.stage = .visit t i) (hi : c.channels[i]? = none) :
    Move s (.ok { s with stage := .test })
  | rest (hstage : s.stage = .finished) : Move s (.ok s)

end Context

/-! ## Pairs of lists -/

section

variable {α β : Type} {R : α → β → Prop} {as : List α} {bs : List β}

theorem exists_of_forall₂ (h : List.Forall₂ R as bs) {i : Nat} {a : α} (ha : as[i]? = some a) :
    ∃ b, bs[i]? = some b ∧ R a b := by
  induction h generalizing i with
  | nil => cases ha
  | cons hr _ ih =>
    cases i with
    | zero =>
      cases ha
      exact ⟨_, rfl, hr⟩
    | succ i => exact ih ha

theorem forall₂_set (h : List.Forall₂ R as bs) {i : Nat} {a : α} {b : β} (ha : as[i]? = some a)
    (hr : R a b) : List.Forall₂ R as (bs.set i b) := by
  induction h generalizing i with
  | nil => cases ha
  | cons hr' hrest ih =>
    cases i with
    | zero =>
      cases ha
      exact .cons hr hrest
    | succ i => exact .cons hr' (ih ha)

end

namespace Scan

variable {s : Scan}

/-- There is no least clock if and only if all channels are done. -/
theorem earliest?_eq_none_iff : s.earliest? = none ↔ ∀ cur ∈ s.cursors, cur.done = true := by
  rw [earliest?, List.min?_eq_none_iff, List.map_eq_nil_iff, List.filter_eq_nil_iff]
  simp

theorem exists_earliest? (h : ∃ cur ∈ s.cursors, cur.done = false) : ∃ t, s.earliest? = some t := by
  obtain ⟨cur, hcur, hdone⟩ := h
  refine Option.ne_none_iff_exists'.1 fun hnone => ?_
  rw [earliest?_eq_none_iff.1 hnone cur hcur] at hdone
  cases hdone

end Scan

namespace Context

variable {c : Context} {b : Block}

theorem start_consistent (c : Context) (b : Block) : c.Consistent b (c.start b) := by
  unfold Consistent start
  rw [List.forall₂_map_right_iff, List.forall₂_same]
  intro channel _
  refine ⟨Nat.zero_le _, ?_, (startOf_zero _).symm⟩
  cases b.on channel <;> simp

/-- A merge whose cursors agree with the lanes always has a step; only an element can stop it. -/
theorem step_move {s : Scan} (hs : c.Consistent b s) : c.Move b s (c.step b s) := by
  unfold step
  split
  · rename_i hstage
    split
    · rename_i hall
      exact .finish hstage (by simpa using hall)
    · rename_i hpending
      obtain ⟨t, ht⟩ := Scan.exists_earliest? (s := s) (by simpa using hpending)
      rw [ht]
      exact .begin hstage ht
  · rename_i t i hstage
    cases hchannel : c.channels[i]? with
    | none => exact .turn hstage hchannel
    | some channel =>
      obtain ⟨cur, hcur, htracks⟩ := exists_of_forall₂ hs hchannel
      simp only [visit, hcur]
      split
      · rename_i hskip
        exact .pass hstage hchannel hcur (by simpa using hskip)
      · rename_i hdue
        simp only [Bool.or_eq_true, decide_eq_true_eq, not_or, Int.not_lt] at hdue
        cases he : (b.on channel)[cur.index]? with
        | none =>
          -- a cursor beyond the last element would be done
          have hlen := List.getElem?_eq_none_iff.1 he
          exact absurd (htracks.done_iff.2 (Nat.le_antisymm htracks.index_le hlen)) hdue.1
        | some e =>
          dsimp only
          cases hem : c.element channel e with
          | error f => exact .fail hstage hchannel hcur hdue.2 he hem
          | ok em => exact .emit hstage hchannel hcur hdue.2 he hem
  · rename_i hstage
    exact .rest hstage

theorem move_of_step {s s' : Scan} (hs : c.Consistent b s) (h : c.step b s = .ok s') :
    c.Move b s (.ok s') := h ▸ step_move hs

/-- A cursor that takes an element keeps agreeing with its lane. -/
theorem Tracks.advance {channel : Channel} {cur : Cursor} (h : c.Tracks b channel cur) {e : Entry}
    {em : Emission} (he : (b.on channel)[cur.index]? = some e) (hem : c.element channel e = .ok em) :
    c.Tracks b channel (cur.advance (b.on channel).length em.duration) := by
  obtain ⟨hlt, _⟩ := List.getElem?_eq_some_iff.1 he
  refine ⟨hlt, ?_, ?_⟩
  · simp only [Cursor.advance, decide_eq_true_eq]
    omega
  · have hd : ((b.on channel).map c.duration)[cur.index]? = some (c.duration e) := by
      rw [List.getElem?_map, he]
      rfl
    simp only [Cursor.advance]
    rw [startOf_succ hd, ← h.clock_eq, element_duration hem]

/-- A step keeps the cursors in agreement with the lanes. -/
theorem Move.consistent {s s' : Scan} (hs : c.Consistent b s) (h : c.Move b s (.ok s')) :
    c.Consistent b s' := by
  cases h with
  | emit _ hchannel hcur _ he hem =>
    obtain ⟨cur, hcur', htracks⟩ := exists_of_forall₂ hs hchannel
    obtain rfl := Option.some.inj (hcur.symm.trans hcur')
    exact forall₂_set hs hchannel (htracks.advance he hem)
  | _ => exact hs

theorem steps_succ_eq_ok {k : Nat} {s s' : Scan} :
    c.steps b (k + 1) s = .ok s' ↔ ∃ s₁, c.step b s = .ok s₁ ∧ c.steps b k s₁ = .ok s' := by
  rw [steps]
  cases c.step b s <;> simp

/-- What every step keeps, a run keeps. -/
theorem steps_keep {P : Nat → Scan → Prop}
    (hstep : ∀ k s s', c.Consistent b s → P k s → c.Move b s (.ok s') → P (k + 1) s') {n k : Nat}
    {s s' : Scan} (hs : c.Consistent b s) (hP : P n s) (h : c.steps b k s = .ok s') :
    c.Consistent b s' ∧ P (n + k) s' := by
  induction k generalizing n s with
  | zero =>
    obtain rfl := Except.ok.inj h
    exact ⟨hs, hP⟩
  | succ k ih =>
    obtain ⟨s₁, hs₁, h⟩ := steps_succ_eq_ok.1 h
    have hmove := move_of_step hs hs₁
    have hrun := ih (hmove.consistent hs) (hstep n s s₁ hs hP hmove) h
    rwa [Nat.add_right_comm, Nat.add_assoc] at hrun

/-- A run stops at a step that has no result. -/
theorem steps_eq_error {k : Nat} {s : Scan} {halt : Halt} (h : c.steps b k s = .error halt) :
    ∃ j s', c.steps b j s = .ok s' ∧ c.step b s' = .error halt := by
  induction k generalizing s with
  | zero => cases h
  | succ k ih =>
    rw [steps] at h
    cases hs' : c.step b s with
    | error halt' =>
      rw [hs'] at h
      cases h
      exact ⟨0, s, rfl, hs'⟩
    | ok s₁ =>
      rw [hs'] at h
      obtain ⟨j, s', hj, hstop⟩ := ih h
      exact ⟨j + 1, s', steps_succ_eq_ok.2 ⟨s₁, hs', hj⟩, hstop⟩

end Context

/-! ## Progress -/

namespace Scan

/-- A channel that is still to be visited in the round will emit an element. -/
def Due (s : Scan) : Prop :=
  ∃ t i j cur, s.stage = .visit t i ∧ i ≤ j ∧ s.cursors[j]? = some cur ∧ cur.done = false ∧ cur.clock ≤ t

/-- `n` elements have been taken, or all but one, which is due in this round. -/
def Paid (n : Nat) (s : Scan) : Prop := n ≤ taken s.cursors ∨ n ≤ taken s.cursors + 1 ∧ s.Due

theorem Paid.le_taken {n : Nat} {s : Scan} (h : s.Paid n) (hstage : ∀ t i, s.stage ≠ .visit t i) :
    n ≤ taken s.cursors := by
  rcases h with h | ⟨_, t, i, _, _, hvisit, _⟩
  · exact h
  · exact absurd hvisit (hstage t i)

/-- At the beginning of a round an element is due. -/
theorem due_of_earliest? {s : Scan} {t : Int} (ht : s.earliest? = some t) :
    Due { s with stage := .visit t 0, rounds := s.rounds + 1 } := by
  have hm := List.min?_mem ht
  simp only [List.mem_map, List.mem_filter] at hm
  obtain ⟨cur, ⟨hcur, hdone⟩, rfl⟩ := hm
  obtain ⟨j, hj⟩ := List.mem_iff_getElem?.1 hcur
  exact ⟨_, 0, j, cur, rfl, Nat.zero_le j, hj, by simpa using hdone, Int.le_refl _⟩

end Scan

namespace Context

variable {c : Context} {b : Block}

theorem taken_set {cursors : List Cursor} {i : Nat} {cur cur' : Cursor} (h : cursors[i]? = some cur)
    (hindex : cur'.index = cur.index + 1) : taken (cursors.set i cur') = taken cursors + 1 := by
  induction cursors generalizing i with
  | nil => cases h
  | cons first cursors ih =>
    cases i with
    | zero =>
      cases h
      simp only [List.set_cons_zero, taken]
      omega
    | succ i =>
      have := ih h
      simp only [List.set_cons_succ, taken]
      omega

/-- What is paid stays paid: the round does not end before the element that is due is taken. -/
theorem Move.paid {n : Nat} {s s' : Scan} (hs : c.Consistent b s) (hpaid : s.Paid n)
    (h : c.Move b s (.ok s')) : s'.Paid n := by
  cases h with
  | finish hstage _ => exact .inl (hpaid.le_taken (by simp [hstage]))
  | begin hstage _ => exact .inl (hpaid.le_taken (by simp [hstage]))
  | @pass t i channel cur hstage _ hcur hskip =>
    refine hpaid.imp id fun ⟨hn, t', i', j, cur', hstage', hij, hcur', hdone, hclock⟩ => ⟨hn, ?_⟩
    rw [hstage] at hstage'
    obtain ⟨rfl, rfl⟩ := Stage.visit.inj hstage'
    have hne : i ≠ j := by
      rintro rfl
      obtain rfl := Option.some.inj (hcur.symm.trans hcur')
      rcases hskip with hskip | hskip
      · rw [hdone] at hskip
        cases hskip
      · omega
    exact ⟨t, i + 1, j, cur', rfl, by omega, hcur', hdone, hclock⟩
  | emit _ _ hcur _ _ _ =>
    left
    dsimp only
    rw [taken_set hcur rfl]
    rcases hpaid with hpaid | ⟨hpaid, _⟩ <;> omega
  | turn hstage hi =>
    left
    rcases hpaid with hpaid | ⟨_, t', i', j, cur', hstage', hij, hcur', _⟩
    · exact hpaid
    · rw [hstage] at hstage'
      obtain ⟨rfl, rfl⟩ := Stage.visit.inj hstage'
      have hlen := List.getElem?_eq_none_iff.1 hi
      obtain ⟨hlt, _⟩ := List.getElem?_eq_some_iff.1 hcur'
      rw [List.Forall₂.length_eq hs] at hlen
      omega
  | rest _ => exact hpaid

/-- Every round is paid by an element. -/
theorem Move.paid_rounds {s s' : Scan} (hs : c.Consistent b s) (hpaid : s.Paid s.rounds)
    (h : c.Move b s (.ok s')) : s'.Paid s'.rounds := by
  have hkept := h.paid hs hpaid
  cases h with
  | begin hstage ht =>
    exact .inr ⟨Nat.succ_le_succ (hpaid.le_taken (by simp [hstage])), Scan.due_of_earliest? ht⟩
  | _ => exact hkept

/-- The number of elements on the channels. -/
def elementCount (c : Context) (b : Block) : Nat := (c.channels.flatMap b.on).length

theorem taken_le_of_tracks {channels : List Channel} {cursors : List Cursor}
    (h : List.Forall₂ (c.Tracks b) channels cursors) :
    taken cursors ≤ (channels.flatMap b.on).length ∧
      ((∃ cur ∈ cursors, cur.done = false) → taken cursors < (channels.flatMap b.on).length) := by
  induction h with
  | nil => exact ⟨Nat.le_refl _, fun ⟨_, hcur, _⟩ => by cases hcur⟩
  | @cons channel cur channels cursors htracks _ ih =>
    obtain ⟨hle, hlt⟩ := ih
    have hindex := htracks.index_le
    rw [List.flatMap_cons, List.length_append, taken]
    refine ⟨by omega, fun ⟨cur', hcur', hdone⟩ => ?_⟩
    rcases List.mem_cons.1 hcur' with rfl | hcur'
    · have hne : cur'.index ≠ (b.on channel).length := by
        intro heq
        rw [htracks.done_iff.2 heq] at hdone
        cases hdone
      omega
    · have := hlt ⟨cur', hcur', hdone⟩
      omega

/-- No more than the elements of the channels can be paid. -/
theorem Consistent.paid_le {n : Nat} {s : Scan} (hs : c.Consistent b s) (h : s.Paid n) :
    n ≤ c.elementCount b := by
  obtain ⟨hle, hlt⟩ := taken_le_of_tracks hs
  rcases h with h | ⟨h, _, _, _, cur, _, _, hcur, hdone, _⟩
  · exact Nat.le_trans h hle
  · exact Nat.le_trans h (hlt ⟨cur, List.mem_of_getElem? hcur, hdone⟩)

/-- The merge has taken `k` steps, of which every round has a test, a visit of each channel and its end. -/
def Aged (c : Context) (k : Nat) (s : Scan) : Prop :=
  match s.stage with
  | .test => k = s.rounds * (c.channels.length + 2)
  | .visit _ i =>
    k + (c.channels.length + 1) = s.rounds * (c.channels.length + 2) + i ∧ i ≤ c.channels.length
  | .finished => s.rounds * (c.channels.length + 2) < k

theorem Move.aged {k : Nat} {s s' : Scan} (hage : c.Aged k s) (h : c.Move b s (.ok s')) :
    c.Aged (k + 1) s' := by
  cases h with
  | finish hstage _ =>
    simp only [Aged, hstage] at hage ⊢
    omega
  | begin hstage _ =>
    simp only [Aged, hstage, Nat.add_mul] at hage ⊢
    omega
  | pass hstage hchannel _ _ | emit hstage hchannel _ _ _ _ =>
    have := (List.getElem?_eq_some_iff.1 hchannel).1
    simp only [Aged, hstage] at hage ⊢
    omega
  | turn hstage hi =>
    have := List.getElem?_eq_none_iff.1 hi
    simp only [Aged, hstage] at hage ⊢
    omega
  | rest hstage =>
    simp only [Aged, hstage] at hage ⊢
    omega

/-- A merge that is not finished has not taken more steps than its rounds have. -/
theorem Aged.le {k : Nat} {s : Scan} (h : c.Aged k s) (hstage : s.stage ≠ .finished) :
    k ≤ s.rounds * (c.channels.length + 2) := by
  unfold Aged at h
  split at h
  · omega
  · omega
  · contradiction

/-- A merge that has taken the steps of `n` rounds, and has begun no fewer, is at the next test. -/
theorem Aged.test {n : Nat} {s : Scan} (h : c.Aged (n * (c.channels.length + 2)) s) (hn : n ≤ s.rounds) :
    s.stage = .test ∧ s.rounds = n := by
  obtain ⟨m, hm⟩ := Nat.exists_eq_add_of_le hn
  unfold Aged at h
  rw [hm, Nat.add_mul] at h
  have hmore : m = 0 ∨ c.channels.length + 2 ≤ m * (c.channels.length + 2) :=
    (Nat.eq_zero_or_pos m).imp id (Nat.le_mul_of_pos_left _)
  split at h
  · rename_i hstage
    exact ⟨hstage, by omega⟩
  · rcases hmore with rfl | hmore <;> omega
  · omega

theorem Move.rounds_le {s s' : Scan} (h : c.Move b s (.ok s')) : s.rounds ≤ s'.rounds := by
  cases h with
  | begin _ _ => exact Nat.le_succ _
  | _ => exact Nat.le_refl _

/-- **Every round takes an element.** -/
theorem round_takes {s : Scan} (hs : c.Consistent b s) (hstage : s.stage = .test)
    (hpending : ∃ cur ∈ s.cursors, cur.done = false) :
    (∃ t, s.earliest? = some t) ∧
      ∀ s', c.steps b (c.channels.length + 2) s = .ok s' →
        s'.stage = .test ∧ s'.rounds = s.rounds + 1 ∧ taken s.cursors < taken s'.cursors := by
  obtain ⟨t, ht⟩ := Scan.exists_earliest? hpending
  have hall : ¬ s.cursors.all (·.done) = true := by simpa using hpending
  have hbegin : c.step b s = .ok { s with stage := .visit t 0, rounds := s.rounds + 1 } := by
    simp only [step, hstage, if_neg hall, ht]
  refine ⟨⟨t, ht⟩, fun s' h => ?_⟩
  obtain ⟨s₁, hs₁, h⟩ := steps_succ_eq_ok.1 h
  have hmove := move_of_step hs hs₁
  have hage : c.Aged (s.rounds * (c.channels.length + 2)) s := by simp only [Aged, hstage]
  obtain rfl := Except.ok.inj (hbegin.symm.trans hs₁)
  -- one element more than before is due when the round begins, and taken when it is over
  obtain ⟨_, hage', hrounds, hpaid⟩ := steps_keep
    (P := fun k s' => c.Aged k s' ∧ s.rounds + 1 ≤ s'.rounds ∧ s'.Paid (taken s.cursors + 1))
    (fun _ _ _ hs ⟨hage, hrounds, hpaid⟩ hmove =>
      ⟨hmove.aged hage, Nat.le_trans hrounds hmove.rounds_le, hmove.paid hs hpaid⟩)
    (hmove.consistent hs)
    ⟨hmove.aged hage, Nat.le_refl _, .inr ⟨Nat.le_refl _, Scan.due_of_earliest? ht⟩⟩ h
  have hsteps : s.rounds * (c.channels.length + 2) + 1 + (c.channels.length + 1) =
      (s.rounds + 1) * (c.channels.length + 2) := by
    rw [Nat.add_mul]
    omega
  rw [hsteps] at hage'
  obtain ⟨htest, hround⟩ := hage'.test hrounds
  exact ⟨htest, hround, hpaid.le_taken (by simp [htest])⟩

end Context

end PulseSequencer
