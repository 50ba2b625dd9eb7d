import Mathlib.Data.List.Basic
import PulseSequencer.Proofs.Emission
import PulseSequencer.Proofs.Slot

/-!
# The stream of a block is its schedule

The rounds of a merge emit the items of all lanes in the order of their places.

* `Track` — a lane under way, with the ordinal of its next item; `trackSlots` — the slots still to come.
* `Aligned` — the invariant of the rounds: the tracks that stand at the current time have the same
  ordinal, and all others are at the start of a new time.
* `sorted_eq_dueSlots_append` — the slots of a round come first among those that are still to come.
* `Context.schedule` — the elements of a block in the order of their places.
* `Context.serialize_words` — the stream, or the fault that prevents it, is that of the schedule.
* `Context.serialize_eq_schedule` — a stream that exists is the schedule, element by element.
-/

namespace PulseSequencer

open Slot

variable {α : Type}

/-! ## Tracks -/

/-- A lane under way, with the ordinal of its next item. -/
structure Track (α : Type) where
  clock : Int
  ordinal : Nat
  pending : List α

namespace Track

def lane (emit : α → Except Fault Emission) (tr : Track α) : Lane :=
  ⟨tr.clock, tr.pending.map emit⟩

/-- The item that a track emits in a round at `t`. -/
def due (t : Int) (tr : Track α) : Option α := if t < tr.clock then none else tr.pending.head?

/-- A track after a round at `t`. -/
def advance (duration : α → Int) (t : Int) (tr : Track α) : Track α :=
  match tr.due t with
  | none => tr
  | some a => ⟨tr.clock + duration a, if duration a = 0 then tr.ordinal + 1 else 0, tr.pending.tail⟩

/-- A track either stays as it is in a round or emits its first item. -/
theorem due_cases (duration : α → Int) (t : Int) (tr : Track α) :
    (tr.due t = none ∧ tr.advance duration t = tr ∧ (tr.pending = [] ∨ t < tr.clock)) ∨
      ∃ a as, tr.pending = a :: as ∧ tr.clock ≤ t ∧ tr.due t = some a ∧
        tr.advance duration t =
          ⟨tr.clock + duration a, if duration a = 0 then tr.ordinal + 1 else 0, as⟩ := by
  obtain ⟨clock, ordinal, pending⟩ := tr
  by_cases ht : t < clock
  · exact Or.inl (by simp [due, advance, ht])
  · cases pending with
    | nil => exact Or.inl (by simp [due, advance])
    | cons a as => exact Or.inr ⟨a, as, by simp [due, advance, ht]; omega⟩

end Track

/-- The slots still to come on tracks, the first of which has position `n`. -/
def trackSlots (duration : α → Int) (n : Nat) (trs : List (Track α)) : List (Slot α) :=
  (trs.zipIdx n).flatMap fun x => runSlots duration x.2 x.1.clock x.1.ordinal x.1.pending

/-- The slots that a round at `t` emits. -/
def dueSlots (t : Int) (n : Nat) (trs : List (Track α)) : List (Slot α) :=
  (trs.zipIdx n).filterMap fun x => (x.1.due t).map (⟨x.1.clock, x.1.ordinal, x.2, ·⟩)

theorem trackSlots_cons (duration : α → Int) (n : Nat) (tr : Track α) (trs : List (Track α)) :
    trackSlots duration n (tr :: trs) =
      runSlots duration n tr.clock tr.ordinal tr.pending ++ trackSlots duration (n + 1) trs := by
  simp [trackSlots]

theorem dueSlots_cons_none {t : Int} {n : Nat} {tr : Track α} {trs : List (Track α)}
    (h : tr.due t = none) : dueSlots t n (tr :: trs) = dueSlots t (n + 1) trs := by
  simp [dueSlots, h]

theorem dueSlots_cons_some {t : Int} {n : Nat} {tr : Track α} {trs : List (Track α)} {a : α}
    (h : tr.due t = some a) :
    dueSlots t n (tr :: trs) = ⟨tr.clock, tr.ordinal, n, a⟩ :: dueSlots t (n + 1) trs := by
  simp [dueSlots, h]

/-- A round emits what is due, in the order of the tracks. -/
theorem round_tracks {emit : α → Except Fault Emission} {duration : α → Int}
    (hdur : ∀ a e, emit a = .ok e → e.duration = duration a) (t : Int) (n : Nat)
    (trs : List (Track α)) :
    round t (trs.map (Track.lane emit)) =
      ((dueSlots t n trs).mapM fun s => emit s.item).map fun es =>
        (es.flatMap (·.words), (trs.map (Track.advance duration t)).map (Track.lane emit)) := by
  induction trs generalizing n with
  | nil => rfl
  | cons tr trs ih =>
    have hrest := ih (n + 1)
    rcases tr.due_cases duration t with ⟨hd, ha, hp⟩ | ⟨a, as, hp, hc, hd, ha⟩
    · rw [List.map_cons, List.map_cons, ha, dueSlots_cons_none hd]
      have hround : round t (tr.lane emit :: trs.map (Track.lane emit)) =
          (round t (trs.map (Track.lane emit))).map fun r => (r.1, tr.lane emit :: r.2) := by
        obtain ⟨clock, ordinal, pending⟩ := tr
        cases pending with
        | nil => cases hr : round t (trs.map (Track.lane emit)) <;> simp [Track.lane, round, hr] <;> rfl
        | cons a as =>
          have hlt : t < clock := by simpa using hp
          cases hr : round t (trs.map (Track.lane emit)) <;> simp [Track.lane, round, hr, hlt] <;> rfl
      rw [hround, hrest]
      cases (dueSlots t (n + 1) trs).mapM fun s => emit s.item <;> rfl
    · rw [List.map_cons, List.map_cons, ha, dueSlots_cons_some hd, List.mapM_cons]
      obtain ⟨clock, ordinal, pending⟩ := tr
      subst hp
      simp only [Track.lane, List.map_cons, round, if_neg (Int.not_lt.2 hc)] at *
      cases he : emit a with
      | error f => rfl
      | ok e =>
        rw [hrest, ← hdur a e he]
        cases (dueSlots t (n + 1) trs).mapM fun s => emit s.item <;> rfl

/-- The slots of a round are among those that were still to come, the others remain. -/
theorem trackSlots_perm (duration : α → Int) (t : Int) (n : Nat) (trs : List (Track α)) :
    (dueSlots t n trs ++ trackSlots duration n (trs.map (Track.advance duration t))).Perm
      (trackSlots duration n trs) := by
  induction trs generalizing n with
  | nil => exact List.Perm.refl _
  | cons tr trs ih =>
    rw [List.map_cons, trackSlots_cons, trackSlots_cons]
    rcases tr.due_cases duration t with ⟨hd, ha, _⟩ | ⟨a, as, hp, _, hd, ha⟩
    · rw [dueSlots_cons_none hd, ha]
      exact (List.perm_append_comm_assoc _ _ _).trans ((ih (n + 1)).append_left _)
    · rw [dueSlots_cons_some hd, ha, hp, runSlots, List.cons_append, List.cons_append]
      exact ((List.perm_append_comm_assoc _ _ _).trans ((ih (n + 1)).append_left _)).cons _

/-! ## The invariant of the rounds -/

/-- No pending item is before `t`, those at `t` have ordinal `k`, and those after it ordinal zero. -/
def Aligned (t : Int) (k : Nat) (trs : List (Track α)) : Prop :=
  ∀ tr ∈ trs, tr.pending ≠ [] → tr.clock = t ∧ tr.ordinal = k ∨ t < tr.clock ∧ tr.ordinal = 0

/-- No item takes a negative time. -/
def Forward (duration : α → Int) (trs : List (Track α)) : Prop :=
  ∀ tr ∈ trs, ∀ a ∈ tr.pending, 0 ≤ duration a

theorem Forward.advance {duration : α → Int} {trs : List (Track α)} (h : Forward duration trs)
    (t : Int) : Forward duration (trs.map (Track.advance duration t)) := by
  intro tr' htr' a ha
  obtain ⟨tr, htr, rfl⟩ := List.mem_map.1 htr'
  rcases tr.due_cases duration t with ⟨_, hadv, _⟩ | ⟨x, as, hp, _, _, hadv⟩
  · rw [hadv] at ha
    exact h tr htr a ha
  · rw [hadv] at ha
    exact h tr htr a (by rw [hp]; exact List.mem_cons_of_mem _ ha)

/-- A round counts the tracks that stay at its time by one. -/
theorem Aligned.advance {duration : α → Int} {t : Int} {k : Nat} {trs : List (Track α)}
    (h : Aligned t k trs) (hf : Forward duration trs) :
    Aligned t (k + 1) (trs.map (Track.advance duration t)) := by
  intro tr' htr' hne
  obtain ⟨tr, htr, rfl⟩ := List.mem_map.1 htr'
  rcases tr.due_cases duration t with ⟨_, hadv, hp⟩ | ⟨a, as, hp, hc, _, hadv⟩
  · rw [hadv] at hne ⊢
    have := h tr htr hne
    rcases hp with hp | hp
    · exact absurd hp hne
    · omega
  · have hstand := h tr htr (by simp [hp])
    have hnonneg := hf tr htr a (by simp [hp])
    rw [hadv]
    dsimp only
    split <;> omega

theorem le_clock_of_nextStart {lanes : List Lane} {t : Int} (h : nextStart lanes = some t) :
    ∀ l ∈ lanes, l.pending ≠ [] → t ≤ l.clock := by
  intro l hl hp
  refine (List.min?_eq_some_iff.1 h).2 l.clock ?_
  exact List.mem_map.2 ⟨l, List.mem_filter.2 ⟨hl, by simpa using hp⟩, rfl⟩

/-- The tracks are aligned at the time of the next round. -/
theorem Aligned.next {emit : α → Except Fault Emission} {t t' : Int} {k : Nat}
    {trs : List (Track α)} (h : Aligned t k trs)
    (hs : nextStart (trs.map (Track.lane emit)) = some t') : ∃ k', Aligned t' k' trs := by
  have hle : ∀ tr ∈ trs, tr.pending ≠ [] → t' ≤ tr.clock := fun tr htr hne =>
    le_clock_of_nextStart hs _ (List.mem_map_of_mem htr) (by simpa [Track.lane] using hne)
  obtain ⟨l, hl, hne, hc⟩ := exists_of_nextStart hs
  obtain ⟨tr₀, htr₀, rfl⟩ := List.mem_map.1 hl
  have h₀ := h tr₀ htr₀ (by simpa [Track.lane] using hne)
  change tr₀.clock ≤ t' at hc
  by_cases ht : t' = t
  · exact ⟨k, ht ▸ h⟩
  · refine ⟨0, fun tr htr hp => ?_⟩
    have := h tr htr hp
    have := hle tr htr hp
    omega

/-! ## The order of the rounds -/

theorem le_position_of_mem_trackSlots {duration : α → Int} {trs : List (Track α)} :
    ∀ {n : Nat} {s : Slot α}, s ∈ trackSlots duration n trs → n ≤ s.position := by
  induction trs with
  | nil => intro _ _ hs; cases hs
  | cons tr trs ih =>
    intro n s hs
    rw [trackSlots_cons] at hs
    rcases List.mem_append.1 hs with hs | hs
    · exact Nat.le_of_eq (position_of_mem_runSlots hs).symm
    · exact Nat.le_of_succ_le (ih hs)

theorem apart_of_position_ne {a b : Slot α} (h : a.position ≠ b.position) : Apart a b := by
  unfold Apart Before
  omega

theorem trackSlots_apart {duration : α → Int} {trs : List (Track α)} (hf : Forward duration trs)
    (n : Nat) : (trackSlots duration n trs).Pairwise Apart := by
  induction trs generalizing n with
  | nil => exact List.Pairwise.nil
  | cons tr trs ih =>
    rw [trackSlots_cons, List.pairwise_append]
    refine ⟨apart_of_before (runSlots_pairwise (hf tr List.mem_cons_self) _ _),
      ih (fun x hx => hf x (List.mem_cons_of_mem _ hx)) (n + 1), ?_⟩
    intro a ha b hb
    have := position_of_mem_runSlots ha
    have := le_position_of_mem_trackSlots hb
    exact apart_of_position_ne (by omega)

/-- No slot still to come is before the place where the tracks stand. -/
theorem place_of_mem_trackSlots {duration : α → Int} {t : Int} {k : Nat} {trs : List (Track α)}
    (ha : Aligned t k trs) (hf : Forward duration trs) :
    ∀ {n : Nat} {s : Slot α}, s ∈ trackSlots duration n trs →
      t < s.start ∨ s.start = t ∧ k ≤ s.ordinal := by
  induction trs with
  | nil => intro _ _ hs; cases hs
  | cons tr trs ih =>
    intro n s hs
    rw [trackSlots_cons] at hs
    rcases List.mem_append.1 hs with hs | hs
    · have hne : tr.pending ≠ [] := by
        intro hp
        rw [hp] at hs
        cases hs
      have hstand := ha tr List.mem_cons_self hne
      have hplace := place_of_mem_runSlots (hf tr List.mem_cons_self) hs
      omega
    · exact ih (fun x hx => ha x (List.mem_cons_of_mem _ hx))
        (fun x hx => hf x (List.mem_cons_of_mem _ hx)) hs

/-- The slots of a round have one time and one ordinal. -/
theorem place_of_mem_dueSlots {t : Int} {k : Nat} {trs : List (Track α)} (ha : Aligned t k trs) :
    ∀ {n : Nat} {s : Slot α}, s ∈ dueSlots t n trs → s.start = t ∧ s.ordinal = k ∧ n ≤ s.position := by
  induction trs with
  | nil => intro _ _ hs; cases hs
  | cons tr trs ih =>
    intro n s hs
    have hrest : ∀ {s : Slot α}, s ∈ dueSlots t (n + 1) trs →
        s.start = t ∧ s.ordinal = k ∧ n ≤ s.position := by
      intro s hs
      have := ih (fun x hx => ha x (List.mem_cons_of_mem _ hx)) hs
      exact ⟨this.1, this.2.1, by omega⟩
    rcases tr.due_cases (fun _ => 0) t with ⟨hd, _, _⟩ | ⟨a, as, hp, hc, hd, _⟩
    · rw [dueSlots_cons_none hd] at hs
      exact hrest hs
    · rw [dueSlots_cons_some hd] at hs
      rcases List.mem_cons.1 hs with rfl | hs
      · have hstand := ha tr List.mem_cons_self (by simp [hp])
        exact ⟨by dsimp only; omega, by dsimp only; omega, Nat.le_refl _⟩
      · exact hrest hs

theorem dueSlots_pairwise {t : Int} {k : Nat} {trs : List (Track α)} (ha : Aligned t k trs) :
    ∀ n : Nat, (dueSlots t n trs).Pairwise Before := by
  induction trs with
  | nil => intro _; exact List.Pairwise.nil
  | cons tr trs ih =>
    intro n
    have ha' : Aligned t k trs := fun x hx => ha x (List.mem_cons_of_mem _ hx)
    rcases tr.due_cases (fun _ => 0) t with ⟨hd, _, _⟩ | ⟨a, as, hp, hc, hd, _⟩
    · rw [dueSlots_cons_none hd]
      exact ih ha' (n + 1)
    · rw [dueSlots_cons_some hd]
      refine List.Pairwise.cons ?_ (ih ha' (n + 1))
      intro s hs
      have hplace := place_of_mem_dueSlots ha' hs
      have hstand := ha tr List.mem_cons_self (by simp [hp])
      change tr.clock < s.start ∨ tr.clock = s.start ∧
        (tr.ordinal < s.ordinal ∨ tr.ordinal = s.ordinal ∧ n < s.position)
      omega

/-- **The slots of a round come first among those that are still to come.** -/
theorem sorted_eq_dueSlots_append {duration : α → Int} {t : Int} {k : Nat} {trs : List (Track α)}
    (ha : Aligned t k trs) (hf : Forward duration trs) (n : Nat) :
    sorted (trackSlots duration n trs) =
      dueSlots t n trs ++ sorted (trackSlots duration n (trs.map (Track.advance duration t))) := by
  symm
  apply eq_sorted
  · exact ((sorted_perm _).append_left _).trans (trackSlots_perm duration t n trs)
  · rw [List.pairwise_append]
    refine ⟨dueSlots_pairwise ha n, sorted_pairwise (trackSlots_apart (hf.advance t) n), ?_⟩
    intro a hdue b hlater
    have hnow := place_of_mem_dueSlots ha hdue
    have hthen := place_of_mem_trackSlots (ha.advance hf) (hf.advance t)
      ((sorted_perm _).mem_iff.1 hlater)
    unfold Before
    omega

/-- Nothing is to come on tracks without pending items. -/
theorem trackSlots_eq_nil_of_nextStart {emit : α → Except Fault Emission} {duration : α → Int}
    {trs : List (Track α)} (hs : nextStart (trs.map (Track.lane emit)) = none) (n : Nat) :
    trackSlots duration n trs = [] := by
  have hidle : ∀ tr ∈ trs, tr.pending = [] := by
    intro tr htr
    unfold nextStart at hs
    rw [List.min?_eq_none_iff, List.map_eq_nil_iff, List.filter_eq_nil_iff] at hs
    simpa [Track.lane] using hs _ (List.mem_map_of_mem htr)
  unfold trackSlots
  rw [List.flatMap_eq_nil_iff]
  intro x hx
  rw [hidle x.1 (List.fst_mem_of_mem_zipIdx hx)]
  rfl

/-- **The rounds emit the slots in order.** The merge and the walk along the sorted slots give the
same words or the same fault. -/
theorem merge_tracks {emit : α → Except Fault Emission} {duration : α → Int}
    (hdur : ∀ a e, emit a = .ok e → e.duration = duration a) {t : Int} {k : Nat}
    {trs : List (Track α)} (ha : Aligned t k trs) (hf : Forward duration trs) (n : Nat) :
    (merge (trs.map (Track.lane emit))).map (fun r => r.1.flatten) =
      ((sorted (trackSlots duration n trs)).mapM fun s => emit s.item).map
        (fun es => es.flatMap (·.words)) := by
  generalize hlanes : trs.map (Track.lane emit) = lanes
  fun_induction merge lanes generalizing trs t k with
  | case1 lanes hs =>
    subst hlanes
    rw [trackSlots_eq_nil_of_nextStart hs, sorted_nil]
    rfl
  | case2 lanes t' hs f hr =>
    subst hlanes
    obtain ⟨k', ha'⟩ := ha.next hs
    rw [round_tracks hdur t' n] at hr
    rw [sorted_eq_dueSlots_append ha' hf, List.mapM_append]
    cases hm : (dueSlots t' n trs).mapM fun s => emit s.item with
    | error g =>
      rw [hm] at hr
      cases hr
      rfl
    | ok es =>
      rw [hm] at hr
      cases hr
  | case3 lanes t' hs words rest hr _ ih =>
    subst hlanes
    obtain ⟨k', ha'⟩ := ha.next hs
    rw [round_tracks hdur t' n] at hr
    rw [sorted_eq_dueSlots_append ha' hf, List.mapM_append]
    cases hm : (dueSlots t' n trs).mapM fun s => emit s.item with
    | error g =>
      rw [hm] at hr
      cases hr
    | ok es =>
      rw [hm] at hr
      cases hr
      have hrec := ih (ha'.advance hf) (hf.advance t') rfl
      calc
        _ = ((merge ((trs.map (Track.advance duration t')).map (Track.lane emit))).map
              fun r => r.1.flatten).map (es.flatMap (·.words) ++ ·) := by
            cases merge ((trs.map (Track.advance duration t')).map (Track.lane emit)) <;> rfl
        _ = _ := by
            rw [hrec]
            cases (sorted (trackSlots duration n (trs.map (Track.advance duration t')))).mapM
              fun s => emit s.item with
            | error f => rfl
            | ok later => exact congrArg Except.ok List.flatMap_append.symm

/-! ## The schedule of a block -/

/-- An element of a block: where it is played, its index there, and what it is. -/
structure Occurrence where
  channel : Channel
  index : Nat
  entry : Entry

/-- The elements of a block on a channel. -/
def Block.occurrences (b : Block) (channel : Channel) : List Occurrence :=
  (b.on channel).mapIdx fun j e => ⟨channel, j, e⟩

theorem Block.mem_occurrences {b : Block} {channel : Channel} {o : Occurrence}
    (h : o ∈ b.occurrences channel) :
    o.channel = channel ∧ (b.on channel)[o.index]? = some o.entry := by
  obtain ⟨j, hj, rfl⟩ := List.mem_mapIdx.1 h
  exact ⟨rfl, List.getElem?_eq_getElem hj⟩

namespace Context

/-- What an element becomes. -/
def emission (c : Context) (o : Occurrence) : Except Fault Emission := c.element o.channel o.entry

/-- The elements of a channel with their places. -/
def channelSlots (c : Context) (b : Block) (channel : Channel) (position : Nat) :
    List (Slot Occurrence) :=
  laneSlots (fun o => c.duration o.entry) position (b.occurrences channel)

/-- The elements of a block with their places. -/
def slots (c : Context) (b : Block) : List (Slot Occurrence) :=
  c.channels.zipIdx.flatMap fun x => c.channelSlots b x.1 x.2

/-- The elements of a block in the order of their places. -/
def schedule (c : Context) (b : Block) : List (Slot Occurrence) := sorted (c.slots b)

/-- No record that the block needs has a negative count. -/
def Counted (c : Context) (b : Block) : Prop :=
  ∀ channel ∈ c.channels, ∀ p, Entry.pulse p ∈ b.on channel →
    ∀ r, c.library.record p = .ok r → 0 ≤ r.count

theorem Counted.duration_nonneg {c : Context} {b : Block} (h : c.Counted b) {channel : Channel}
    (hc : channel ∈ c.channels) : ∀ o ∈ b.occurrences channel, 0 ≤ c.duration o.entry := by
  intro o ho
  have hm := List.mem_of_getElem? (Block.mem_occurrences ho).2
  cases he : o.entry with
  | pulse p =>
    cases hr : c.library.find? p.uid with
    | none => simp [duration, hr]
    | some r =>
      have := h channel hc p (he ▸ hm) r (Library.record_eq_ok.2 hr)
      simp only [duration, hr, Option.map_some, Option.getD_some]
      omega
  | _ => exact Int.le_refl 0

/-- The lanes of a block at its start. -/
def tracks (c : Context) (b : Block) : List (Track Occurrence) :=
  c.channels.map fun channel => ⟨0, 0, b.occurrences channel⟩

theorem tracks_lanes (c : Context) (b : Block) :
    (c.tracks b).map (Track.lane c.emission) = c.channels.map (c.lane b) := by
  unfold tracks
  rw [List.map_map]
  apply List.map_congr_left
  intro channel _
  have hlist : (b.occurrences channel).map c.emission = (b.on channel).map (c.element channel) := by
    apply List.ext_getElem?
    intro j
    simp [Block.occurrences, emission, Function.comp_def]
  simp only [Function.comp_apply, Track.lane, lane, hlist]

theorem trackSlots_tracks {c : Context} {b : Block} (h : c.Counted b) :
    trackSlots (fun o : Occurrence => c.duration o.entry) 0 (c.tracks b) = c.slots b := by
  unfold trackSlots tracks slots channelSlots
  rw [List.zipIdx_map, List.flatMap_map]
  apply List.flatMap_congr
  intro x hx
  exact (laneSlots_eq_runSlots (h.duration_nonneg (List.fst_mem_of_mem_zipIdx hx))).symm

theorem tracks_aligned (c : Context) (b : Block) : Aligned 0 0 (c.tracks b) := by
  intro tr htr _
  obtain ⟨channel, _, rfl⟩ := List.mem_map.1 htr
  exact Or.inl ⟨rfl, rfl⟩

theorem Counted.forward {c : Context} {b : Block} (h : c.Counted b) :
    Forward (fun o : Occurrence => c.duration o.entry) (c.tracks b) := by
  intro tr htr
  obtain ⟨channel, hc, rfl⟩ := List.mem_map.1 htr
  exact h.duration_nonneg hc

/-- **The stream of a block, or the fault that prevents it, is that of its schedule.** -/
theorem serialize_words {c : Context} {b : Block} (h : c.Counted b) :
    (c.serialize b).map (·.words) =
      ((c.schedule b).mapM fun s => c.emission s.item).map (·.flatMap (·.words)) := by
  have hdur : ∀ o e, c.emission o = .ok e → e.duration = c.duration o.entry :=
    fun _ _ he => element_duration he
  have hmerge := merge_tracks hdur (c.tracks_aligned b) h.forward 0
  rw [tracks_lanes, trackSlots_tracks h] at hmerge
  unfold schedule
  rw [← hmerge]
  unfold serialize
  cases merge (c.channels.map (c.lane b)) <;> rfl

theorem channelSlots_pairwise {c : Context} {b : Block} (h : c.Counted b) {channel : Channel}
    (hc : channel ∈ c.channels) (position : Nat) :
    (c.channelSlots b channel position).Pairwise Before := by
  unfold channelSlots
  rw [laneSlots_eq_runSlots (h.duration_nonneg hc)]
  exact runSlots_pairwise (h.duration_nonneg hc) 0 0

theorem position_of_mem_channelSlots {c : Context} {b : Block} {channel : Channel} {position : Nat}
    {s : Slot Occurrence} (hs : s ∈ c.channelSlots b channel position) : s.position = position := by
  obtain ⟨j, _, rfl⟩ := List.mem_mapIdx.1 hs
  rfl

/-- The slots at a position are those of the channel there. -/
theorem filter_slots (c : Context) (b : Block) :
    ∀ (channels : List Channel) (n i : Nat) (channel : Channel), channels[i]? = some channel →
      ((channels.zipIdx n).flatMap fun x => c.channelSlots b x.1 x.2).filter (·.position == n + i) =
        c.channelSlots b channel (n + i) := by
  intro channels
  induction channels with
  | nil => intro n i channel h; cases h
  | cons first channels ih =>
    intro n i channel h
    rw [List.zipIdx_cons, List.flatMap_cons, List.filter_append]
    cases i with
    | zero =>
      obtain rfl : first = channel := by simpa using h
      have hhere : (c.channelSlots b first n).filter (·.position == n) = c.channelSlots b first n :=
        List.filter_eq_self.2 fun s hs => by simp [position_of_mem_channelSlots hs]
      have hlater : ((channels.zipIdx (n + 1)).flatMap fun x => c.channelSlots b x.1 x.2).filter
          (·.position == n) = [] := by
        refine List.filter_eq_nil_iff.2 fun s hs => ?_
        obtain ⟨x, hx, hs⟩ := List.mem_flatMap.1 hs
        have := List.le_snd_of_mem_zipIdx hx
        rw [position_of_mem_channelSlots hs, beq_iff_eq]
        omega
      simp only [Nat.add_zero, hhere, hlater, List.append_nil]
    | succ i =>
      have hhere : (c.channelSlots b first n).filter (·.position == n + (i + 1)) = [] := by
        refine List.filter_eq_nil_iff.2 fun s hs => ?_
        rw [position_of_mem_channelSlots hs, beq_iff_eq]
        omega
      have hlater := ih (n + 1) i channel (by simpa using h)
      rw [Nat.add_assoc, Nat.add_comm 1 i] at hlater
      rw [hhere, hlater, List.nil_append]

theorem schedule_pairwise {c : Context} {b : Block} (h : c.Counted b) :
    (c.schedule b).Pairwise Before := by
  unfold schedule
  rw [← trackSlots_tracks h]
  exact sorted_pairwise (trackSlots_apart h.forward 0)

/-- The schedule keeps the order of each channel. -/
theorem filter_schedule {c : Context} {b : Block} (h : c.Counted b) {position : Nat}
    {channel : Channel} (hc : c.channels[position]? = some channel) :
    (c.schedule b).filter (·.position == position) = c.channelSlots b channel position := by
  have hslots : (c.slots b).filter (·.position == position) = c.channelSlots b channel position := by
    have := c.filter_slots b c.channels 0 position channel hc
    rwa [Nat.zero_add] at this
  have hperm : ((c.schedule b).filter (·.position == position)).Perm
      (c.channelSlots b channel position) := hslots ▸ (sorted_perm (c.slots b)).filter _
  rw [eq_sorted hperm ((schedule_pairwise h).filter _)]
  exact (eq_sorted (List.Perm.refl _) (channelSlots_pairwise h (List.mem_of_getElem? hc) position)).symm

/-- An element of a channel at its place. -/
def slotAt (c : Context) (b : Block) (position : Nat) (o : Occurrence) : Slot Occurrence :=
  ⟨startOf ((b.on o.channel).map c.duration) o.index, ordinalOf ((b.on o.channel).map c.duration) o.index,
    position, o⟩

theorem channelSlots_eq (c : Context) (b : Block) (channel : Channel) (position : Nat) :
    c.channelSlots b channel position =
      (b.on channel).mapIdx fun j e => c.slotAt b position ⟨channel, j, e⟩ := by
  have hdurations : (b.occurrences channel).map (fun o => c.duration o.entry) =
      (b.on channel).map c.duration := by
    apply List.ext_getElem?
    intro i
    simp [Block.occurrences, Function.comp_def]
  unfold channelSlots laneSlots
  rw [hdurations, Block.occurrences, List.mapIdx_mapIdx]
  rfl

/-- The schedule holds every element of every channel at its place, and nothing else. -/
theorem mem_schedule_iff {c : Context} {b : Block} {s : Slot Occurrence} :
    s ∈ c.schedule b ↔ c.channels[s.position]? = some s.item.channel ∧
      (b.on s.item.channel)[s.item.index]? = some s.item.entry ∧ s = c.slotAt b s.position s.item := by
  rw [schedule, (sorted_perm _).mem_iff, slots, List.mem_flatMap]
  constructor
  · rintro ⟨⟨channel, position⟩, hx, hs⟩
    rw [channelSlots_eq] at hs
    obtain ⟨j, hj, rfl⟩ := List.mem_mapIdx.1 hs
    exact ⟨List.mem_zipIdx_iff_getElem?.1 hx, List.getElem?_eq_getElem hj, rfl⟩
  · rintro ⟨hc, he, hs⟩
    refine ⟨(s.item.channel, s.position), List.mem_zipIdx_iff_getElem?.2 hc, ?_⟩
    obtain ⟨hlt, hentry⟩ := List.getElem?_eq_some_iff.1 he
    rw [channelSlots_eq]
    exact List.mem_mapIdx.2 ⟨s.item.index, hlt, by rw [hentry]; exact hs.symm⟩

/-- The schedule holds the elements of the channels. -/
theorem exists_mem_schedule {c : Context} {b : Block} {channel : Channel} {e : Entry} :
    (∃ s ∈ c.schedule b, s.item.channel = channel ∧ s.item.entry = e) ↔
      channel ∈ c.channels ∧ e ∈ b.on channel := by
  constructor
  · rintro ⟨s, hs, rfl, rfl⟩
    obtain ⟨hchannel, hentry, _⟩ := mem_schedule_iff.1 hs
    exact ⟨List.mem_of_getElem? hchannel, List.mem_of_getElem? hentry⟩
  · rintro ⟨hc, he⟩
    obtain ⟨i, hi⟩ := List.mem_iff_getElem?.1 hc
    obtain ⟨j, hj⟩ := List.mem_iff_getElem?.1 he
    exact ⟨c.slotAt b i ⟨channel, j, e⟩, mem_schedule_iff.2 ⟨hi, hj, rfl⟩, rfl, rfl⟩

/-- When a slot of the schedule starts. -/
theorem start_of_mem_schedule {c : Context} {b : Block} {s : Slot Occurrence}
    (hs : s ∈ c.schedule b) :
    s.item.channel ∈ c.channels ∧
      s.start = startOf ((b.on s.item.channel).map c.duration) s.item.index := by
  obtain ⟨hchannel, _, hplace⟩ := mem_schedule_iff.1 hs
  exact ⟨List.mem_of_getElem? hchannel, congrArg Slot.start hplace⟩

/-- A stream is made of the words of its schedule. -/
theorem serialize_eq_ok {c : Context} {b : Block} {s : Stream} (hcount : c.Counted b)
    (h : c.serialize b = .ok s) :
    ∃ emissions, (c.schedule b).mapM (fun x => c.emission x.item) = .ok emissions ∧
      s.words = emissions.flatMap (·.words) := by
  have hwords := serialize_words hcount
  rw [h] at hwords
  obtain ⟨emissions, hm, hflat⟩ := map_eq_ok.1 hwords.symm
  exact ⟨emissions, hm, hflat.symm⟩

/-- The stream of a block is made of the words of its elements. -/
theorem serialize_emissions {c : Context} {b : Block} {s : Stream} (hcount : c.Counted b)
    (h : c.serialize b = .ok s) :
    ∃ emissions : List Emission, s.words = emissions.flatMap (·.words) ∧
      (∀ em ∈ emissions, ∃ channel ∈ c.channels, ∃ e ∈ b.on channel, c.element channel e = .ok em) ∧
      ∀ channel ∈ c.channels, ∀ e ∈ b.on channel, ∃ em ∈ emissions, c.element channel e = .ok em := by
  obtain ⟨emissions, hm, hwords⟩ := serialize_eq_ok hcount h
  refine ⟨emissions, hwords, ?_, ?_⟩
  · intro em hem
    obtain ⟨x, hx, hxem⟩ := exists_of_mem_mapM hm hem
    obtain ⟨hc, he⟩ := exists_mem_schedule.1 ⟨x, hx, rfl, rfl⟩
    exact ⟨x.item.channel, hc, x.item.entry, he, hxem⟩
  · intro channel hc e he
    obtain ⟨x, hx, rfl, rfl⟩ := exists_mem_schedule.2 ⟨hc, he⟩
    exact exists_of_mapM_eq_ok hm hx

/-- **The stream of a block is its schedule.** The words are those of all elements, each once and in
one piece, by start, then by ordinal, then by position. Each channel keeps its order, and starts do not
decrease. -/
theorem serialize_eq_schedule {c : Context} {b : Block} {s : Stream} (hcount : c.Counted b)
    (h : c.serialize b = .ok s) :
    (∃ emissions, (c.schedule b).mapM (fun x => c.emission x.item) = .ok emissions ∧
        s.words = emissions.flatMap (·.words)) ∧
      (c.schedule b).Perm (c.slots b) ∧
      (c.schedule b).Pairwise Before ∧
      (∀ position channel, c.channels[position]? = some channel →
        (c.schedule b).filter (·.position == position) = c.channelSlots b channel position) ∧
      (c.schedule b).Pairwise (fun x y => x.start ≤ y.start) := by
  have hpairwise := schedule_pairwise hcount
  exact ⟨serialize_eq_ok hcount h, sorted_perm _, hpairwise, fun _ _ => filter_schedule hcount,
    hpairwise.imp Before.start_le⟩

/-- Two channels, with a waveform of two quanta and a marker of one. -/
def twoLanes : Context where
  library := .ofList [(0, .waveform ⟨0, 1, false⟩), (1, .marker ⟨1, true, 0, 15⟩)]
  channels := [.analog "q" 0.0 0, .marker "m"]
  carrier := 0.0
  settings := {}

/-- A frame change and two waveforms beside three markers. -/
def twoLaneBlock : Block := .ofList
  [(.analog "q" 0.0 0, .frame ⟨0.25, "Z"⟩ ::
      List.replicate 2 (.pulse { uid := 0, label := "a", length := 0.0 })),
    (.marker "m", List.replicate 3 (.pulse { uid := 1, label := "b", length := 0.0 }))]

theorem twoLanes_counted (b : Block) : twoLanes.Counted b := by
  intro channel _ p _ r hr
  have hall : ∀ e ∈ twoLanes.library.entries, 0 ≤ e.2.count := by decide
  obtain ⟨e, he, rfl⟩ := Option.map_eq_some_iff.1 (Library.record_eq_ok.1 hr)
  exact hall e (List.mem_of_find?_eq_some he)

theorem serialize_eq_schedule_twoLanes :
    twoLanes.Counted twoLaneBlock ∧
      ∃ s : Stream, twoLanes.serialize twoLaneBlock = .ok s ∧ s.words.length = 8 ∧
        (∃ emissions, (twoLanes.schedule twoLaneBlock).mapM (fun x => twoLanes.emission x.item) =
          .ok emissions ∧ s.words = emissions.flatMap (·.words)) ∧
        (twoLanes.schedule twoLaneBlock).Perm (twoLanes.slots twoLaneBlock) ∧
        (twoLanes.schedule twoLaneBlock).Pairwise Before := by
  refine ⟨twoLanes_counted _, ?_⟩
  have hlen : (twoLanes.serialize twoLaneBlock).toOption.map (·.words.length) = some 8 := by
    decide +kernel
  obtain ⟨s, h, hs⟩ := exists_of_toOption hlen
  have hall := serialize_eq_schedule (twoLanes_counted _) h
  exact ⟨s, h, hs, hall.1, hall.2.1, hall.2.2.1⟩

end Context

end PulseSequencer
