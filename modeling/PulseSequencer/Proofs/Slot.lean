import PulseSequencer.Schedule

/-!
# Places in a stream

The items of several lanes are put into one stream by their places. The place of an item is its start,
its ordinal among the items of its lane that start at the same time, and the position of its lane.

* `Slot` — an item and its place; `Slot.Before` — the lexicographic order of places.
* `startOf`, `ordinalOf` — start and ordinal, read off the durations of a lane.
* `laneSlots` — the slots of a lane.
* `sorted` — slots in the order of their places; `eq_sorted` — slots that are listed strictly in order
  are sorted, so the order is unique.
* `laneSlots_eq_runSlots` — the slots of a lane can be found in one walk that carries the clock and
  the ordinal, provided that no duration is negative.
-/

namespace PulseSequencer

/-- An item and its place. -/
structure Slot (α : Type) where
  /-- When the item starts, in quanta. -/
  start : Int
  /-- How many items of the lane start at the same time and come earlier. -/
  ordinal : Nat
  /-- The position of the lane. -/
  position : Nat
  item : α
  deriving DecidableEq, Repr

variable {α : Type}

namespace Slot

/-- The place of `a` is before that of `b`: by start, then by ordinal, then by position. -/
def Before (a b : Slot α) : Prop :=
  a.start < b.start ∨ a.start = b.start ∧
    (a.ordinal < b.ordinal ∨ a.ordinal = b.ordinal ∧ a.position < b.position)

instance (a b : Slot α) : Decidable (Before a b) :=
  inferInstanceAs (Decidable (_ ∨ _ ∧ (_ ∨ _ ∧ _)))

def notAfter (a b : Slot α) : Bool := !decide (Before b a)

/-- The places differ. -/
def Apart (a b : Slot α) : Prop := Before a b ∨ Before b a

theorem Before.asymm {a b : Slot α} (h : Before a b) : ¬ Before b a := by
  unfold Before at *
  omega

theorem Before.start_le {a b : Slot α} (h : Before a b) : a.start ≤ b.start := by
  unfold Before at h
  omega

theorem notAfter_iff {a b : Slot α} : notAfter a b = true ↔ ¬ Before b a := by
  simp [notAfter]

theorem notAfter_trans {a b c : Slot α} (hab : notAfter a b = true) (hbc : notAfter b c = true) :
    notAfter a c = true := by
  rw [notAfter_iff] at *
  unfold Before at *
  omega

theorem notAfter_total (a b : Slot α) : (notAfter a b || notAfter b a) = true := by
  rw [Bool.or_eq_true, notAfter_iff, notAfter_iff]
  unfold Before
  omega

theorem before_of_apart {a b : Slot α} (hle : notAfter a b = true) (h : Apart a b) : Before a b := by
  rcases h with h | h
  · exact h
  · exact absurd h (notAfter_iff.1 hle)

end Slot

open Slot

/-! ## Slots in order -/

/-- Slots in the order of their places. -/
def sorted (slots : List (Slot α)) : List (Slot α) := slots.mergeSort notAfter

theorem sorted_nil : sorted ([] : List (Slot α)) = [] := List.mergeSort_nil

theorem sorted_perm (slots : List (Slot α)) : (sorted slots).Perm slots := List.mergeSort_perm _ _

/-- Slots with different places are strictly in order once they are sorted. -/
theorem sorted_pairwise {slots : List (Slot α)} (h : slots.Pairwise Apart) :
    (sorted slots).Pairwise Before := by
  have hle : (sorted slots).Pairwise (fun a b => notAfter a b = true) := by
    apply List.pairwise_mergeSort
    · intro a b c
      exact notAfter_trans
    · exact notAfter_total
  have hne : (sorted slots).Pairwise Apart :=
    ((sorted_perm slots).pairwise_iff (fun h => h.symm)).2 h
  exact (hle.and hne).imp fun h => before_of_apart h.1 h.2

theorem apart_of_before {slots : List (Slot α)} (h : slots.Pairwise Before) :
    slots.Pairwise Apart := h.imp Or.inl

/-- **A strictly ordered list of slots is the sorted one.** -/
theorem eq_sorted {order slots : List (Slot α)} (hp : order.Perm slots)
    (ho : order.Pairwise Before) : order = sorted slots := by
  have ha : slots.Pairwise Apart := (hp.pairwise_iff (fun h => h.symm)).1 (apart_of_before ho)
  have hanti : ∀ a b, a ∈ order → b ∈ sorted slots → Before a b → Before b a → a = b :=
    fun a b _ _ hab hba => absurd hba hab.asymm
  exact List.Perm.eq_of_pairwise hanti ho (sorted_pairwise ha) (hp.trans (sorted_perm slots).symm)

/-! ## The slots of a lane -/

/-- When the `j`-th item starts: the sum of the durations of the earlier ones. -/
def startOf : List Int → Nat → Int
  | d :: durations, j + 1 => d + startOf durations j
  | _, _ => 0

/-- How many items before the `j`-th start when it does. -/
def ordinalOf (durations : List Int) (j : Nat) : Nat :=
  (List.range j).countP fun i => startOf durations i == startOf durations j

/-- The slots of the items of a lane. -/
def laneSlots (duration : α → Int) (position : Nat) (items : List α) : List (Slot α) :=
  items.mapIdx fun j a =>
    ⟨startOf (items.map duration) j, ordinalOf (items.map duration) j, position, a⟩

/-- The slots of a lane from a clock and an ordinal on. An item that takes no time leaves the clock
where it is and is counted; any other starts the count afresh. -/
def runSlots (duration : α → Int) (position : Nat) : Int → Nat → List α → List (Slot α)
  | _, _, [] => []
  | clock, ordinal, a :: as =>
    ⟨clock, ordinal, position, a⟩ ::
      runSlots duration position (clock + duration a) (if duration a = 0 then ordinal + 1 else 0) as

theorem startOf_zero (durations : List Int) : startOf durations 0 = 0 := by
  cases durations <;> rfl

/-- Beyond the last item nothing is added. -/
theorem startOf_add_one (durations : List Int) (j : Nat) :
    startOf durations (j + 1) = startOf durations j + (durations[j]?).getD 0 := by
  induction durations generalizing j with
  | nil => rfl
  | cons d durations ih =>
    cases j with
    | zero => simp [startOf, startOf_zero]
    | succ j =>
      have := ih j
      simp only [startOf, List.getElem?_cons_succ]
      omega

/-- Where a lane stands depends on the items before only. -/
theorem startOf_take {durations : List Int} {i j : Nat} (h : i ≤ j) :
    startOf (durations.take j) i = startOf durations i := by
  induction durations generalizing i j with
  | nil => rw [List.take_nil]
  | cons d durations ih =>
    cases i with
    | zero => rw [startOf_zero, startOf_zero]
    | succ i =>
      cases j with
      | zero => omega
      | succ j => rw [List.take_succ_cons, startOf, startOf, ih (by omega)]

theorem ordinalOf_take (durations : List Int) (j : Nat) :
    ordinalOf (durations.take j) j = ordinalOf durations j := by
  unfold ordinalOf
  apply List.countP_congr
  intro i hi
  rw [startOf_take (Nat.le_of_lt (List.mem_range.1 hi)), startOf_take (Nat.le_refl j)]

theorem startOf_succ {durations : List Int} {j : Nat} {d : Int} (h : durations[j]? = some d) :
    startOf durations (j + 1) = startOf durations j + d := by
  rw [startOf_add_one, h]
  rfl

/-- Starts do not decrease along a lane. -/
theorem startOf_mono {durations : List Int} (hd : ∀ d ∈ durations, 0 ≤ d) {i j : Nat} (hij : i ≤ j) :
    startOf durations i ≤ startOf durations j := by
  induction hij with
  | refl => exact Int.le_refl _
  | @step j _ ih =>
    rw [startOf_add_one]
    cases hj : durations[j]? with
    | none => simpa using ih
    | some d =>
      have := hd d (List.mem_of_getElem? hj)
      rw [Option.getD_some]
      omega

/-- The ordinal counts on through items that take no time and starts afresh after any other. -/
theorem ordinalOf_succ {durations : List Int} (hd : ∀ d ∈ durations, 0 ≤ d) {j : Nat} {d : Int}
    (h : durations[j]? = some d) :
    ordinalOf durations (j + 1) = if d = 0 then ordinalOf durations j + 1 else 0 := by
  unfold ordinalOf
  rw [List.range_succ, List.countP_append, startOf_succ h]
  split
  · rename_i h0
    simp [h0]
  · rename_i h0
    have hpos := hd d (List.mem_of_getElem? h)
    have hlt : ∀ i ∈ List.range j, ¬ (startOf durations i == startOf durations j + d) = true := by
      intro i hi heq
      have := startOf_mono hd (Nat.le_of_lt (List.mem_range.1 hi))
      have := beq_iff_eq.1 heq
      omega
    have hself : ¬ startOf durations j = startOf durations j + d := by omega
    rw [List.countP_eq_zero.2 hlt]
    simp [hself]

/-- One walk along the lane finds the slots that are still to come. -/
theorem runSlots_eq_mapIdx {duration : α → Int} {position : Nat} (items : List α)
    (hd : ∀ a ∈ items, 0 ≤ duration a) :
    ∀ (rest done : List α), items = done ++ rest →
      runSlots duration position (startOf (items.map duration) done.length)
          (ordinalOf (items.map duration) done.length) rest =
        rest.mapIdx fun j a => ⟨startOf (items.map duration) (done.length + j),
          ordinalOf (items.map duration) (done.length + j), position, a⟩ := by
  intro rest
  induction rest with
  | nil => intro done _; rfl
  | cons a rest ih =>
    intro done hitems
    have hnonneg : ∀ d ∈ items.map duration, 0 ≤ d := by
      intro d hd'
      obtain ⟨x, hx, rfl⟩ := List.mem_map.1 hd'
      exact hd x hx
    have hget : (items.map duration)[done.length]? = some (duration a) := by
      rw [hitems]
      simp
    have hstep := ih (done ++ [a]) (by simp [hitems])
    rw [List.length_append, List.length_singleton, startOf_succ hget,
      ordinalOf_succ hnonneg hget] at hstep
    rw [runSlots, hstep, List.mapIdx_cons]
    simp [Nat.add_assoc, Nat.add_comm 1]

/-- **The slots of a lane in one walk.** -/
theorem laneSlots_eq_runSlots {duration : α → Int} {position : Nat} {items : List α}
    (hd : ∀ a ∈ items, 0 ≤ duration a) :
    laneSlots duration position items = runSlots duration position 0 0 items := by
  have h : runSlots duration position (startOf (items.map duration) 0) 0 items = _ :=
    runSlots_eq_mapIdx items hd items [] rfl
  simp only [List.length_nil, Nat.zero_add, startOf_zero] at h
  exact h.symm

/-! ## Order along a lane -/

theorem position_of_mem_runSlots {duration : α → Int} {position : Nat} {as : List α} :
    ∀ {clock : Int} {ordinal : Nat} {s : Slot α},
      s ∈ runSlots duration position clock ordinal as → s.position = position := by
  induction as with
  | nil => intro _ _ _ hs; cases hs
  | cons a as ih =>
    intro clock ordinal s hs
    rcases List.mem_cons.1 hs with rfl | hs
    · rfl
    · exact ih hs

/-- No slot of a walk is before the place where the walk stands. -/
theorem place_of_mem_runSlots {duration : α → Int} {position : Nat} {as : List α}
    (hd : ∀ a ∈ as, 0 ≤ duration a) :
    ∀ {clock : Int} {ordinal : Nat} {s : Slot α}, s ∈ runSlots duration position clock ordinal as →
      clock < s.start ∨ s.start = clock ∧ ordinal ≤ s.ordinal := by
  induction as with
  | nil => intro _ _ _ hs; cases hs
  | cons a as ih =>
    intro clock ordinal s hs
    rcases List.mem_cons.1 hs with rfl | hs
    · exact Or.inr ⟨rfl, Nat.le_refl _⟩
    · have ha := hd a List.mem_cons_self
      have hrest := ih (fun x hx => hd x (List.mem_cons_of_mem _ hx)) hs
      split at hrest <;> omega

/-- The slots of a lane are strictly in order. -/
theorem runSlots_pairwise {duration : α → Int} {position : Nat} {as : List α}
    (hd : ∀ a ∈ as, 0 ≤ duration a) :
    ∀ (clock : Int) (ordinal : Nat), (runSlots duration position clock ordinal as).Pairwise Before := by
  induction as with
  | nil => intro _ _; exact List.Pairwise.nil
  | cons a as ih =>
    intro clock ordinal
    have hd' : ∀ x ∈ as, 0 ≤ duration x := fun x hx => hd x (List.mem_cons_of_mem _ hx)
    have ha := hd a List.mem_cons_self
    refine List.Pairwise.cons ?_ (ih hd' _ _)
    intro s hs
    have hplace := place_of_mem_runSlots hd' hs
    change clock < s.start ∨ clock = s.start ∧
      (ordinal < s.ordinal ∨ ordinal = s.ordinal ∧ position < s.position)
    split at hplace <;> omega

end PulseSequencer
