import PulseSequencer.Encoder

/-!
# Computations that succeed

What a computation that came to its end says about its parts: a result `.ok` of a sequence of steps is
taken apart step by step. The lemmas on encoders also say what each step does to the session.

* `bind_eq_ok`, `mapM_eq_ok_iff`, `checkRange_eq_ok` — results; `bind_eq_error`, `mapM_eq_error_iff`,
  `checkRange_eq_error` — faults.
* `FirstFault` — the first member of a list that fails.
* `Encoder.bind_eq_ok`, `Encoder.allocate_eq_ok` and the other steps of an encoder.
* `Encoder.forM_invariant` — what every step of a loop keeps, the whole loop keeps.
-/

namespace PulseSequencer

variable {α β : Type}

/-! ## Results -/

theorem bind_eq_ok {x : Except Fault α} {f : α → Except Fault β} {b : β} :
    x >>= f = .ok b ↔ ∃ a, x = .ok a ∧ f a = .ok b := by
  cases x <;> simp [bind, Except.bind]

theorem bind_eq_error {x : Except Fault α} {f : α → Except Fault β} {e : Fault} :
    x >>= f = .error e ↔ x = .error e ∨ ∃ a, x = .ok a ∧ f a = .error e := by
  cases x <;> simp [bind, Except.bind]

theorem map_eq_ok {x : Except Fault α} {f : α → β} {b : β} :
    x.map f = .ok b ↔ ∃ a, x = .ok a ∧ f a = b := by
  cases x <;> simp [Except.map]

theorem map_eq_error {x : Except Fault α} {f : α → β} {e : Fault} :
    x.map f = .error e ↔ x = .error e := by
  cases x <;> simp [Except.map]

theorem pure_eq_ok {a b : α} : (pure a : Except Fault α) = .ok b ↔ a = b := by
  simp [pure, Except.pure]

theorem pure_ne_error {a : α} {e : Fault} : (pure a : Except Fault α) ≠ .error e := by
  intro h
  cases h

theorem checkRange_eq_ok {q : Quantity} {value limit minimum n : Int} :
    checkRange q value limit minimum = .ok n ↔ n = value ∧ minimum ≤ value ∧ value ≤ limit := by
  unfold checkRange
  split
  · rename_i h
    simp [h, eq_comm]
  · rename_i h
    simp [h]

theorem checkRange_eq_error {q : Quantity} {value limit minimum : Int} {f : Fault} :
    checkRange q value limit minimum = .error f ↔
      (value < minimum ∨ limit < value) ∧ f = .outOfRange q value limit minimum := by
  unfold checkRange
  split
  · rename_i h
    have : ¬ (value < minimum ∨ limit < value) := by omega
    simp [this]
  · rename_i h
    have : value < minimum ∨ limit < value := by omega
    simp [this, eq_comm]

/-- What is made of a value that was checked. -/
theorem checkRange_then_eq_ok {q : Quantity} {value limit minimum : Int} {g : Int → α} {a : α} :
    (do return g (← checkRange q value limit minimum)) = .ok a ↔
      (minimum ≤ value ∧ value ≤ limit) ∧ g value = a := by
  rw [bind_eq_ok]
  constructor
  · rintro ⟨n, hn, ha⟩
    obtain ⟨rfl, hrange⟩ := checkRange_eq_ok.1 hn
    exact ⟨hrange, pure_eq_ok.1 ha⟩
  · rintro ⟨hrange, rfl⟩
    exact ⟨value, checkRange_eq_ok.2 ⟨rfl, hrange⟩, rfl⟩

theorem checkRange_then_eq_error {q : Quantity} {value limit minimum : Int} {g : Int → α} {f : Fault} :
    (do return g (← checkRange q value limit minimum)) = .error f ↔
      (value < minimum ∨ limit < value) ∧ f = .outOfRange q value limit minimum := by
  rw [bind_eq_error, checkRange_eq_error]
  constructor
  · rintro (h | ⟨_, _, h⟩)
    · exact h
    · cases h
  · exact Or.inl

/-- A list of results is a result if every one is. -/
theorem mapM_eq_ok_iff {f : α → Except Fault β} {as : List α} {bs : List β} :
    as.mapM f = .ok bs ↔ as.length = bs.length ∧
      ∀ (i : Nat) (a : α) (b : β), as[i]? = some a → bs[i]? = some b → f a = .ok b := by
  induction as generalizing bs with
  | nil => cases bs <;> simp [pure, Except.pure]
  | cons a as ih =>
    rw [List.mapM_cons, bind_eq_ok]
    constructor
    · rintro ⟨b, hb, h⟩
      obtain ⟨bs', hbs, h⟩ := bind_eq_ok.1 h
      obtain rfl := pure_eq_ok.1 h
      obtain ⟨hlen, hget⟩ := ih.1 hbs
      refine ⟨by simp [hlen], ?_⟩
      intro i x y hx hy
      cases i with
      | zero => simp_all
      | succ i => exact hget i x y (by simpa using hx) (by simpa using hy)
    · rintro ⟨hlen, hget⟩
      cases bs with
      | nil => cases hlen
      | cons b bs =>
        have hrest : as.mapM f = .ok bs := ih.2 ⟨by simpa using hlen, fun i x y hx hy =>
          hget (i + 1) x y (by simpa using hx) (by simpa using hy)⟩
        exact ⟨b, hget 0 a b rfl rfl, by rw [hrest]; rfl⟩

/-- Every member of a list whose results exist has a result. -/
theorem exists_of_mapM_eq_ok {f : α → Except Fault β} {as : List α} {bs : List β}
    (h : as.mapM f = .ok bs) {a : α} (ha : a ∈ as) : ∃ b ∈ bs, f a = .ok b := by
  obtain ⟨hlen, hget⟩ := mapM_eq_ok_iff.1 h
  obtain ⟨i, hi⟩ := List.mem_iff_getElem?.1 ha
  have hlt : i < bs.length := hlen ▸ (List.getElem?_eq_some_iff.1 hi).1
  exact ⟨bs[i], List.getElem_mem hlt, hget i a bs[i] hi (List.getElem?_eq_getElem hlt)⟩

/-- Every result is that of a member. -/
theorem exists_of_mem_mapM {f : α → Except Fault β} {as : List α} {bs : List β}
    (h : as.mapM f = .ok bs) {b : β} (hb : b ∈ bs) : ∃ a ∈ as, f a = .ok b := by
  obtain ⟨hlen, hget⟩ := mapM_eq_ok_iff.1 h
  obtain ⟨i, hi⟩ := List.mem_iff_getElem?.1 hb
  have hlt : i < as.length := hlen.symm ▸ (List.getElem?_eq_some_iff.1 hi).1
  exact ⟨as[i], List.getElem_mem hlt, hget i as[i] b (List.getElem?_eq_getElem hlt) hi⟩

/-- If every member of a list has a result, so has the list. -/
theorem mapM_of_forall {f : α → Except Fault β} {as : List α} (h : ∀ a ∈ as, ∃ b, f a = .ok b) :
    ∃ bs, as.mapM f = .ok bs := by
  induction as with
  | nil => exact ⟨[], rfl⟩
  | cons a as ih =>
    obtain ⟨b, hb⟩ := h a List.mem_cons_self
    obtain ⟨bs, hbs⟩ := ih fun x hx => h x (List.mem_cons_of_mem _ hx)
    refine ⟨b :: bs, ?_⟩
    rw [List.mapM_cons, hb, hbs]
    rfl

/-- `a` is the first member of `as` for which `f` fails, and it fails with `e`. -/
def FirstFault (f : α → Except Fault β) (as : List α) (a : α) (e : Fault) : Prop :=
  ∃ before after, as = before ++ a :: after ∧ (∀ x ∈ before, ∃ b, f x = .ok b) ∧ f a = .error e

theorem FirstFault.cons {f : α → Except Fault β} {as : List α} {a x : α} {b : β} {e : Fault}
    (hx : f x = .ok b) (h : FirstFault f as a e) : FirstFault f (x :: as) a e := by
  obtain ⟨before, after, rfl, hbefore, ha⟩ := h
  refine ⟨x :: before, after, rfl, ?_, ha⟩
  intro y hy
  rcases List.mem_cons.1 hy with rfl | hy
  · exact ⟨b, hx⟩
  · exact hbefore y hy

theorem FirstFault.mem {f : α → Except Fault β} {as : List α} {a : α} {e : Fault}
    (h : FirstFault f as a e) : a ∈ as := by
  obtain ⟨before, after, rfl, _⟩ := h
  simp

theorem FirstFault.fails {f : α → Except Fault β} {as : List α} {a : α} {e : Fault}
    (h : FirstFault f as a e) : f a = .error e := by
  obtain ⟨_, _, _, _, ha⟩ := h
  exact ha

/-- In a list that is ordered, the first member that fails comes before the others that do. -/
theorem FirstFault.eq_or_rel {f : α → Except Fault β} {as : List α} {a x : α} {e g : Fault}
    {R : α → α → Prop} (h : FirstFault f as a e) (horder : as.Pairwise R) (hx : x ∈ as)
    (hfails : f x = .error g) : x = a ∨ R a x := by
  obtain ⟨before, after, rfl, hbefore, _⟩ := h
  rcases List.mem_append.1 hx with hx | hx
  · obtain ⟨b, hb⟩ := hbefore x hx
    cases hb.symm.trans hfails
  · obtain ⟨_, hrest, _⟩ := List.pairwise_append.1 horder
    exact (List.mem_cons.1 hx).imp_right ((List.pairwise_cons.1 hrest).1 x)

/-- The fault of a list is that of the first member that fails. -/
theorem mapM_eq_error_iff {f : α → Except Fault β} {as : List α} {e : Fault} :
    as.mapM f = .error e ↔ ∃ a, FirstFault f as a e := by
  constructor
  · intro h
    induction as with
    | nil => cases h
    | cons x as ih =>
      rw [List.mapM_cons] at h
      rcases bind_eq_error.1 h with hx | ⟨b, hx, h⟩
      · exact ⟨x, [], as, rfl, (fun y hy => by cases hy), hx⟩
      · rcases bind_eq_error.1 h with hrest | ⟨bs, _, h⟩
        · obtain ⟨a, ha⟩ := ih hrest
          exact ⟨a, ha.cons hx⟩
        · cases h
  · rintro ⟨a, before, after, rfl, hbefore, ha⟩
    obtain ⟨bs, hbs⟩ := mapM_of_forall hbefore
    rw [List.mapM_append, hbs, List.mapM_cons, ha]
    rfl

theorem exists_of_mapM_eq_error {f : α → Except Fault β} {as : List α} {e : Fault}
    (h : as.mapM f = .error e) : ∃ a ∈ as, f a = .error e := by
  obtain ⟨a, ha⟩ := mapM_eq_error_iff.1 h
  exact ⟨a, ha.mem, ha.fails⟩

theorem eq_ok_of_toOption {ε : Type} {x : Except ε α} {a : α} (h : x.toOption = some a) : x = .ok a := by
  cases x with
  | error e => cases h
  | ok b => exact congrArg Except.ok (Option.some.inj h)

/-- A computation whose result has a known property succeeds. -/
theorem exists_of_toOption {ε : Type} {x : Except ε α} {f : α → β} {b : β}
    (h : x.toOption.map f = some b) : ∃ a, x = .ok a ∧ f a = b := by
  cases x with
  | error e => cases h
  | ok a => exact ⟨a, rfl, Option.some.inj h⟩

/-! ## Encoders -/

namespace Encoder

variable {s s' : Session}

theorem bind_eq_ok {x : Encoder α} {f : α → Encoder β} {b : β} :
    (x >>= f) s = .ok b s' ↔ ∃ a t, x s = .ok a t ∧ f a t = .ok b s' := by
  change EStateM.bind x f s = .ok b s' ↔ _
  unfold EStateM.bind
  cases x s with
  | ok a t => simp [and_assoc]
  | error f t => simp

theorem bind_eq_error {x : Encoder α} {f : α → Encoder β} {e : Fault} :
    (x >>= f) s = .error e s' ↔ x s = .error e s' ∨ ∃ a t, x s = .ok a t ∧ f a t = .error e s' := by
  change EStateM.bind x f s = .error e s' ↔ _
  unfold EStateM.bind
  cases x s with
  | ok a t => simp [and_assoc]
  | error f t => simp

theorem pure_eq_ok {a b : α} : (pure a : Encoder α) s = .ok b s' ↔ a = b ∧ s = s' := by
  change EStateM.Result.ok a s = .ok b s' ↔ _
  simp

theorem get_eq_ok {t : Session} : (get : Encoder Session) s = .ok t s' ↔ s = t ∧ s = s' := by
  change EStateM.Result.ok s s = .ok t s' ↔ _
  simp

theorem throw_ne_ok {f : Fault} {a : α} : (throw f : Encoder α) s ≠ .ok a s' := by
  intro h
  cases h

theorem ofExcept_eq_ok {x : Except Fault α} {a : α} :
    ofExcept x s = .ok a s' ↔ x = .ok a ∧ s = s' := by
  cases x with
  | ok b => simpa [ofExcept] using pure_eq_ok
  | error f => simpa [ofExcept] using throw_ne_ok

theorem ofExcept_eq_error {x : Except Fault α} {e : Fault} :
    ofExcept x s = .error e s' ↔ x = .error e ∧ s = s' := by
  cases x with
  | ok b =>
    change EStateM.Result.ok b s = .error e s' ↔ _
    simp
  | error f =>
    change EStateM.Result.error f s = .error e s' ↔ _
    simp

/-- A check and what follows it. -/
theorem check_eq_ok {q : Quantity} {value limit minimum : Int} {next : Int → Encoder α} {a : α} :
    (ofExcept (checkRange q value limit minimum) >>= next) s = .ok a s' ↔
      (minimum ≤ value ∧ value ≤ limit) ∧ next value s = .ok a s' := by
  simp [bind_eq_ok, ofExcept_eq_ok, checkRange_eq_ok, and_assoc]

theorem check_eq_error {q : Quantity} {value limit minimum : Int} {next : Int → Encoder α} {f : Fault} :
    (ofExcept (checkRange q value limit minimum) >>= next) s = .error f s' ↔
      (value < minimum ∨ limit < value) ∧ f = .outOfRange q value limit minimum ∧ s = s' ∨
        (minimum ≤ value ∧ value ≤ limit) ∧ next value s = .error f s' := by
  simp [bind_eq_error, ofExcept_eq_ok, ofExcept_eq_error, checkRange_eq_ok, checkRange_eq_error, and_assoc]

theorem note_eq_ok {e : Event} {u : Unit} :
    note e s = .ok u s' ↔ { s with log := s.log.push e } = s' := by
  change EStateM.Result.ok () _ = .ok u s' ↔ _
  simp

/-- A note that is made only on a condition, and what follows it. -/
theorem note_if_eq_iff {cond : Bool} {e : Event} {next : Unit → Encoder α}
    {r : EStateM.Result Fault Session α} :
    (if cond = true then (do let u ← note e; next u) else next ()) s = r ↔
      next () { s with log := if cond then s.log.push e else s.log } = r := by
  cases cond with
  | false => exact Iff.rfl
  | true => exact Iff.rfl

theorem keep_eq_ok {p : Pulse} {r : Record} {u : Unit} :
    keep p r s = .ok u s' ↔ { s with library := s.library.insert p.uid r } = s' := by
  change EStateM.Result.ok () _ = .ok u s' ↔ _
  simp

/-- An allocation starts where memory ended and appends its cells. -/
theorem allocate_eq_ok {cells : List Cell} {start : Int} :
    allocate cells s = .ok start s' ↔ start = s.memory.size ∧
      0 ≤ s.memory.size + cells.length ∧ s.memory.size + cells.length ≤ Hardware.memoryCapacity ∧
      { s with memory := ⟨s.memory.cells ++ cells, s.memory.size + cells.length⟩ } = s' := by
  constructor
  · intro h
    obtain ⟨t, _, hget, h⟩ := bind_eq_ok.1 h
    obtain ⟨rfl, rfl⟩ := get_eq_ok.1 hget
    obtain ⟨r, _, hok, h⟩ := bind_eq_ok.1 h
    obtain ⟨hr, rfl⟩ := ofExcept_eq_ok.1 hok
    obtain ⟨size, hsize, hr⟩ := PulseSequencer.bind_eq_ok.1 hr
    obtain ⟨rfl, h0, hmax⟩ := checkRange_eq_ok.1 hsize
    obtain rfl := PulseSequencer.pure_eq_ok.1 hr
    obtain ⟨_, _, hset, h⟩ := bind_eq_ok.1 h
    obtain ⟨rfl, rfl⟩ := pure_eq_ok.1 h
    cases hset
    exact ⟨rfl, h0, hmax, rfl⟩
  · rintro ⟨rfl, h0, hmax, rfl⟩
    have hr : s.memory.allocate cells =
        .ok (s.memory.size, ⟨s.memory.cells ++ cells, s.memory.size + cells.length⟩) :=
      PulseSequencer.bind_eq_ok.2 ⟨_, checkRange_eq_ok.2 ⟨rfl, h0, hmax⟩, rfl⟩
    refine bind_eq_ok.2 ⟨s, s, rfl, bind_eq_ok.2 ⟨_, s, ofExcept_eq_ok.2 ⟨hr, rfl⟩, ?_⟩⟩
    rfl

/-- An allocation fails only if memory is too small for it, and changes nothing then. -/
theorem error_of_allocate {cells : List Cell} {f : Fault} (h : allocate cells s = .error f s') :
    (s.memory.size + cells.length < 0 ∨ Hardware.memoryCapacity < s.memory.size + cells.length) ∧
      s = s' := by
  rcases bind_eq_error.1 h with hget | ⟨t, _, hget, h⟩
  · cases hget
  obtain ⟨rfl, rfl⟩ := get_eq_ok.1 hget
  rcases bind_eq_error.1 h with hrun | ⟨_, _, _, h⟩
  · obtain ⟨hroom, rfl⟩ := ofExcept_eq_error.1 hrun
    rcases PulseSequencer.bind_eq_error.1 hroom with hsize | ⟨_, _, hpure⟩
    · exact ⟨(checkRange_eq_error.1 hsize).1, rfl⟩
    · cases hpure
  · rcases bind_eq_error.1 h with hset | ⟨_, _, _, hpure⟩
    · cases hset
    · cases hpure

theorem forM_nil {f : α → Encoder Unit} {u : Unit} :
    ([] : List α).forM f s = .ok u s' ↔ s = s' := by
  change EStateM.Result.ok () s = .ok u s' ↔ _
  simp

theorem forM_cons {f : α → Encoder Unit} {a : α} {as : List α} {u : Unit} :
    (a :: as).forM f s = .ok u s' ↔ ∃ t, f a s = .ok () t ∧ as.forM f t = .ok u s' := by
  change (f a >>= fun _ => as.forM f) s = .ok u s' ↔ _
  rw [bind_eq_ok]
  constructor
  · rintro ⟨_, t, h, h'⟩
    exact ⟨t, h, h'⟩
  · rintro ⟨t, h, h'⟩
    exact ⟨(), t, h, h'⟩

/-- Loops with the same steps are the same. -/
theorem forM_congr {f g : α → Encoder Unit} {as : List α} (h : ∀ a ∈ as, f a = g a) :
    as.forM f = as.forM g := by
  induction as with
  | nil => rfl
  | cons a as ih =>
    change (f a >>= fun _ => as.forM f) = (g a >>= fun _ => as.forM g)
    rw [h a List.mem_cons_self, ih fun x hx => h x (List.mem_cons_of_mem _ hx)]

/-- What every step of a loop keeps, the loop keeps. `I done s` speaks of the members that were
met and of the session. -/
theorem forM_invariant {f : α → Encoder Unit} {I : List α → Session → Prop}
    (step : ∀ done a s t, f a s = .ok () t → I done s → I (done ++ [a]) t) :
    ∀ (as done : List α) {s s' : Session} {u : Unit}, as.forM f s = .ok u s' → I done s →
      I (done ++ as) s' := by
  intro as
  induction as with
  | nil =>
    intro done s s' u h hI
    obtain rfl := forM_nil.1 h
    rwa [List.append_nil]
  | cons a as ih =>
    intro done s s' u h hI
    obtain ⟨t, hstep, h⟩ := forM_cons.1 h
    have := ih (done ++ [a]) h (step done a s t hstep hI)
    rwa [List.append_assoc] at this

/-- What an encoder gives or why it fails, without the session it leaves. -/
def outcome : EStateM.Result Fault Session α → Except Fault α
  | .ok a _ => .ok a
  | .error f _ => .error f

theorem outcome_bind {x : Encoder α} {f : α → Encoder β} {y : Except Fault α} {g : α → Except Fault β}
    (hx : ∀ s, outcome (x s) = y) (hf : ∀ a s, outcome (f a s) = g a) (s : Session) :
    outcome ((x >>= f) s) = y >>= g := by
  change outcome (EStateM.bind x f s) = _
  rw [← hx s]
  unfold EStateM.bind
  cases x s with
  | ok a t => exact hf a t
  | error e t => rfl

theorem outcome_ofExcept (x : Except Fault α) (s : Session) : outcome (ofExcept x s) = x := by
  cases x <;> rfl

/-- Encoders whose outcomes do not depend on the session, one after the other. -/
theorem outcome_mapM {f : α → Encoder β} {g : α → Except Fault β} (hf : ∀ a s, outcome (f a s) = g a)
    (as : List α) (s : Session) : outcome (as.mapM f s) = as.mapM g := by
  induction as generalizing s with
  | nil => rfl
  | cons a as ih =>
    rw [List.mapM_cons, List.mapM_cons]
    refine outcome_bind (hf a) (fun b t => ?_) s
    refine outcome_bind ih (fun bs _ => ?_) t
    rfl

/-- What an encoder gives, if it succeeds. -/
def value? : EStateM.Result Fault Session α → Option α
  | .ok a _ => some a
  | .error _ _ => none

/-- An encoder that gives something with a known property succeeds. -/
theorem exists_of_value? {r : EStateM.Result Fault Session α} {f : α → β} {b : β}
    (h : (value? r).map f = some b) : ∃ a t, r = .ok a t ∧ f a = b := by
  cases r with
  | ok a t => exact ⟨a, t, rfl, Option.some.inj h⟩
  | error e t => cases h

/-- What an encoder gives and the session it leaves, if it succeeds. -/
def result? : EStateM.Result Fault Session α → Option (α × Session)
  | .ok a s => some (a, s)
  | .error _ _ => none

theorem exists_of_result? {r : EStateM.Result Fault Session α} {f : α × Session → β} {b : β}
    (h : (result? r).map f = some b) : ∃ a t, r = .ok a t ∧ f (a, t) = b := by
  cases r with
  | ok a t => exact ⟨a, t, rfl, Option.some.inj h⟩
  | error e t => cases h

end Encoder

end PulseSequencer
