/-!
# Bit fields of integers

A `Field` is a run of bits of an integer of any size. A negative integer is read in two's complement.

* `Field.get` — reads a field.
* `Field.put` — an integer with a value in the field and zeros elsewhere; high bits of the value are
  dropped.
* `Field.join` — values side by side, each in its own field.
* `Field.get_put_add`, `Field.get_put_add_of_le` — a field does not notice what stands below it, nor what
  stands above it.
* `Field.get_join` — what is put into a field beside others is read back, up to the width of the field.
-/

namespace PulseSequencer

structure Field where
  offset : Nat
  width : Nat
  deriving DecidableEq, Repr

namespace Field

/-- The number of values of a field. -/
def size (f : Field) : Nat := 1 <<< f.width

/-- What the lowest bit of a field counts. -/
def weight (f : Field) : Nat := 1 <<< f.offset

/-- The largest value of a field. -/
def top (f : Field) : Nat := f.size - 1

/-- Reads a field. -/
def get (f : Field) (x : Int) : Nat := (x / f.weight % f.size).toNat

/-- The low bits of `v` in the field, zeros elsewhere. -/
def put (f : Field) (v : Int) : Nat := (v % f.size).toNat * f.weight

/-- Reads a flag of one bit. -/
def getFlag (f : Field) (x : Int) : Bool := f.get x == 1

/-- Values side by side, each in its own field. -/
def join : List (Field × Int) → Nat
  | [] => 0
  | (f, v) :: rest => f.put v + join rest

/-- Fields from the highest to the lowest, all of them below bit `k`. -/
def Stacked (k : Nat) : List Field → Bool
  | [] => true
  | f :: fs => f.offset + f.width ≤ k && Stacked f.offset fs

theorem size_pos (f : Field) : 0 < f.size := Nat.shiftLeft_pos_iff.2 Nat.one_pos

theorem weight_pos (f : Field) : 0 < f.weight := Nat.shiftLeft_pos_iff.2 Nat.one_pos

theorem size_mul_weight_le {f : Field} {k : Nat} (h : f.offset + f.width ≤ k) :
    f.size * f.weight ≤ 1 <<< k := by
  rw [size, weight, Nat.one_shiftLeft, Nat.one_shiftLeft, Nat.one_shiftLeft, ← Nat.pow_add, Nat.add_comm]
  exact Nat.pow_le_pow_right (by decide) h

/-- A field above another counts multiples of all that the other holds. -/
theorem exists_weight_eq {f g : Field} (h : g.offset + g.width ≤ f.offset) :
    ∃ n, f.weight = g.weight * (g.size * n) := by
  obtain ⟨k, hk⟩ := Nat.exists_eq_add_of_le h
  refine ⟨1 <<< k, ?_⟩
  rw [weight, weight, size, hk, Nat.one_shiftLeft, Nat.one_shiftLeft, Nat.one_shiftLeft, Nat.one_shiftLeft,
    Nat.pow_add, Nat.pow_add, Nat.mul_assoc]

/-- What a field holds of a value. -/
theorem emod_bounds (f : Field) (v : Int) : 0 ≤ v % f.size ∧ v % f.size < f.size := by
  have h := f.size_pos
  exact ⟨Int.emod_nonneg v (by omega), Int.emod_lt_of_pos v (by omega)⟩

theorem get_lt (f : Field) (x : Int) : f.get x < f.size := by
  have h := f.emod_bounds (x / f.weight)
  unfold get
  omega

theorem put_zero (f : Field) : f.put 0 = 0 := by simp [put]

/-- A field takes no more of a value than it holds. -/
theorem put_emod (f : Field) (v : Int) : f.put (v % f.size) = f.put v := by
  rw [put, Int.emod_emod, put]

/-- A field is read over whatever stands below it. -/
theorem get_put_add (f : Field) (v : Int) {low : Nat} (h : low < f.weight) :
    (f.get (f.put v + low : Nat) : Int) = v % f.size := by
  obtain ⟨hnonneg, hlt⟩ := f.emod_bounds v
  obtain ⟨n, hn⟩ := Int.eq_ofNat_of_zero_le hnonneg
  rw [hn] at hlt ⊢
  have hdiv : (n * f.weight + low) / f.weight = n := by
    rw [Nat.add_comm, Nat.add_mul_div_right low n f.weight_pos, Nat.div_eq_of_lt h, Nat.zero_add]
  rw [get, put, hn, Int.toNat_natCast, ← Int.natCast_ediv, hdiv, Int.emod_eq_of_lt (by omega) hlt,
    Int.toNat_natCast]

/-- A field is read below whatever stands above it. -/
theorem get_put_add_of_le {f g : Field} (h : g.offset + g.width ≤ f.offset) (v : Int) (low : Nat) :
    g.get (f.put v + low : Nat) = g.get low := by
  obtain ⟨n, hn⟩ := exists_weight_eq h
  have hput : f.put v = g.weight * (g.size * (n * (v % f.size).toNat)) := by
    rw [put, hn, Nat.mul_comm, Nat.mul_assoc, Nat.mul_assoc]
  have hdiv : (f.put v + low) / g.weight = g.size * (n * (v % f.size).toNat) + low / g.weight := by
    rw [hput, Nat.add_comm, Nat.add_mul_div_left _ _ g.weight_pos, Nat.add_comm]
  rw [get, get, ← Int.natCast_ediv, ← Int.natCast_ediv, ← Int.natCast_emod, ← Int.natCast_emod, hdiv,
    Nat.mul_add_mod]

theorem join_append (vs vs' : List (Field × Int)) : join (vs ++ vs') = join vs + join vs' := by
  induction vs with
  | nil => exact (Nat.zero_add _).symm
  | cons x vs ih => rw [List.cons_append, join, ih, join, Nat.add_assoc]

/-- Fields side by side use no bits but their own. -/
theorem join_lt {k : Nat} {vs : List (Field × Int)} (h : Stacked k (vs.map Prod.fst)) :
    join vs < 1 <<< k := by
  induction vs generalizing k with
  | nil => exact Nat.shiftLeft_pos_iff.2 Nat.one_pos
  | cons x vs ih =>
    obtain ⟨f, v⟩ := x
    simp only [List.map_cons, Stacked, Bool.and_eq_true, decide_eq_true_eq] at h
    obtain ⟨hk, hrest⟩ := h
    have hlow : join vs < f.weight := ih hrest
    obtain ⟨hnonneg, hlt⟩ := f.emod_bounds v
    have hhigh : (v % f.size).toNat + 1 ≤ f.size := by omega
    calc
      join ((f, v) :: vs) < (v % f.size).toNat * f.weight + f.weight := Nat.add_lt_add_left hlow _
      _ = ((v % f.size).toNat + 1) * f.weight := by rw [Nat.add_mul, Nat.one_mul]
      _ ≤ f.size * f.weight := Nat.mul_le_mul_right _ hhigh
      _ ≤ 1 <<< k := size_mul_weight_le hk

theorem le_of_mem_stacked {k : Nat} {fs : List Field} (h : Stacked k fs) {f : Field} (hf : f ∈ fs) :
    f.offset + f.width ≤ k := by
  induction fs generalizing k with
  | nil => cases hf
  | cons g fs ih =>
    simp only [Stacked, Bool.and_eq_true, decide_eq_true_eq] at h
    rcases List.mem_cons.1 hf with rfl | hf
    · exact h.1
    · have := ih h.2 hf
      omega

/-- **What is put into a field beside others is read back**, up to the width of the field. -/
theorem get_join {k : Nat} {vs : List (Field × Int)} (h : Stacked k (vs.map Prod.fst)) {f : Field}
    {v : Int} (hv : (f, v) ∈ vs) : (f.get (join vs) : Int) = v % f.size := by
  induction vs generalizing k with
  | nil => cases hv
  | cons x vs ih =>
    simp only [List.map_cons, Stacked, Bool.and_eq_true, decide_eq_true_eq] at h
    rcases List.mem_cons.1 hv with rfl | hv
    · exact f.get_put_add v (join_lt h.2)
    · rw [join, get_put_add_of_le (le_of_mem_stacked h.2 (List.mem_map_of_mem hv)), ih h.2 hv]

/-- A flag is read as the bit that was put. -/
theorem getFlag_join {k : Nat} {vs : List (Field × Int)} (h : Stacked k (vs.map Prod.fst)) {f : Field}
    (hf : f.width = 1) {b : Bool} (hb : (f, b.toInt) ∈ vs) : f.getFlag (join vs) = b := by
  have hget := get_join h hb
  have hsize : f.size = 2 := by rw [size, hf]; rfl
  rw [hsize] at hget
  unfold getFlag
  cases b with
  | false =>
    rw [beq_eq_false_iff_ne]
    simp only [Bool.toInt_false] at hget
    omega
  | true =>
    rw [beq_iff_eq]
    simp only [Bool.toInt_true] at hget
    omega

end Field

end PulseSequencer
