import Mathlib.Algebra.Order.Floor.Ring
import Mathlib.Data.Rat.Floor
import PulseSequencer.Proofs.LevelOrder

/-!
# The float nearest to a quotient

The quotient of two integers is rounded once, to the nearest 64-bit float, a half going to the one with
an even mantissa. Here this is said without the algorithm, by comparison with all other floats, and the
algorithm is shown to do it.

* `roundQuotient_nearest` — no integer is nearer to a quotient than the rounded one.
* `Binary64.Representable` — the finite numbers of 64-bit floats.
* `Binary64.RoundsTo` — a number is rounded to a float.
* `Magnitude.binaryExponent_bounds` — the powers of two on both sides of a quotient.
* `Magnitude.nearest_roundsTo` — `Magnitude.nearest` is the float to which a quotient is rounded.
-/

namespace PulseSequencer

/-! ## Rounding a quotient to the nearest integer -/

theorem abs_sub_roundQuotient_le (num : Nat) {den : Nat} (h : 0 < den) :
    |(num / den : ℚ) - roundQuotient num den| ≤ 1 / 2 := by
  obtain ⟨hlow, hhigh⟩ := roundQuotient_bounds num h
  have hden : (0 : ℚ) < den := by exact_mod_cast h
  have hlow' : (2 * num : ℚ) ≤ 2 * (den * roundQuotient num den) + den := by exact_mod_cast hlow
  have hhigh' : (2 * (den * roundQuotient num den) : ℚ) ≤ 2 * num + den := by exact_mod_cast hhigh
  rw [abs_le, le_sub_iff_add_le, le_div_iff₀ hden, sub_le_iff_le_add, div_le_iff₀ hden]
  constructor <;> linarith

/-- A half goes to the even neighbour. -/
theorem even_roundQuotient {num den : Nat} (h : 0 < den)
    (htie : |(num / den : ℚ) - roundQuotient num den| = 1 / 2) : Even (roundQuotient num den) := by
  have hden : (den : ℚ) ≠ 0 := by exact_mod_cast h.ne'
  have hhalf : 2 * num = 2 * (den * roundQuotient num den) + den ∨
      2 * num + den = 2 * (den * roundQuotient num den) := by
    rcases (abs_eq (by norm_num)).1 htie with hup | hdown
    · left
      field_simp at hup
      have : (2 * num : ℚ) = 2 * (den * roundQuotient num den) + den := by linarith
      exact_mod_cast this
    · right
      field_simp at hdown
      have : (2 * num + den : ℚ) = 2 * (den * roundQuotient num den) := by linarith
      exact_mod_cast this
  have hsplit := Nat.div_add_mod num den
  have hrem := Nat.mod_lt num h
  rw [Nat.even_iff]
  simp only [roundQuotient] at hhalf ⊢
  split at hhalf
  · rename_i hc
    rw [if_pos hc]
    generalize den * (num / den) = s at *
    omega
  · rename_i hc
    rw [if_neg hc]
    rw [Nat.mul_add, Nat.mul_one] at hhalf
    generalize den * (num / den) = s at *
    omega

/-- No integer is nearer to a quotient than the rounded one; if another is as near, that one is even. -/
theorem roundQuotient_nearest (num : Nat) {den : Nat} (h : 0 < den) (n : ℤ) :
    |(num / den : ℚ) - roundQuotient num den| ≤ |(num / den : ℚ) - n| ∧
      (n ≠ roundQuotient num den →
        |(num / den : ℚ) - n| = |(num / den : ℚ) - roundQuotient num den| →
          Even (roundQuotient num den)) := by
  have hhalf := abs_sub_roundQuotient_le num h
  by_cases heq : n = roundQuotient num den
  · subst heq
    exact ⟨le_of_eq (by push_cast; rfl), fun hne => absurd rfl hne⟩
  · have hapart : (1 : ℚ) ≤ |(n : ℚ) - roundQuotient num den| := by
      have : (1 : ℤ) ≤ |n - roundQuotient num den| := Int.one_le_abs (sub_ne_zero.2 heq)
      exact_mod_cast this
    have htriangle := abs_sub_le (n : ℚ) (num / den) (roundQuotient num den)
    rw [abs_sub_comm (n : ℚ) (num / den)] at htriangle
    exact ⟨by linarith, fun _ hsame => even_roundQuotient h (by linarith)⟩

/-! ## Numbers of 64-bit floats -/

namespace Binary64

/-- The finite numbers of 64-bit floats: mantissas of 53 bits on a spacing from `2 ^ (-1074)` to
`2 ^ 971`. -/
def Representable (q : ℚ) : Prop :=
  ∃ m e : ℤ, |m| < 2 ^ 53 ∧ -1074 ≤ e ∧ e ≤ 971 ∧ q = m * 2 ^ e

/-- The mantissa is even when all its bits are used or the spacing is the least one. -/
def HasEvenMantissa (q : ℚ) : Prop :=
  ∃ m e : ℤ, Even m ∧ |m| < 2 ^ 53 ∧ (2 ^ 52 ≤ |m| ∨ e = -1074) ∧ -1074 ≤ e ∧ q = m * 2 ^ e

/-- `q` is the 64-bit float to which `x` is rounded: none is nearer, and if another is as near, `q` is
the one with an even mantissa. -/
structure RoundsTo (x q : ℚ) : Prop where
  representable : Representable q
  nearest : ∀ y, Representable y → |x - q| ≤ |x - y|
  even : ∀ y, Representable y → y ≠ q → |x - y| = |x - q| → HasEvenMantissa q

end Binary64

namespace Magnitude

open Binary64

/-- A quotient measured by a power of two. -/
theorem scaled_quotient (num den : Nat) (e : Int) :
    ((num <<< (-e).toNat : Nat) : ℚ) / (den <<< e.toNat : Nat) = num / den / 2 ^ e := by
  rw [cast_shiftLeft, cast_shiftLeft]
  cases e with
  | ofNat n => simp [div_div]
  | negSucc n =>
    rw [Int.toNat_negSucc, Int.neg_negSucc, zpow_negSucc]
    simp only [Int.toNat_natCast]
    field_simp

/-- The exponent of a quotient. -/
theorem binaryExponent_bounds {num den : Nat} (hnum : 0 < num) (hden : 0 < den) :
    (2 : ℚ) ^ binaryExponent num den ≤ num / den ∧ (num / den : ℚ) < 2 ^ (binaryExponent num den + 1) := by
  have hden' : (0 : ℚ) < den := by exact_mod_cast hden
  have htwo : (2 : ℚ) ≠ 0 := by norm_num
  have hnumLow : (2 : ℚ) ^ (num.log2 : ℤ) ≤ num := by
    exact_mod_cast Nat.log2_self_le hnum.ne'
  have hnumHigh : (num : ℚ) < 2 ^ ((num.log2 : ℤ) + 1) := by
    exact_mod_cast Nat.lt_log2_self (n := num)
  have hdenLow : (2 : ℚ) ^ (den.log2 : ℤ) ≤ den := by
    exact_mod_cast Nat.log2_self_le hden.ne'
  have hdenHigh : (den : ℚ) < 2 ^ ((den.log2 : ℤ) + 1) := by
    exact_mod_cast Nat.lt_log2_self (n := den)
  -- the difference of the two logarithms is the exponent or one more
  have hlow : (2 : ℚ) ^ ((num.log2 : ℤ) - den.log2 - 1) ≤ num / den := by
    rw [le_div_iff₀ hden']
    calc
      (2 : ℚ) ^ ((num.log2 : ℤ) - den.log2 - 1) * den
          ≤ 2 ^ ((num.log2 : ℤ) - den.log2 - 1) * 2 ^ ((den.log2 : ℤ) + 1) := by gcongr
      _ = 2 ^ (num.log2 : ℤ) := by rw [← zpow_add₀ htwo]; congr 1; ring
      _ ≤ num := hnumLow
  have hhigh : (num / den : ℚ) < 2 ^ ((num.log2 : ℤ) - den.log2 + 1) := by
    rw [div_lt_iff₀ hden']
    calc
      (num : ℚ) < 2 ^ ((num.log2 : ℤ) + 1) := hnumHigh
      _ = 2 ^ ((num.log2 : ℤ) - den.log2 + 1) * 2 ^ (den.log2 : ℤ) := by
        rw [← zpow_add₀ htwo]; congr 1; ring
      _ ≤ 2 ^ ((num.log2 : ℤ) - den.log2 + 1) * den := by gcongr
  have hcompare : ∀ k : ℤ, num <<< (-k).toNat < den <<< k.toNat ↔ (num / den : ℚ) < 2 ^ k := by
    intro k
    have hpos : 0 < den <<< k.toNat := Nat.shiftLeft_pos_iff.2 hden
    rw [← one_mul ((2 : ℚ) ^ k), ← div_lt_iff₀ (by positivity), ← scaled_quotient,
      div_lt_one (by exact_mod_cast hpos)]
    norm_cast
  unfold binaryExponent
  dsimp only
  split
  · rename_i hlt
    rw [sub_add_cancel]
    exact ⟨hlow, (hcompare _).1 hlt⟩
  · rename_i hge
    exact ⟨not_lt.1 fun h => hge ((hcompare _).2 h), hhigh⟩

theorem overflows_eq_false_iff (x : Magnitude) : x.overflows = false ↔ x.value < 2 ^ 1024 := by
  have hpos : (0 : ℚ) < x.denominator := by exact_mod_cast x.denominator_pos
  rw [overflows, decide_eq_false_iff_not, not_le, value_eq_div, div_lt_iff₀ hpos, mul_comm,
    ← cast_shiftLeft, Nat.cast_lt]

/-- The exponent of the spacing on which a quotient is rounded. -/
def quotientSpacing (num den : Nat) : Int := max (-1074) (binaryExponent num den - 52)

/-- The mantissa to which a quotient is rounded. -/
def quotientMantissa (num den : Nat) : Nat :=
  roundQuotient (num <<< (-quotientSpacing num den).toNat) (den <<< (quotientSpacing num den).toNat)

theorem nearest_eq {num : Nat} (hnum : 0 < num) (den : Nat) :
    nearest num den = ⟨quotientMantissa num den, quotientSpacing num den⟩ := if_neg hnum.ne'

section

variable {num den : Nat}

/-- A quotient measured by its spacing uses 53 bits at most, and all of them unless the spacing is the
least one. -/
theorem quotient_bounds (hnum : 0 < num) (hden : 0 < den) :
    (num / den : ℚ) < 2 ^ 53 * 2 ^ quotientSpacing num den ∧
      (quotientSpacing num den ≠ -1074 → 2 ^ 52 * 2 ^ quotientSpacing num den ≤ (num / den : ℚ)) := by
  obtain ⟨hlow, hhigh⟩ := binaryExponent_bounds hnum hden
  have hshift : ∀ k : ℕ, (2 : ℚ) ^ k * 2 ^ quotientSpacing num den = 2 ^ (quotientSpacing num den + k) := by
    intro k
    rw [zpow_add₀ (by norm_num), zpow_natCast, mul_comm]
  rw [hshift, hshift]
  constructor
  · refine hhigh.trans_le (zpow_le_zpow_right₀ (by norm_num) ?_)
    unfold quotientSpacing
    push_cast
    omega
  · intro hleast
    refine le_trans (zpow_le_zpow_right₀ (by norm_num) ?_) hlow
    unfold quotientSpacing at hleast ⊢
    push_cast
    omega

/-- The distance of a quotient from a number of its spacing. -/
theorem abs_quotient_sub (num den : Nat) (n : ℚ) :
    |(num / den : ℚ) - n * 2 ^ quotientSpacing num den| =
      |((num <<< (-quotientSpacing num den).toNat : Nat) : ℚ) /
        (den <<< (quotientSpacing num den).toNat : Nat) - n| * 2 ^ quotientSpacing num den := by
  have hpos : (0 : ℚ) < 2 ^ quotientSpacing num den := by positivity
  rw [scaled_quotient, ← abs_of_pos hpos, ← abs_mul, abs_of_pos hpos, sub_mul, div_mul_cancel₀ _ hpos.ne']

/-- No number of the spacing is nearer to a quotient than the rounded one; if another is as near, that one
has an even mantissa. -/
theorem quotientMantissa_nearest (num : Nat) {den : Nat} (hden : 0 < den) (n : ℤ) :
    |(num / den : ℚ) - quotientMantissa num den * 2 ^ quotientSpacing num den| ≤
        |(num / den : ℚ) - n * 2 ^ quotientSpacing num den| ∧
      (n ≠ quotientMantissa num den →
        |(num / den : ℚ) - n * 2 ^ quotientSpacing num den| =
          |(num / den : ℚ) - quotientMantissa num den * 2 ^ quotientSpacing num den| →
        Even (quotientMantissa num den)) := by
  have hpos : (0 : ℚ) < 2 ^ quotientSpacing num den := by positivity
  have hscaled : 0 < den <<< (quotientSpacing num den).toNat := Nat.shiftLeft_pos_iff.2 hden
  obtain ⟨hnearest, heven⟩ :=
    roundQuotient_nearest (num <<< (-quotientSpacing num den).toNat) hscaled n
  rw [abs_quotient_sub, abs_quotient_sub]
  exact ⟨mul_le_mul_of_nonneg_right hnearest hpos.le,
    fun hne hsame => heven hne (mul_right_cancel₀ hpos.ne' hsame)⟩

/-- The mantissa has 53 bits, or is the next power of two; all bits are used unless the spacing is the
least one. -/
theorem quotientMantissa_bounds (hnum : 0 < num) (hden : 0 < den) :
    quotientMantissa num den ≤ 2 ^ 53 ∧
      (quotientSpacing num den ≠ -1074 → 2 ^ 52 ≤ quotientMantissa num den) := by
  have hpos : (0 : ℚ) < 2 ^ quotientSpacing num den := by positivity
  obtain ⟨hhigh, hlow⟩ := quotient_bounds hnum hden
  have hscaled : 0 < den <<< (quotientSpacing num den).toNat := Nat.shiftLeft_pos_iff.2 hden
  have hhalf := abs_sub_roundQuotient_le (num <<< (-quotientSpacing num den).toNat) hscaled
  rw [scaled_quotient, abs_le] at hhalf
  rw [← div_lt_iff₀ hpos] at hhigh
  constructor
  · have hlt : (quotientMantissa num den : ℚ) < (2 ^ 53 + 1 : Nat) := by
      unfold quotientMantissa
      push_cast
      linarith
    exact Nat.lt_succ_iff.1 (by exact_mod_cast hlt)
  · intro hleast
    have hlow' := hlow hleast
    rw [← le_div_iff₀ hpos] at hlow'
    have hlt : ((2 ^ 52 : Nat) : ℚ) < (quotientMantissa num den + 1 : Nat) := by
      unfold quotientMantissa
      push_cast
      linarith
    exact Nat.lt_succ_iff.1 (by exact_mod_cast hlt)

end

/-- The numbers of 64-bit floats that are not on a spacing are below those that use all bits on it. -/
theorem representable_cases {y : ℚ} (h : Representable y) (s : Int) :
    (∃ n : ℤ, y = n * 2 ^ s) ∨ (y < 2 ^ 52 * 2 ^ s ∧ -1074 < s) := by
  obtain ⟨m, e, hm, hmin, _, rfl⟩ := h
  by_cases hs : s ≤ e
  · obtain ⟨k, hk⟩ := exists_mul_zpow 1 hs
    refine Or.inl ⟨m * k, ?_⟩
    push_cast at hk ⊢
    rw [mul_assoc, ← hk, one_mul]
  · refine Or.inr ⟨?_, by omega⟩
    have hpos : (0 : ℚ) < 2 ^ e := by positivity
    have hlt : (m : ℚ) < 2 ^ 53 := by exact_mod_cast (le_abs_self m).trans_lt hm
    calc
      (m : ℚ) * 2 ^ e < 2 ^ 53 * 2 ^ e := mul_lt_mul_of_pos_right hlt hpos
      _ ≤ 2 ^ 52 * 2 ^ s := by exact_mod_cast two_pow_mul_le (not_le.1 hs)

/-- A form in which the mantissa is less than `2 ^ 53`: a mantissa of `2 ^ 53` is halved. -/
theorem exists_form {m : Nat} (e : Int) (hm : m ≤ 2 ^ 53) :
    ∃ (m' : Nat) (e' : Int), m' < 2 ^ 53 ∧ e ≤ e' ∧ e' ≤ e + 1 ∧ (2 ^ 52 ≤ m' ∨ m' = m ∧ e' = e) ∧
      (Even m → Even m') ∧ (m * 2 ^ e : ℚ) = m' * 2 ^ e' := by
  by_cases htop : m = 2 ^ 53
  · refine ⟨2 ^ 52, e + 1, by norm_num, by omega, le_rfl, Or.inl le_rfl, fun _ => by decide, ?_⟩
    rw [htop, zpow_add₀ (by norm_num), zpow_one]
    push_cast
    ring
  · exact ⟨m, e, by omega, le_rfl, by omega, Or.inr ⟨rfl, rfl⟩, id, rfl⟩

/-- **The magnitude nearest to a quotient is the 64-bit float to which the quotient is rounded.** -/
theorem nearest_roundsTo {num den : Nat} (hden : 0 < den) (h : (nearest num den).overflows = false) :
    RoundsTo (num / den) (nearest num den).value := by
  rcases Nat.eq_zero_or_pos num with rfl | hnum
  · have hzero : (nearest 0 den).value = 0 := by simp [nearest, value]
    rw [hzero]
    refine ⟨⟨0, 0, by norm_num, by norm_num, by norm_num, by simp⟩, fun y _ => by simp, ?_⟩
    intro y _ hne hsame
    exact absurd (by simpa using hsame) hne
  rw [overflows_eq_false_iff] at h
  rw [nearest_eq hnum] at h ⊢
  simp only [value] at h ⊢
  have hmin : -1074 ≤ quotientSpacing num den := le_max_left _ _
  obtain ⟨_, hlow⟩ := quotient_bounds hnum hden
  obtain ⟨hbits, hall⟩ := quotientMantissa_bounds hnum hden
  obtain ⟨m, e, hm, he, _, hform, heven, hvalue⟩ := exists_form (quotientSpacing num den) hbits
  have hfull : 2 ^ 52 ≤ m ∨ e = -1074 := by
    rcases hform with hfull | ⟨rfl, rfl⟩
    · exact Or.inl hfull
    · exact (em (quotientSpacing num den = -1074)).elim Or.inr fun hs => Or.inl (hall hs)
  -- a number that is not on the spacing is further away than the first one that uses all bits on it
  have hfar : ∀ y : ℚ, y < 2 ^ 52 * 2 ^ quotientSpacing num den → -1074 < quotientSpacing num den →
      |(num / den : ℚ) - quotientMantissa num den * 2 ^ quotientSpacing num den| < |num / den - y| := by
    intro y hy hs
    have hfirst := (quotientMantissa_nearest num hden (2 ^ 52)).1
    have hle := hlow hs.ne'
    rw [Int.cast_pow, Int.cast_ofNat, abs_of_nonneg (sub_nonneg.2 hle)] at hfirst
    calc
      _ ≤ (num / den : ℚ) - 2 ^ 52 * 2 ^ quotientSpacing num den := hfirst
      _ < num / den - y := by linarith
      _ ≤ |num / den - y| := le_abs_self _
  refine ⟨⟨m, e, ?_, hmin.trans he, ?_, hvalue⟩, ?_, ?_⟩
  · exact_mod_cast hm
  · rcases hfull with hfull | hleast
    · have hlt : (2 : ℚ) ^ (e + 52) < 2 ^ (1024 : ℤ) := by
        refine lt_of_le_of_lt ?_ h
        rw [hvalue, zpow_add₀ (by norm_num), mul_comm]
        gcongr
        exact_mod_cast hfull
      have := (zpow_lt_zpow_iff_right₀ (by norm_num : (1 : ℚ) < 2)).1 hlt
      omega
    · omega
  · intro y hy
    rcases representable_cases hy (quotientSpacing num den) with ⟨n, rfl⟩ | ⟨hbelow, hs⟩
    · exact (quotientMantissa_nearest num hden n).1
    · exact (hfar y hbelow hs).le
  · intro y hy hne hsame
    rcases representable_cases hy (quotientSpacing num den) with ⟨n, rfl⟩ | ⟨hbelow, hs⟩
    · have hn : n ≠ quotientMantissa num den := by
        rintro rfl
        exact hne (by push_cast; rfl)
      have hmantissa := heven ((quotientMantissa_nearest num hden n).2 hn hsame)
      refine ⟨m, e, by exact_mod_cast hmantissa, by exact_mod_cast hm, ?_, hmin.trans he, hvalue⟩
      exact hfull.imp (fun hfull => by exact_mod_cast hfull) id
    · exact absurd hsame.symm (hfar y hbelow hs).ne

/-- A quotient of at most `2 ^ 53` has a nearest 64-bit float. -/
theorem overflows_nearest {num den : Nat} (hden : 0 < den) (h : (num / den : ℚ) ≤ 2 ^ 53) :
    (nearest num den).overflows = false := by
  rw [overflows_eq_false_iff]
  rcases Nat.eq_zero_or_pos num with rfl | hnum
  · simp [nearest, value]
  · have hexponent : (2 : ℚ) ^ binaryExponent num den ≤ 2 ^ (53 : ℤ) :=
      (binaryExponent_bounds hnum hden).1.trans h
    have hle := (zpow_le_zpow_iff_right₀ (by norm_num : (1 : ℚ) < 2)).1 hexponent
    have hspacing : quotientSpacing num den ≤ 1 := by
      unfold quotientSpacing
      omega
    have hmantissa : (quotientMantissa num den : ℚ) ≤ 2 ^ 53 := by
      exact_mod_cast (quotientMantissa_bounds hnum hden).1
    have hpow : (2 : ℚ) ^ quotientSpacing num den ≤ 2 ^ (1 : ℤ) :=
      zpow_le_zpow_right₀ (by norm_num) hspacing
    rw [nearest_eq hnum, value]
    calc
      (quotientMantissa num den : ℚ) * 2 ^ quotientSpacing num den ≤ 2 ^ 53 * 2 ^ (1 : ℤ) := by gcongr
      _ = 2 ^ 54 := by norm_num
      _ < 2 ^ 1024 := pow_lt_pow_right₀ (by norm_num) (by norm_num)

theorem ceil_eq (x : Magnitude) : (x.ceil : ℤ) = ⌈x.value⌉ := by
  have hpos := x.denominator_pos
  have hpos' : (0 : ℚ) < x.denominator := by exact_mod_cast hpos
  have hdiv := Nat.div_add_mod (x.numerator + x.denominator - 1) x.denominator
  have hrem := Nat.mod_lt (x.numerator + x.denominator - 1) hpos
  have hlow : x.denominator * x.ceil < x.numerator + x.denominator := by
    unfold ceil
    omega
  have hhigh : x.numerator ≤ x.denominator * x.ceil := by
    unfold ceil
    omega
  have hlow' : (x.denominator * x.ceil : ℚ) < x.numerator + x.denominator := by exact_mod_cast hlow
  have hhigh' : (x.numerator : ℚ) ≤ x.denominator * x.ceil := by exact_mod_cast hhigh
  rw [eq_comm, Int.ceil_eq_iff, value_eq_div, lt_div_iff₀ hpos', div_le_iff₀ hpos', Int.cast_natCast]
  constructor <;> linarith

end Magnitude

end PulseSequencer
