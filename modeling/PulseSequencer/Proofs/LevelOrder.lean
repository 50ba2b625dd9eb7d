import Mathlib.Algebra.Order.Field.Power
import Mathlib.Data.EReal.Operations
import Mathlib.Data.Rat.Cast.Order
import Mathlib.Tactic.Linarith
import Mathlib.Tactic.Positivity
import Mathlib.Tactic.Ring
import PulseSequencer.Proofs.Readback

/-!
# Levels follow numbers

The level of a number goes through two roundings, to a 64-bit float and to an integer, and a cut to the
range of the outputs. Each step respects the order of numbers, so levels never decrease as numbers grow,
and opposite numbers have opposite levels.

* `roundQuotient_mono` — rounding a quotient to an integer respects the order.
* `Magnitude.value`, `Binary64.value?` — the number that a magnitude or a float stands for.
* `Magnitude.fit_mono`, `Magnitude.round_mono` — both roundings respect the order of values.
* `Binary64.level_mono`, `Binary64.level_odd` — so does the level, and it is odd.
* `Sample.cell_clamp` — levels are stored as they are.
* `clamp_dacRange` — all of it for the samples of a waveform.
-/

namespace PulseSequencer

/-! ## Quotients -/

/-- Of two quotients, the one that is not larger is not rounded to a larger integer. -/
theorem roundQuotient_mono {a b c d : Nat} (hb : 0 < b) (hd : 0 < d) (h : a * d ≤ c * b) :
    roundQuotient a b ≤ roundQuotient c d := by
  have hab := Nat.div_add_mod a b
  have hcd := Nat.div_add_mod c d
  have hr := Nat.mod_lt a hb
  have hs := Nat.mod_lt c hd
  have hq : a / b ≤ c / d := by
    rw [Nat.le_div_iff_mul_le hd]
    refine Nat.le_of_mul_le_mul_right ?_ hb
    calc
      a / b * d * b = (b * (a / b)) * d := by ring
      _ ≤ a * d := Nat.mul_le_mul_right d (Nat.mul_div_le a b)
      _ ≤ c * b := h
  simp only [roundQuotient]
  by_cases hlt : a / b < c / d
  · split <;> split <;> omega
  · -- with equal integer parts the remainders decide
    have heq : c / d = a / b := by omega
    rw [heq] at hcd ⊢
    have hrem : a % b * d ≤ c % d * b := by
      have hsum : (b * (a / b) + a % b) * d ≤ (d * (a / b) + c % d) * b := by rwa [hab, hcd]
      nlinarith
    split
    · split <;> omega
    · rename_i hup
      rw [if_neg]
      rintro (hdown | ⟨htie, heven⟩)
      · refine hup (Or.inl ?_)
        have hmul : 2 * (a % b) * d < b * d := by nlinarith
        exact Nat.lt_of_mul_lt_mul_right hmul
      · have hmul : 2 * (a % b) * d ≤ b * d := by nlinarith
        have hle := Nat.le_of_mul_le_mul_right hmul hd
        rcases Nat.lt_or_eq_of_le hle with hlt | heq
        · exact hup (Or.inl hlt)
        · exact hup (Or.inr ⟨heq, heven⟩)

/-! ## Magnitudes -/

namespace Magnitude

/-- The number that a magnitude stands for. -/
def value (x : Magnitude) : ℚ := x.mantissa * 2 ^ x.exponent

theorem value_nonneg (x : Magnitude) : 0 ≤ x.value := by
  unfold value
  positivity

theorem cast_shiftLeft (n k : Nat) : ((n <<< k : Nat) : ℚ) = n * 2 ^ k := by simp [Nat.shiftLeft_eq]

theorem denominator_pos (x : Magnitude) : 0 < x.denominator := Nat.shiftLeft_pos_iff.2 Nat.one_pos

theorem value_eq_div (x : Magnitude) : x.value = x.numerator / x.denominator := by
  obtain ⟨m, e⟩ := x
  rw [value, numerator, denominator, cast_shiftLeft, cast_shiftLeft]
  cases e with
  | ofNat n => simp
  | negSucc n =>
    rw [Int.toNat_negSucc, Int.neg_negSucc, zpow_negSucc]
    simp [div_eq_mul_inv]

theorem round_eq (x : Magnitude) : x.round = roundQuotient x.numerator x.denominator := by
  obtain ⟨m, e⟩ := x
  cases e with
  | ofNat n => simp [round, numerator, denominator, roundQuotient_one]
  | negSucc n => simp [round, numerator, denominator]

/-- The nearest integer respects the order of values. -/
theorem round_mono {x y : Magnitude} (h : x.value ≤ y.value) : x.round ≤ y.round := by
  have hx := x.denominator_pos
  have hy := y.denominator_pos
  rw [round_eq, round_eq]
  refine roundQuotient_mono hx hy ?_
  rw [value_eq_div, value_eq_div, div_le_div_iff₀ (by exact_mod_cast hx) (by exact_mod_cast hy)] at h
  exact_mod_cast h

/-! ### Fitting a magnitude into 53 bits -/

/-- The number of bits that `fit` drops. -/
def dropped (x : Magnitude) : Nat := max (x.mantissa.log2 - 52) (-1074 - x.exponent).toNat

theorem fit_eq (x : Magnitude) :
    x.fit = ⟨roundQuotient x.mantissa (2 ^ x.dropped), x.exponent + x.dropped⟩ := by
  rw [← Nat.one_shiftLeft]
  rfl

/-- The exponent of the spacing on which a magnitude is fitted. -/
def spacing (x : Magnitude) : Int := x.exponent + x.dropped

theorem value_fit (x : Magnitude) :
    x.fit.value = roundQuotient x.mantissa (2 ^ x.dropped) * 2 ^ x.spacing := by
  rw [value, fit_eq, spacing]

theorem neg_le_spacing (x : Magnitude) : -1074 ≤ x.spacing := by
  have hle : (-1074 - x.exponent).toNat ≤ x.dropped := Nat.le_max_right _ _
  unfold spacing
  omega

/-- A magnitude as a quotient, measured by the spacing. -/
theorem value_eq_spacing (x : Magnitude) :
    x.value = x.mantissa / (2 ^ x.dropped : Nat) * 2 ^ x.spacing := by
  rw [value, spacing, zpow_add₀ (by norm_num), zpow_natCast]
  push_cast
  field_simp

/-- A multiple of a power of two is a multiple of every smaller one. -/
theorem exists_mul_zpow (k : Nat) {s g : Int} (h : s ≤ g) :
    ∃ n : Nat, (k : ℚ) * 2 ^ g = n * 2 ^ s := by
  refine ⟨k * 2 ^ (g - s).toNat, ?_⟩
  have hsplit : g = ((g - s).toNat : Int) + s := by omega
  conv_lhs => rw [hsplit]
  rw [zpow_add₀ (by norm_num), zpow_natCast]
  push_cast
  ring

/-- A number of the spacing of `x`, or of a wider one, that is not below `x` is not below what `x` is
fitted to. -/
theorem fit_le {x : Magnitude} {k : Nat} {g : Int} (hg : x.spacing ≤ g) (h : x.value ≤ k * 2 ^ g) :
    x.fit.value ≤ k * 2 ^ g := by
  obtain ⟨n, hn⟩ := exists_mul_zpow k hg
  have hunit : (0 : ℚ) < 2 ^ x.spacing := by positivity
  have hpow : (0 : ℚ) < (2 ^ x.dropped : Nat) := by positivity
  rw [hn, value_eq_spacing, mul_le_mul_iff_left₀ hunit, div_le_iff₀ hpow] at h
  rw [hn, value_fit, mul_le_mul_iff_left₀ hunit]
  have hround : roundQuotient x.mantissa (2 ^ x.dropped) ≤ roundQuotient n 1 := by
    refine roundQuotient_mono (Nat.two_pow_pos _) Nat.one_pos ?_
    rw [Nat.mul_one]
    exact_mod_cast h
  rw [roundQuotient_one] at hround
  exact_mod_cast hround

/-- The same from below. -/
theorem le_fit {x : Magnitude} {k : Nat} {g : Int} (hg : x.spacing ≤ g) (h : k * 2 ^ g ≤ x.value) :
    k * 2 ^ g ≤ x.fit.value := by
  obtain ⟨n, hn⟩ := exists_mul_zpow k hg
  have hunit : (0 : ℚ) < 2 ^ x.spacing := by positivity
  have hpow : (0 : ℚ) < (2 ^ x.dropped : Nat) := by positivity
  rw [hn, value_eq_spacing, mul_le_mul_iff_left₀ hunit, le_div_iff₀ hpow] at h
  rw [hn, value_fit, mul_le_mul_iff_left₀ hunit]
  have hround : roundQuotient n 1 ≤ roundQuotient x.mantissa (2 ^ x.dropped) := by
    refine roundQuotient_mono Nat.one_pos (Nat.two_pow_pos _) ?_
    rw [Nat.mul_one]
    exact_mod_cast h
  rw [roundQuotient_one] at hround
  exact_mod_cast hround

/-- The spacing is wide enough for 53 bits. -/
theorem value_lt_spacing (x : Magnitude) : x.value < (2 ^ 53 : Nat) * 2 ^ x.spacing := by
  have hunit : (0 : ℚ) < 2 ^ x.spacing := by positivity
  have hpow : (0 : ℚ) < (2 ^ x.dropped : Nat) := by positivity
  have hbits : x.mantissa < 2 ^ 53 * 2 ^ x.dropped := by
    have hle : x.mantissa.log2 - 52 ≤ x.dropped := Nat.le_max_left _ _
    calc
      x.mantissa < 2 ^ (x.mantissa.log2 + 1) := Nat.lt_log2_self
      _ ≤ 2 ^ (53 + x.dropped) := Nat.pow_le_pow_right (by norm_num) (by omega)
      _ = 2 ^ 53 * 2 ^ x.dropped := pow_add 2 53 x.dropped
  rw [value_eq_spacing, mul_lt_mul_iff_left₀ hunit, div_lt_iff₀ hpow]
  exact_mod_cast hbits

/-- Nothing is dropped, or the spacing is the least one, or all 53 bits are used. -/
theorem spacing_cases (x : Magnitude) :
    x.dropped = 0 ∨ x.spacing = -1074 ∨ (2 ^ 52 : Nat) * 2 ^ x.spacing ≤ x.value := by
  by_cases hzero : x.dropped = 0
  · exact Or.inl hzero
  right
  by_cases hleast : x.spacing = -1074
  · exact Or.inl hleast
  right
  have hdropped : x.dropped = x.mantissa.log2 - 52 := by
    unfold spacing at hleast
    unfold dropped at hleast hzero ⊢
    omega
  have hunit : (0 : ℚ) < 2 ^ x.spacing := by positivity
  have hpow : (0 : ℚ) < (2 ^ x.dropped : Nat) := by positivity
  have hbits : 2 ^ 52 * 2 ^ x.dropped ≤ x.mantissa := by
    have hne : x.mantissa ≠ 0 := by
      intro h
      rw [hdropped, h] at hzero
      exact hzero rfl
    calc
      2 ^ 52 * 2 ^ x.dropped = 2 ^ (52 + x.dropped) := (pow_add 2 52 x.dropped).symm
      _ = 2 ^ x.mantissa.log2 := by congr 1; omega
      _ ≤ x.mantissa := Nat.log2_self_le hne
  rw [value_eq_spacing, mul_le_mul_iff_left₀ hunit, le_div_iff₀ hpow]
  exact_mod_cast hbits

/-- What has nothing to drop is fitted to itself. -/
theorem value_fit_of_dropped {x : Magnitude} (h : x.dropped = 0) :
    x.fit.value = x.mantissa * 2 ^ x.spacing ∧ x.value = x.mantissa * 2 ^ x.spacing := by
  rw [value_fit, value_eq_spacing, h, pow_zero, roundQuotient_one]
  simp

/-- A coarse spacing is at least twice a finer one. -/
theorem two_pow_mul_le {s t : Int} (h : s < t) :
    ((2 ^ 53 : Nat) : ℚ) * 2 ^ s ≤ (2 ^ 52 : Nat) * 2 ^ t := by
  have hstep : (2 : ℚ) ^ (s + 1) ≤ 2 ^ t := zpow_le_zpow_right₀ (by norm_num) (by omega)
  rw [zpow_add₀ (by norm_num), zpow_one] at hstep
  push_cast
  linarith

/-- **Fitting a magnitude into 53 bits respects the order of values.** -/
theorem fit_mono {x y : Magnitude} (h : x.value ≤ y.value) : x.fit.value ≤ y.fit.value := by
  rcases lt_trichotomy x.spacing y.spacing with hlt | heq | hgt
  · -- a number of the coarser spacing of `y` lies between the two
    rcases y.spacing_cases with hexact | hleast | hlarge
    · obtain ⟨hfit, hvalue⟩ := value_fit_of_dropped hexact
      rw [hfit]
      exact fit_le hlt.le (hvalue ▸ h)
    · have := x.neg_le_spacing
      omega
    · have hx : x.value ≤ (2 ^ 52 : Nat) * 2 ^ y.spacing :=
        x.value_lt_spacing.le.trans (two_pow_mul_le hlt)
      exact (fit_le hlt.le hx).trans (le_fit le_rfl hlarge)
  · have hunit : (0 : ℚ) < 2 ^ y.spacing := by positivity
    have hpx : (0 : ℚ) < (2 ^ x.dropped : Nat) := by positivity
    have hpy : (0 : ℚ) < (2 ^ y.dropped : Nat) := by positivity
    rw [x.value_eq_spacing, y.value_eq_spacing, heq, mul_le_mul_iff_left₀ hunit,
      div_le_div_iff₀ hpx hpy] at h
    rw [x.value_fit, y.value_fit, heq, mul_le_mul_iff_left₀ hunit]
    have hround := roundQuotient_mono (Nat.two_pow_pos x.dropped) (Nat.two_pow_pos y.dropped)
      (a := x.mantissa) (c := y.mantissa) (by exact_mod_cast h)
    exact_mod_cast hround
  · rcases x.spacing_cases with hexact | hleast | hlarge
    · obtain ⟨hfit, hvalue⟩ := value_fit_of_dropped hexact
      rw [hfit]
      exact le_fit hgt.le (hvalue ▸ h)
    · have := y.neg_le_spacing
      omega
    · have hy := y.value_lt_spacing.trans_le (two_pow_mul_le hgt)
      linarith

/-! ### Levels of magnitudes -/

/-- The level of a non-negative number. -/
def level (x : Magnitude) : Nat :=
  min Hardware.maxLevel (Magnitude.mk (Hardware.maxLevel * x.mantissa) x.exponent).fit.round

theorem level_mono {x y : Magnitude} (h : x.value ≤ y.value) : x.level ≤ y.level := by
  have hproduct : ∀ z : Magnitude,
      (Magnitude.mk (Hardware.maxLevel * z.mantissa) z.exponent).value = Hardware.maxLevel * z.value := by
    intro z
    simp only [value]
    push_cast
    ring
  refine min_le_min le_rfl (round_mono (fit_mono ?_))
  rw [hproduct, hproduct]
  exact mul_le_mul_of_nonneg_left h (Nat.cast_nonneg _)

theorem level_eq_zero {x : Magnitude} (h : x.value = 0) : x.level = 0 := by
  have hzero : x.value ≤ (⟨0, 0⟩ : Magnitude).value := by
    rw [h]
    exact value_nonneg _
  have hle := level_mono hzero
  have hlevel : (⟨0, 0⟩ : Magnitude).level = 0 := by decide
  omega

end Magnitude

/-! ## Floats -/

namespace Binary64

/-- The number that a float stands for; none for what is not a number. -/
noncomputable def value? : Binary64 → Option EReal
  | .nan => none
  | .infinite negative => some (if negative then ⊥ else ⊤)
  | .finite negative x => some (((if negative then -x.value else x.value : ℚ) : ℝ) : EReal)

/-- The float of opposite sign. -/
def opposite : Binary64 → Binary64
  | .nan => .nan
  | .infinite negative => .infinite !negative
  | .finite negative x => .finite (!negative) x

theorem signed_not (negative : Bool) (n : Nat) : signed (!negative) n = -signed negative n := by
  cases negative <;> simp [signed]

theorem value?_opposite (x : Binary64) : x.opposite.value? = x.value?.map (- ·) := by
  cases x with
  | nan => rfl
  | infinite negative => cases negative <;> simp [opposite, value?]
  | finite negative m => cases negative <;> simp [opposite, value?]

theorem level_opposite (x : Binary64) : x.opposite.level = x.level.map (- ·) := by
  cases x with
  | nan => rfl
  | infinite negative => simp [opposite, level, signed_not]
  | finite negative m => simp [opposite, level, signed_not]

/-- A number has a level in the range of the outputs. -/
theorem exists_level {x : Binary64} {a : EReal} (h : x.value? = some a) :
    ∃ i, x.level = some i ∧ -8191 ≤ i ∧ i ≤ 8191 := by
  have hrange : ∀ i, x.level = some i → -8191 ≤ i ∧ i ≤ 8191 := by
    intro i hi
    have hle := natAbs_level_le hi
    unfold Hardware.maxLevel at hle
    omega
  cases x with
  | nan => cases h
  | infinite negative => exact ⟨_, rfl, hrange _ rfl⟩
  | finite negative m => exact ⟨_, rfl, hrange _ rfl⟩

/-- The order of levels for finite numbers, by their signs. -/
theorem signed_level_mono {s t : Bool} {x y : Magnitude}
    (h : (if s then -x.value else x.value) ≤ if t then -y.value else y.value) :
    signed s x.level ≤ signed t y.level := by
  have hx := x.value_nonneg
  have hy := y.value_nonneg
  cases s with
  | false =>
    cases t with
    | false => exact Int.ofNat_le.2 (Magnitude.level_mono (by simpa using h))
    | true =>
      -- only zero is neither below zero nor above it
      have hle : x.value ≤ -y.value := by simpa using h
      rw [Magnitude.level_eq_zero (show x.value = 0 by linarith),
        Magnitude.level_eq_zero (show y.value = 0 by linarith)]
      rfl
  | true =>
    cases t with
    | false => simp [signed]
    | true =>
      have hle : y.value ≤ x.value := by simpa using h
      exact Int.neg_le_neg (Int.ofNat_le.2 (Magnitude.level_mono hle))

/-- **Levels do not decrease as numbers grow.** -/
theorem level_mono {x y : Binary64} {a b : EReal} (hx : x.value? = some a) (hy : y.value? = some b)
    (hab : a ≤ b) : ∃ i j, x.level = some i ∧ y.level = some j ∧ i ≤ j := by
  obtain ⟨i, hi, himin, himax⟩ := exists_level hx
  obtain ⟨j, hj, hjmin, hjmax⟩ := exists_level hy
  refine ⟨i, j, hi, hj, ?_⟩
  -- the infinities have the outermost levels
  have hbottom : x = .infinite true → i = -8191 := by
    rintro rfl
    exact (Option.some.inj hi).symm
  have htop : y = .infinite false → j = 8191 := by
    rintro rfl
    exact (Option.some.inj hj).symm
  cases x with
  | nan => cases hx
  | infinite s =>
    cases s with
    | true => exact (hbottom rfl).trans_le hjmin
    | false =>
      obtain rfl := Option.some.inj hx
      obtain rfl := top_le_iff.1 hab
      cases y with
      | nan => cases hy
      | infinite t =>
        cases t with
        | true => simp [value?] at hy
        | false => exact himax.trans_eq (htop rfl).symm
      | finite t n => simp [value?] at hy
  | finite s m =>
    cases y with
    | nan => cases hy
    | infinite t =>
      cases t with
      | true =>
        obtain rfl := Option.some.inj hy
        obtain rfl := le_bot_iff.1 hab
        simp [value?] at hx
      | false => exact himax.trans_eq (htop rfl).symm
    | finite t n =>
      obtain rfl := Option.some.inj hx
      obtain rfl := Option.some.inj hy
      obtain rfl := Option.some.inj hi
      obtain rfl := Option.some.inj hj
      rw [EReal.coe_le_coe_iff, Rat.cast_le] at hab
      exact signed_level_mono hab

/-- The level depends on the number only. -/
theorem level_eq_of_value? {x y : Binary64} {a : EReal} (hx : x.value? = some a)
    (hy : y.value? = some a) : x.level = y.level := by
  obtain ⟨i, j, hi, hj, hij⟩ := level_mono hx hy le_rfl
  obtain ⟨j', i', hj', hi', hji⟩ := level_mono hy hx le_rfl
  have hii : i = i' := Option.some.inj (hi.symm.trans hi')
  have hjj : j = j' := Option.some.inj (hj.symm.trans hj')
  rw [hi, hj]
  congr 1
  omega

/-- **Opposite numbers have opposite levels.** -/
theorem level_odd {x y : Binary64} {a : EReal} (hx : x.value? = some a) (hy : y.value? = some (-a)) :
    ∃ i, x.level = some i ∧ y.level = some (-i) := by
  obtain ⟨i, hi, _⟩ := exists_level hx
  have hopposite : x.opposite.value? = some (-a) := by rw [value?_opposite, hx]; rfl
  refine ⟨i, hi, ?_⟩
  rw [level_eq_of_value? hy hopposite, level_opposite, hi]
  rfl

open Float.Model Float.Model.UnpackedFloat in
/-- The bits of what is not a number. -/
theorem isNaN_of_ofBits {x : Float} (h : ofBits x.toBits = .nan) : x.isNaN = true := by
  have hexponent : (@unpackExponent Format.binary64 x.toBits.toBitVec).toNat =
      ((x.toBits >>> 52) &&& 0x7ff).toNat := by
    simp only [unpackExponent, BitVec.toNat_cast, BitVec.extractLsb_toNat]
    simpa using (Nat.and_two_pow_sub_one_eq_mod (x.toBits.toNat >>> 52) 11).symm
  have hmantissa : (@unpackMantissa Format.binary64 x.toBits.toBitVec).toNat =
      (x.toBits &&& 0xfffffffffffff).toNat := by
    simp only [unpackMantissa, BitVec.toNat_cast, BitVec.extractLsb_toNat]
    simpa using (Nat.and_two_pow_sub_one_eq_mod x.toBits.toNat 52).symm
  have hbits : ((x.toBits >>> 52) &&& 0x7ff).toNat = 2047 ∧ (x.toBits &&& 0xfffffffffffff).toNat ≠ 0 := by
    simp only [ofBits] at h
    split at h
    · rename_i hbiased
      split at h
      · cases h
      · rename_i hfraction
        exact ⟨hbiased, hfraction⟩
    · split at h <;> cases h
  have hall : @unpackExponent Format.binary64 x.toBits.toBitVec = -1#_ :=
    BitVec.eq_of_toNat_eq (hexponent.trans hbits.1)
  have hsome : ¬ @unpackMantissa Format.binary64 x.toBits.toBitVec = 0#_ := by
    intro hzero
    rw [hzero] at hmantissa
    exact hbits.2 hmantissa.symm
  have hunpack : UnpackedFloat.unpack Format.binary64 x.toBits.toBitVec = .notANumber := by
    change (if @unpackExponent Format.binary64 x.toBits.toBitVec = -1#_ then
      (if @unpackMantissa Format.binary64 x.toBits.toBitVec = 0#_ then _ else _) else _) = _
    rw [if_pos hall, if_neg hsome]
  change (UnpackedFloat.unpack Format.binary64 x.toBits.toBitVec).isNaN = true
  rw [hunpack]
  rfl

/-- Every float but one that is not a number stands for a number. -/
theorem exists_value? {x : Float} (h : x.isNaN = false) : ∃ a, (ofFloat x).value? = some a := by
  have hne : ofBits x.toBits ≠ .nan := by
    intro hnan
    rw [isNaN_of_ofBits hnan] at h
    cases h
  rw [ofFloat, h, if_neg Bool.false_ne_true]
  cases hx : ofBits x.toBits with
  | nan => exact absurd hx hne
  | infinite negative => exact ⟨_, rfl⟩
  | finite negative m => exact ⟨_, rfl⟩

end Binary64

/-! ## Samples -/

/-- Both parts of a sample are numbers. -/
def Sample.IsNumber (s : Sample) : Prop := s.re.isNaN = false ∧ s.im.isNaN = false

instance (s : Sample) : Decidable s.IsNumber := inferInstanceAs (Decidable (_ ∧ _))

/-- The level of a part of a sample that is a number. -/
def partLevel (x : Float) : Int := ((Binary64.ofFloat x).level).getD 0

/-- A part that is a number has its level, in the range of the outputs. -/
theorem level_eq_partLevel {x : Float} (h : x.isNaN = false) :
    (Binary64.ofFloat x).level = some (partLevel x) ∧ -8191 ≤ partLevel x ∧ partLevel x ≤ 8191 := by
  obtain ⟨a, ha⟩ := Binary64.exists_value? h
  obtain ⟨i, hi, hrange⟩ := Binary64.exists_level ha
  have hpart : partLevel x = i := by rw [partLevel, hi]; rfl
  rw [hpart]
  exact ⟨hi, hrange⟩

theorem partLevel_mono {x y : Float} {a b : EReal} (hx : (Binary64.ofFloat x).value? = some a)
    (hy : (Binary64.ofFloat y).value? = some b) (hab : a ≤ b) : partLevel x ≤ partLevel y := by
  obtain ⟨i, j, hi, hj, hij⟩ := Binary64.level_mono hx hy hab
  rw [partLevel, partLevel, hi, hj]
  exact hij

theorem partLevel_odd {x y : Float} {a : EReal} (hx : (Binary64.ofFloat x).value? = some a)
    (hy : (Binary64.ofFloat y).value? = some (-a)) : partLevel y = -partLevel x := by
  obtain ⟨i, hi, hj⟩ := Binary64.level_odd hx hy
  rw [partLevel, partLevel, hi, hj]
  rfl

theorem Sample.clamp_of_isNumber {s : Sample} (h : s.IsNumber) :
    s.clamp = ⟨some (partLevel s.re), some (partLevel s.im)⟩ := by
  rw [Sample.clamp, (level_eq_partLevel h.1).1, (level_eq_partLevel h.2).1]

/-- A sample of numbers is stored as its levels. -/
theorem Sample.cell_clamp {s : Sample} (h : s.IsNumber) :
    s.clamp.cell.inPhase.toInt = partLevel s.re ∧ s.clamp.cell.quadrature.toInt = partLevel s.im := by
  have hclamp := s.clamp_of_isNumber h
  have hnumber : s.clamp.isNumber = true := by rw [hclamp]; rfl
  obtain ⟨hi, hq⟩ := DacSample.levels_cell s.clamp_inRange hnumber
  rw [hclamp] at hi hq ⊢
  exact ⟨(Option.some.inj hi).symm, (Option.some.inj hq).symm⟩

/-- Cells that fit are appended. -/
theorem Memory.allocate_of_fits {m : Memory} {cells : List Cell} (hmin : 0 ≤ m.size)
    (hmax : m.size + cells.length ≤ Hardware.memoryCapacity) :
    m.allocate cells = .ok (m.size, ⟨m.cells ++ cells, m.size + cells.length⟩) := by
  rw [Memory.allocate, checkRange_eq_ok.2 ⟨rfl, by omega, hmax⟩]
  rfl

/-- **The levels of samples.** For samples whose parts are numbers, infinities included, each part is
given a level from -8191 to 8191 that depends on this part only. Levels do not decrease as the numbers
grow, and opposite numbers have opposite levels. A memory with room for the samples takes them, and both
images then end with these levels. -/
theorem clamp_dacRange (samples : List Sample) (h : ∀ s ∈ samples, s.IsNumber) :
    (∀ s ∈ samples, s.clamp = ⟨some (partLevel s.re), some (partLevel s.im)⟩ ∧
      (-8191 ≤ partLevel s.re ∧ partLevel s.re ≤ 8191) ∧
      -8191 ≤ partLevel s.im ∧ partLevel s.im ≤ 8191) ∧
    (∀ (x y : Float) (a b : EReal), (Binary64.ofFloat x).value? = some a →
      (Binary64.ofFloat y).value? = some b → a ≤ b → partLevel x ≤ partLevel y) ∧
    (∀ (x y : Float) (a : EReal), (Binary64.ofFloat x).value? = some a →
      (Binary64.ofFloat y).value? = some (-a) → partLevel y = -partLevel x) ∧
    ∀ m : Memory, 0 ≤ m.size → m.size + samples.length ≤ Hardware.memoryCapacity →
      ∃ m', m.allocate (samples.map fun s => s.clamp.cell) = .ok (m.size, m') ∧
        m'.inPhase = m.inPhase ++ samples.map (fun s => partLevel s.re) ∧
        m'.quadrature = m.quadrature ++ samples.map (fun s => partLevel s.im) := by
  refine ⟨?_, fun x y a b => partLevel_mono, fun x y a => partLevel_odd, ?_⟩
  · intro s hs
    obtain ⟨hre, him⟩ := h s hs
    exact ⟨s.clamp_of_isNumber (h s hs), (level_eq_partLevel hre).2, (level_eq_partLevel him).2⟩
  · intro m hmin hmax
    refine ⟨_, Memory.allocate_of_fits hmin (by rwa [List.length_map]), ?_, ?_⟩
    · simp only [Memory.inPhase, List.map_append, List.map_map, List.append_cancel_left_eq]
      exact List.map_congr_left fun s hs => (s.cell_clamp (h s hs)).1
    · simp only [Memory.quadrature, List.map_append, List.map_map, List.append_cancel_left_eq]
      exact List.map_congr_left fun s hs => (s.cell_clamp (h s hs)).2

/-- A half way between two levels, an infinity and a negative zero. -/
def endSamples : List Sample := [⟨0.5, -0.5⟩, ⟨1.0 / 0.0, -0.0⟩]

/-- The infinity has the outermost level, and a half goes to the even one. -/
theorem clamp_dacRange_ends :
    ∃ m', Memory.allocate {} (endSamples.map fun s => s.clamp.cell) = .ok (0, m') ∧
      m'.inPhase = [4096, 8191] ∧ m'.quadrature = [-4096, 0] := by
  have hnumber : ∀ s ∈ endSamples, s.IsNumber := by decide +kernel
  obtain ⟨_, _, _, hstore⟩ := clamp_dacRange endSamples hnumber
  obtain ⟨m', hm, hi, hq⟩ := hstore {} (Int.le_refl 0) (by decide +kernel)
  have hre : endSamples.map (fun s => partLevel s.re) = [4096, 8191] := by decide +kernel
  have him : endSamples.map (fun s => partLevel s.im) = [-4096, 0] := by decide +kernel
  rw [hre] at hi
  rw [him] at hq
  exact ⟨m', hm, hi, hq⟩

end PulseSequencer
