import Mathlib.Order.Bounds.Basic
import PulseSequencer.Length
import PulseSequencer.Proofs.NearestFloat

/-!
# Lengths in whole units

A length is rounded up to whole units by way of a float, so a small fraction of a unit could be lost in
the quotient. Up to `2 ^ 53` it is not: a quotient that is no integer is beyond the integer below it by
`1 / unit` at least, which is more than half of the distance to the next float.

* `Binary64.exists_representable_above` — how close the next float is.
* `Binary64.RoundsTo.ceil_quotient` — rounding a quotient of lengths keeps its ceiling.
* `quantizeLength_isLeast` — a length is rounded up to the least multiple that is not below it.
* `quantizeLength_exact` — what follows for lengths in whole units.
* `quantizeLength_quantum` — the samples of a waveform are filled up to such a length.
-/

namespace PulseSequencer

/-! ## Quotients of lengths -/

namespace Binary64

theorem representable_of_le {m : Nat} {e : Int} (hm : m ≤ 2 ^ 53) (hmin : -1074 ≤ e) (hmax : e < 971) :
    Representable (m * 2 ^ e) := by
  obtain ⟨m', e', hm', hlow, hhigh, _, _, hvalue⟩ := Magnitude.exists_form e hm
  exact ⟨m', e', by exact_mod_cast hm', by omega, by omega, hvalue⟩

theorem representable_natCast {n : Nat} (h : n ≤ 2 ^ 53) : Representable n := by
  have := representable_of_le (e := 0) h (by norm_num) (by norm_num)
  rwa [zpow_zero, mul_one] at this

/-- Close above every integer below `2 ^ 53` there is another float: closer than twice the distance from
the integer to the next multiple of `1 / unit`, as long as the product of both is below `2 ^ 53`. -/
theorem exists_representable_above {j unit : Nat} (hunit : 0 < unit) (hmax : unit ≤ 2 ^ 53)
    (h : j * unit < 2 ^ 53) : ∃ y : ℚ, Representable y ∧ j < y ∧ y - j < 2 / unit := by
  have hunit' : (0 : ℚ) < unit := by exact_mod_cast hunit
  rcases Nat.eq_zero_or_pos j with rfl | hj
  · refine ⟨2 ^ (-53 : ℤ), ⟨1, -53, by norm_num, by norm_num, by norm_num, by simp⟩, by positivity, ?_⟩
    have hmax' : (unit : ℚ) ≤ 2 ^ 53 := by exact_mod_cast hmax
    rw [lt_div_iff₀ hunit']
    calc
      ((2 : ℚ) ^ (-53 : ℤ) - (0 : Nat)) * unit ≤ 2 ^ (-53 : ℤ) * 2 ^ 53 := by
        rw [Nat.cast_zero, sub_zero]
        gcongr
      _ < 2 := by norm_num
  · -- the next float comes after one unit in the last place of `j`
    have hlow : 2 ^ j.log2 ≤ j := Nat.log2_self_le hj.ne'
    have hhigh : j < 2 ^ (j.log2 + 1) := Nat.lt_log2_self
    have hj' : j < 2 ^ 53 := lt_of_le_of_lt (Nat.le_mul_of_pos_right j hunit) h
    have hbits : j.log2 ≤ 52 := by
      have := (Nat.log2_lt hj.ne').2 hj'
      omega
    have hscale : (j * 2 ^ (52 - j.log2) : ℚ) * 2 ^ ((j.log2 : ℤ) - 52) = j := by
      rw [mul_assoc, ← zpow_natCast, ← zpow_add₀ (by norm_num), Nat.cast_sub hbits]
      simp
    have hmantissa : j * 2 ^ (52 - j.log2) + 1 ≤ 2 ^ 53 := by
      calc
        j * 2 ^ (52 - j.log2) + 1 ≤ (j + 1) * 2 ^ (52 - j.log2) := by
          rw [add_mul, one_mul]
          exact Nat.add_le_add_left (Nat.one_le_two_pow) _
        _ ≤ 2 ^ (j.log2 + 1) * 2 ^ (52 - j.log2) := Nat.mul_le_mul_right _ hhigh
        _ = 2 ^ 53 := by rw [← pow_add]; congr 1; omega
    have hy : (((j * 2 ^ (52 - j.log2) + 1 : Nat) : ℚ) * 2 ^ ((j.log2 : ℤ) - 52)) =
        j + 2 ^ ((j.log2 : ℤ) - 52) := by
      push_cast
      rw [add_mul, hscale, one_mul]
    refine ⟨_, representable_of_le hmantissa (e := (j.log2 : ℤ) - 52) (by omega) (by omega), ?_, ?_⟩
    · rw [hy, lt_add_iff_pos_right]
      positivity
    · have hlow' : (2 : ℚ) ^ j.log2 ≤ j := by exact_mod_cast hlow
      have h' : (j * unit : ℚ) < 2 ^ 53 := by exact_mod_cast h
      rw [hy, add_sub_cancel_left, lt_div_iff₀ hunit', zpow_sub₀ (by norm_num), zpow_natCast]
      calc
        (2 : ℚ) ^ j.log2 / 2 ^ (52 : ℤ) * unit ≤ j / 2 ^ (52 : ℤ) * unit := by gcongr
        _ = j * unit / 2 ^ (52 : ℤ) := by ring
        _ < 2 ^ 53 / 2 ^ (52 : ℤ) := by gcongr
        _ = 2 := by norm_num

namespace RoundsTo

variable {x q y : ℚ}

/-- A float that is not below a number is not below what the number is rounded to. -/
theorem le_of_le (h : RoundsTo x q) (hy : Representable y) (hle : x ≤ y) : q ≤ y := by
  by_contra hlt
  have hnear := h.nearest y hy
  rw [abs_sub_comm x q, abs_sub_comm x y, abs_of_nonneg (by linarith), abs_of_nonneg (by linarith)] at hnear
  linarith

/-- What a number is rounded to is beyond `j` if some float beyond `j` is nearer than `j` is. -/
theorem lt_of_nearer (h : RoundsTo x q) (hy : Representable y) {j : ℚ} (hj : j < y)
    (hnearer : y - j < 2 * (x - j)) : j < q := by
  by_contra hle
  have hnear := h.nearest y hy
  have hfar : x - j ≤ |x - q| := by
    have := le_abs_self (x - q)
    linarith
  have hclose : |x - y| < x - j := abs_lt.2 ⟨by linarith, by linarith⟩
  linarith

end RoundsTo

/-- **Rounding a quotient of lengths keeps its ceiling.** -/
theorem RoundsTo.ceil_quotient {samples unit : Nat} (hsamples : samples ≤ 2 ^ 53) (hunit : 0 < unit)
    (hmax : unit ≤ 2 ^ 53) {q : ℚ} (h : RoundsTo (samples / unit) q) :
    ⌈q⌉ = ⌈(samples / unit : ℚ)⌉ := by
  rcases Nat.eq_zero_or_pos samples with rfl | hpos
  · rw [Nat.cast_zero, zero_div] at h ⊢
    have hzero : Representable 0 := by exact_mod_cast representable_natCast (Nat.zero_le _)
    have hle : q ≤ 0 := h.le_of_le hzero le_rfl
    have hlt : -1 < q := h.lt_of_nearer hzero (by norm_num) (by norm_num)
    rw [Int.ceil_zero, Int.ceil_eq_iff]
    exact ⟨by simpa using hlt, by simpa using hle⟩
  · -- the quotient is between `j` and `j + 1`, and beyond `j` by `1 / unit` at least
    obtain ⟨j, hj⟩ : ∃ j, j = (samples - 1) / unit := ⟨_, rfl⟩
    have hdiv := Nat.div_add_mod (samples - 1) unit
    have hrem := Nat.mod_lt (samples - 1) hunit
    rw [← hj] at hdiv
    have hbelow : j * unit + 1 ≤ samples := by
      rw [Nat.mul_comm]
      omega
    have habove : samples ≤ (j + 1) * unit := by
      rw [Nat.add_mul, Nat.one_mul, Nat.mul_comm]
      omega
    have hunit' : (0 : ℚ) < unit := by exact_mod_cast hunit
    have hgap : (j : ℚ) + 1 / unit ≤ samples / unit := by
      rw [le_div_iff₀ hunit', add_mul, div_mul_cancel₀ _ hunit'.ne']
      exact_mod_cast hbelow
    have hnext : (samples / unit : ℚ) ≤ (j + 1 : Nat) := by
      rw [div_le_iff₀ hunit']
      exact_mod_cast habove
    obtain ⟨y, hy, hjy, hclose⟩ := exists_representable_above (j := j) hunit hmax (by omega)
    have hlow : (j : ℚ) < q := by
      refine h.lt_of_nearer hy hjy (hclose.trans_le ?_)
      have htwo : (2 : ℚ) / unit = 2 * (1 / unit) := by ring
      linarith
    have hhigh : q ≤ (j + 1 : Nat) := by
      refine h.le_of_le (representable_natCast ?_) hnext
      have := Nat.le_mul_of_pos_right j hunit
      omega
    have hpositive : (0 : ℚ) < 1 / unit := by positivity
    have hceil : ∀ z : ℚ, j < z → z ≤ (j + 1 : Nat) → ⌈z⌉ = (j + 1 : Nat) := by
      intro z hlow hhigh
      rw [Int.ceil_eq_iff]
      push_cast at hhigh ⊢
      exact ⟨by linarith, hhigh⟩
    rw [hceil q hlow hhigh, hceil _ (by linarith) hnext]

end Binary64

/-! ## Lengths -/

open Binary64

section

variable {samples unit : Int}

/-- A length is rounded up through the 64-bit float to which its quotient is rounded. -/
theorem quantizeLength_eq_ok (hsamples : 0 ≤ samples) (hmax : samples ≤ 2 ^ 53) (hunit : 1 ≤ unit) :
    ∃ q : ℚ, RoundsTo (samples / unit) q ∧ quantizeLength samples unit = .ok (unit * ⌈q⌉) := by
  obtain ⟨n, rfl⟩ := Int.eq_ofNat_of_zero_le hsamples
  obtain ⟨u, rfl⟩ := Int.eq_ofNat_of_zero_le (show 0 ≤ unit by omega)
  have hu : 0 < u := by omega
  have hbound : (n / u : ℚ) ≤ 2 ^ 53 := by
    have hn : (n : ℚ) ≤ 2 ^ 53 := by exact_mod_cast hmax
    have hone : (1 : ℚ) ≤ u := by exact_mod_cast hu
    exact (div_le_self (Nat.cast_nonneg n) hone).trans hn
  have hfits := Magnitude.overflows_nearest hu hbound
  refine ⟨(Magnitude.nearest n u).value, ?_, ?_⟩
  · rw [Int.cast_natCast, Int.cast_natCast]
    exact Magnitude.nearest_roundsTo hu hfits
  · have hzero : (u : Int) ≠ 0 := by omega
    have hsigns : (decide ((n : Int) < 0) != decide ((u : Int) < 0)) = false := by
      rw [decide_eq_false (by omega), decide_eq_false (by omega)]
      rfl
    simp only [quantizeLength, Int.natAbs_natCast, if_neg hzero, hfits, hsigns, Bool.false_eq_true,
      if_false, Magnitude.ceil_eq]

/-- The multiples of a unit that are not below a length start at the unit times the exact quotient,
rounded up. -/
theorem isLeast_ceil (n : Int) (hunit : 1 ≤ unit) :
    IsLeast {m : Int | unit ∣ m ∧ n ≤ m} (unit * ⌈(n / unit : ℚ)⌉) := by
  have hpos : (0 : ℚ) < unit := by exact_mod_cast hunit
  constructor
  · refine ⟨dvd_mul_right _ _, ?_⟩
    have := (div_le_iff₀ hpos).1 (Int.le_ceil (n / unit : ℚ))
    rw [mul_comm]
    exact_mod_cast this
  · rintro m ⟨⟨t, rfl⟩, hm⟩
    refine Int.mul_le_mul_of_nonneg_left (Int.ceil_le.2 ?_) (by omega)
    rw [div_le_iff₀ hpos, mul_comm]
    exact_mod_cast hm

/-- **A length is rounded up to the least multiple of the unit that is not below it.** -/
theorem quantizeLength_isLeast (hsamples : 0 ≤ samples) (hmax : samples ≤ 2 ^ 53) (hunit : 1 ≤ unit)
    (hunit' : unit ≤ 2 ^ 53) :
    ∃ q : ℚ, RoundsTo (samples / unit) q ∧ quantizeLength samples unit = .ok (unit * ⌈q⌉) ∧
      IsLeast {m : Int | unit ∣ m ∧ samples ≤ m} (unit * ⌈q⌉) := by
  obtain ⟨q, hq, hlength⟩ := quantizeLength_eq_ok hsamples hmax hunit
  refine ⟨q, hq, hlength, ?_⟩
  obtain ⟨n, rfl⟩ := Int.eq_ofNat_of_zero_le hsamples
  obtain ⟨u, rfl⟩ := Int.eq_ofNat_of_zero_le (show 0 ≤ unit by omega)
  have hleast := isLeast_ceil n hunit
  rw [Int.cast_natCast, Int.cast_natCast] at hq hleast
  rwa [hq.ceil_quotient (by exact_mod_cast hmax) (by omega) (by exact_mod_cast hunit')]

theorem isQuantized_eq_true_iff (hunit : 1 ≤ unit) :
    isQuantized samples unit = .ok true ↔ unit ∣ samples := by
  rw [isQuantized, if_neg (by omega), Except.ok.injEq, beq_iff_eq, Int.dvd_iff_emod_eq_zero]

end

/-- **Lengths are rounded up exactly.** For a length of `0` to `2 ^ 53` samples and a unit of `1` to
`2 ^ 53`, the unit times the ceiling of the quotient, rounded to a 64-bit float, is the least multiple of
the unit that is not below the length. It is a whole number of units, and is rounded to itself if it is
still at most `2 ^ 53`. Longer lengths are not rounded to shorter ones, and a length stays as it is if and
only if it is a whole number of units. -/
theorem quantizeLength_exact (samples unit : Int) (hsamples : 0 ≤ samples) (hmax : samples ≤ 2 ^ 53)
    (hunit : 1 ≤ unit) (hunit' : unit ≤ 2 ^ 53) :
    ∃ (q : ℚ) (length : Int), RoundsTo (samples / unit) q ∧ length = unit * ⌈q⌉ ∧
      quantizeLength samples unit = .ok length ∧
      IsLeast {m : Int | unit ∣ m ∧ samples ≤ m} length ∧
      isQuantized length unit = .ok true ∧
      (length ≤ 2 ^ 53 → quantizeLength length unit = .ok length) ∧
      (∀ samples', samples ≤ samples' → samples' ≤ 2 ^ 53 →
        ∃ length', quantizeLength samples' unit = .ok length' ∧ length ≤ length') ∧
      (length = samples ↔ isQuantized samples unit = .ok true) := by
  obtain ⟨q, hq, hlength, hleast⟩ := quantizeLength_isLeast hsamples hmax hunit hunit'
  obtain ⟨⟨hdvd, hle⟩, hlower⟩ := hleast
  refine ⟨q, unit * ⌈q⌉, hq, rfl, hlength, ⟨⟨hdvd, hle⟩, hlower⟩,
    (isQuantized_eq_true_iff hunit).2 hdvd, ?_, ?_, ?_⟩
  · intro hfits
    obtain ⟨q', _, hagain, hleast'⟩ := quantizeLength_isLeast (hsamples.trans hle) hfits hunit hunit'
    have hself : IsLeast {m : Int | unit ∣ m ∧ unit * ⌈q⌉ ≤ m} (unit * ⌈q⌉) :=
      ⟨⟨hdvd, le_rfl⟩, fun m hm => hm.2⟩
    rw [hagain, hleast'.unique hself]
  · intro samples' hlonger hmax'
    obtain ⟨q', _, hlength', ⟨hdvd', hle'⟩, _⟩ :=
      quantizeLength_isLeast (hsamples.trans hlonger) hmax' hunit hunit'
    exact ⟨_, hlength', hlower ⟨hdvd', hlonger.trans hle'⟩⟩
  · rw [isQuantized_eq_true_iff hunit]
    exact ⟨fun heq => heq ▸ hdvd, fun hwhole => le_antisymm (hlower ⟨hwhole, le_rfl⟩) hle⟩

/-- A length just below `2 ^ 53` whose quotient has no exact float. -/
theorem quantizeLength_exact_fifths :
    ∃ q : ℚ, RoundsTo (9007199254740986 / 5) q ∧
      quantizeLength 9007199254740986 5 = .ok 9007199254740990 ∧
      IsLeast {m : Int | 5 ∣ m ∧ 9007199254740986 ≤ m} 9007199254740990 ∧
      quantizeLength 9007199254740990 5 = .ok 9007199254740990 ∧
      isQuantized 9007199254740986 5 ≠ .ok true := by
  obtain ⟨q, length, hq, _, hlength, hleast, _, hagain, _, hwhole⟩ :=
    quantizeLength_exact 9007199254740986 5 (by decide) (by decide) (by decide) (by decide)
  have hrun : (quantizeLength 9007199254740986 5).toOption = some 9007199254740990 := by decide +kernel
  rw [hlength] at hrun
  obtain rfl : length = 9007199254740990 := Option.some.inj hrun
  exact ⟨q, by simpa using hq, hlength, hleast, hagain (by decide),
    fun h => absurd (hwhole.2 h) (by decide)⟩

/-- One sample more and the quotient loses its last bit. -/
example : (quantizeLength 9007199254740993 1).toOption = some 9007199254740992 := by decide +kernel

/-- What the samples of a waveform are filled up to is their number, rounded up to whole quanta. -/
theorem quantizeLength_quantum {n : Nat} (h : n ≤ 2 ^ 53) :
    quantizeLength n Hardware.quantum = .ok (Hardware.quantum * quanta n : Nat) := by
  have hmax : (n : Int) ≤ 2 ^ 53 := by exact_mod_cast h
  have hunit : (Hardware.quantum : Int) ≤ 2 ^ 53 := by decide
  obtain ⟨q, _, hlength, hleast⟩ :=
    quantizeLength_isLeast (Int.natCast_nonneg n) hmax (by decide) hunit
  have hquanta : IsLeast {m : Int | (Hardware.quantum : Int) ∣ m ∧ (n : Int) ≤ m}
      (Hardware.quantum * quanta n : Nat) := by
    unfold quanta Hardware.quantum
    refine ⟨⟨⟨((n + (4 - 1)) / 4 : Nat), by push_cast; rfl⟩, by omega⟩, ?_⟩
    rintro m ⟨⟨t, rfl⟩, hm⟩
    push_cast at hm ⊢
    omega
  rw [hlength, hleast.unique hquanta]

end PulseSequencer
