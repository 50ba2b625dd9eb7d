/-!
# Rounding a quotient to the nearest integer

* `roundQuotient num den` — the integer nearest to `num / den`; a half goes to the even neighbour.
* `roundQuotient_bounds` — it is within half a unit of the quotient.
-/

namespace PulseSequencer

/-- The integer nearest to `num / den`, a half going to the even neighbour. -/
def roundQuotient (num den : Nat) : Nat :=
  let q := num / den
  let r := num % den
  if 2 * r < den ∨ (2 * r = den ∧ q % 2 = 0) then q else q + 1

/-- The rounded quotient is within half a unit of the exact one. -/
theorem roundQuotient_bounds (num : Nat) {den : Nat} (h : 0 < den) :
    2 * num ≤ 2 * (den * roundQuotient num den) + den ∧
      2 * (den * roundQuotient num den) ≤ 2 * num + den := by
  have hd := Nat.div_add_mod num den
  have hr := Nat.mod_lt num h
  simp only [roundQuotient]
  split
  · rename_i hc
    generalize den * (num / den) = s at *
    omega
  · rename_i hc
    rw [Nat.mul_add, Nat.mul_one]
    generalize den * (num / den) = s at *
    omega

theorem roundQuotient_one (num : Nat) : roundQuotient num 1 = num := by
  simp [roundQuotient, Nat.mod_one]

end PulseSequencer
