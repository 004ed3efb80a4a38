import Mathlib

/-! WMath.cpp: random numbers in a range. A long has 32 bits and its differences wrap; `none` is
a remainder that C does not define. -/
namespace RasPiArduino.WMath

/-- The operator `%`: the remainder has the sign of `x`. -/
def remainder (x d : Int32) : Option Int32 :=
  if d = 0 ∨ x = Int32.minValue ∧ d = -1 then none else some (x % d)

/-- random(howbig), where the random() of the C library returns `r`. -/
def random (r howbig : Int32) : Option Int32 :=
  if howbig = 0 then some 0 else remainder r howbig

def randomBetween (r howsmall howbig : Int32) : Option Int32 :=
  if howsmall ≥ howbig then some howsmall
  else
    let diff := howbig - howsmall
    (random r diff).map (· + howsmall)

variable {r d howsmall howbig : Int32}

theorem remainder_of_nonneg (hr : 0 ≤ r) (hd : d ≠ 0) : remainder r d = some (r % d) := by
  have hmin : r ≠ Int32.minValue := by
    rintro rfl
    exact absurd hr (by decide)
  exact if_neg fun h => h.elim hd fun h => hmin h.1

theorem random_of_nonneg (hr : 0 ≤ r) (hd : d ≠ 0) : random r d = some (r % d) := by
  rw [random, if_neg hd, remainder_of_nonneg hr hd]

theorem toInt_remainder (hr : 0 ≤ r) (hd : d ≠ 0) :
    0 ≤ (r % d).toInt ∧ (r % d).toInt ≤ r.toInt ∧ (r % d).toInt < d.toInt.natAbs := by
  have hr' : 0 ≤ r.toInt := Int32.le_iff_toInt_le.mp hr
  have hd' : d.toInt ≠ 0 := fun h => hd (Int32.toInt_inj.mp h)
  have hle : r.toInt.natAbs % d.toInt.natAbs ≤ r.toInt.natAbs := Nat.mod_le _ _
  rw [← Int.natAbs_emod_of_nonneg hr'] at hle
  rw [Int32.toInt_mod, Int.tmod_eq_emod_of_nonneg hr']
  exact ⟨Int.emod_nonneg _ hd', by omega, Int.emod_lt _ hd'⟩

/-- The width of a range as a long: one that does not fit comes out negative. -/
theorem toInt_diff (h : howsmall < howbig) :
    (howbig - howsmall).toInt =
      if howbig.toInt - howsmall.toInt < 2^31 then howbig.toInt - howsmall.toInt
      else howbig.toInt - howsmall.toInt - 2^32 := by
  have hlt := Int32.lt_iff_toInt_lt.mp h
  have hsmall := howsmall.le_toInt
  have hbig := howbig.toInt_lt
  rw [Int32.toInt_sub, Int.bmod_def]
  split <;> split <;> omega

theorem diff_ne_zero (h : howsmall < howbig) : howbig - howsmall ≠ 0 := by
  intro hzero
  have hlt := Int32.lt_iff_toInt_lt.mp h
  have hsmall := howsmall.le_toInt
  have hbig := howbig.toInt_lt
  have hdiff := toInt_diff h
  rw [hzero, Int32.toInt_zero] at hdiff
  split at hdiff <;> omega

theorem toInt_remainder_lt (hr : 0 ≤ r) (h : howsmall < howbig) :
    (r % (howbig - howsmall)).toInt < howbig.toInt - howsmall.toInt := by
  have hwidth := Int32.lt_iff_toInt_lt.mp h
  obtain ⟨-, hle, hlt⟩ := toInt_remainder hr (diff_ne_zero h)
  have hr := r.toInt_lt
  have hdiff := toInt_diff h
  split at hdiff <;> omega

theorem randomBetween_spec (r howsmall howbig : Int32) (hr : 0 ≤ r) (h : howsmall < howbig) :
    ∃ x, randomBetween r howsmall howbig = some x ∧ howsmall ≤ x ∧ x < howbig := by
  have hnonneg := (toInt_remainder hr (diff_ne_zero h)).1
  have hlt := toInt_remainder_lt hr h
  have hsmall := howsmall.le_toInt
  have hbig := howbig.toInt_lt
  -- the sum is below `howbig`, so that it does not wrap
  have hsum : (r % (howbig - howsmall) + howsmall).toInt =
      (r % (howbig - howsmall)).toInt + howsmall.toInt := by
    rw [Int32.toInt_add]
    exact Int.bmod_eq_of_le (by omega) (by omega)
  refine ⟨r % (howbig - howsmall) + howsmall, ?_, ?_, ?_⟩
  · rw [randomBetween, if_neg (Int32.not_le.mpr h)]
    simp only [random_of_nonneg hr (diff_ne_zero h), Option.map_some]
  · rw [Int32.le_iff_toInt_le, hsum]
    omega
  · rw [Int32.lt_iff_toInt_lt, hsum]
    omega

/-- A width of 2^32 - 1 is the divisor -1. -/
theorem randomBetween_widest : (0 : Int32) ≤ 7 ∧ Int32.minValue < Int32.maxValue ∧
    ∃ x, randomBetween 7 Int32.minValue Int32.maxValue = some x ∧
      Int32.minValue ≤ x ∧ x < Int32.maxValue :=
  ⟨by decide, by decide, randomBetween_spec 7 Int32.minValue Int32.maxValue (by decide) (by decide)⟩

end RasPiArduino.WMath
