import Mathlib.Data.Nat.Bitwise

/-! A field of `n` bits from bit `s` on in a machine word: cleared and set in two steps. -/
namespace RasPiArduino.BitFields
variable {w : Nat}

def mask (w n s : Nat) : BitVec w := BitVec.ofNat w (2^n - 1) <<< s

def put (x v : BitVec w) (n s : Nat) : BitVec w := x &&& ~~~mask w n s ||| v <<< s

def Fits (v : BitVec w) (n : Nat) : Prop := ∀ j, n ≤ j → v.getLsbD j = false

variable {x v : BitVec w} {n s j : Nat}

theorem getLsbD_mask (hj : j < w) :
    (mask w n s).getLsbD j = decide (s ≤ j ∧ j < s + n) := by
  rw [mask, BitVec.getLsbD_shiftLeft, BitVec.getLsbD_ofNat, Nat.testBit_two_pow_sub_one,
    decide_eq_true hj, Bool.true_and]
  by_cases hs : j < s
  · simp [hs]
  · simp [hs, Nat.le_of_not_lt hs, show j - s < w by omega]
    omega

theorem getLsbD_put (hv : Fits v n) (hj : j < w) : (put x v n s).getLsbD j =
    if s ≤ j ∧ j < s + n then v.getLsbD (j - s) else x.getLsbD j := by
  rw [put, BitVec.getLsbD_or, BitVec.getLsbD_and, BitVec.getLsbD_not, getLsbD_mask hj,
    BitVec.getLsbD_shiftLeft, decide_eq_true hj]
  by_cases hfield : s ≤ j ∧ j < s + n
  · rw [if_pos hfield, decide_eq_true hfield]
    simp [Nat.not_lt.mpr hfield.1]
  · rw [if_neg hfield, decide_eq_false hfield]
    by_cases hs : j < s
    · simp [hs]
    · rw [hv (j - s) (by omega)]
      simp

end RasPiArduino.BitFields
