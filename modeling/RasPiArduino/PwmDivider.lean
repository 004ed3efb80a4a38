import RasPiArduino.Pwm

/-! Which divider analogWriteSetup() programs for a frequency and a range. -/
namespace RasPiArduino.Pwm

def divider (r : Registers) : Nat := r.gppdiv.toNat / 2^gpdivi % 2^12

def Wanted (quotient d : Nat) : Prop :=
  ∃ e, IsLeast {n | Even n ∧ quotient ≤ n} e ∧ d = max 2 (min 4094 e)

/-- The setup succeeds without losing a carry, programs the divider wanted and returns the
frequency that it gives. -/
def SetsUp (s : State) (frequency range : Nat) : Prop :=
  ∃ real t, analogWriteSetup s frequency range = some (real, t) ∧
    frequency * range < 2^32 ∧ divider t.regs * range < 2^32 ∧
    Wanted (19200000 / (frequency * range)) (divider t.regs) ∧
    real = 19200000 / (divider t.regs * range)

/-- The clock is not too slow for the product, and the rounded quotient, if it does not fit into
12 bits, has those of the highest divider in them. -/
def InReach (frequency range : Nat) : Prop :=
  frequency * range ≤ 19200000 ∧
    (19200000 / (frequency * range) ≤ 4094 ∨
      (19200000 / (frequency * range) + 19200000 / (frequency * range) % 2) % 2^12 = 4094)

/-- The divider as it is computed: rounded up to even, and its low 12 bits. -/
def rounded (quotient : Nat) : Nat := (quotient + quotient % 2) % 2^12

variable {s : State} {frequency range : Nat}

theorem isLeast_even (q : Nat) : IsLeast {n | Even n ∧ q ≤ n} (q + q % 2) := by
  constructor
  · rw [Set.mem_ofPred_eq, Nat.even_iff]
    omega
  · rintro n ⟨heven, hle⟩
    rw [Nat.even_iff] at heven
    omega

theorem wanted_iff (q d : Nat) : Wanted q d ↔ d = max 2 (min 4094 (q + q % 2)) := by
  constructor
  · rintro ⟨e, he, hd⟩
    rwa [he.unique (isLeast_even q)] at hd
  · intro hd
    exact ⟨q + q % 2, isLeast_even q, hd⟩

theorem divider_analogWriteDiv (s : State) {d : Nat} (hd : d < 2^12) :
    divider (analogWriteDiv s d).regs = d := by
  have hlow : d * 2^12 < 2^24 := by omega
  have hword : (BitVec.ofNat 32 (d <<< gpdivi) ||| gpcpass).toNat = 2^24 * 0x5A + d * 2^12 := by
    have hpass : gpcpass.toNat = 2^24 * 0x5A := by decide
    rw [BitVec.toNat_or, BitVec.toNat_ofNat, gpdivi, Nat.shiftLeft_eq,
      Nat.mod_eq_of_lt (by omega), hpass, Nat.or_comm, ← Nat.two_pow_add_eq_or_of_lt hlow]
  simp only [divider, analogWriteDiv]
  rw [hword, gpdivi]
  omega

theorem rounded_eq_iff {q : Nat} (hq : 1 ≤ q) : rounded q = max 2 (min 4094 (q + q % 2)) ↔
    q ≤ 4094 ∨ (q + q % 2) % 2^12 = 4094 := by
  rw [rounded]
  omega

theorem rounded_le (q : Nat) : rounded q ≤ q + 1 := by
  have hmod := Nat.mod_le (q + q % 2) (2^12)
  rw [rounded]
  omega

theorem rounded_mul_lt (hf : 1 ≤ frequency) (hr : 1 ≤ range)
    (h : frequency * range ≤ 19200000) :
    rounded (19200000 / (frequency * range)) * range < 2^32 := by
  have hrange : range ≤ frequency * range := Nat.le_mul_of_pos_left range hf
  have hquotient := Nat.div_mul_le_self 19200000 (frequency * range)
  calc rounded (19200000 / (frequency * range)) * range
      ≤ (19200000 / (frequency * range) + 1) * (frequency * range) :=
        Nat.mul_le_mul (rounded_le _) hrange
    _ = 19200000 / (frequency * range) * (frequency * range) + frequency * range :=
        Nat.succ_mul _ _
    _ < 2^32 := by omega

theorem analogWriteSetup_eq (h0 : frequency * range ≠ 0) (hfits : frequency * range < 2^32) :
    analogWriteSetup s frequency range =
      if rounded (19200000 / (frequency * range)) * range % 2^32 = 0 then none
      else some (19200000 / (rounded (19200000 / (frequency * range)) * range % 2^32),
        analogWriteDiv (analogWriteRange { s with
          wantedFreq := frequency
          realFreq := 19200000 / (rounded (19200000 / (frequency * range)) * range % 2^32) } range)
          (rounded (19200000 / (frequency * range)))) := by
  have hround (q : Nat) : (q + (q &&& 1) * 1) &&& 0xFFF = rounded q := by
    rw [rounded, Nat.and_one_is_mod, Nat.mul_one]
    exact Nat.and_two_pow_sub_one_eq_mod _ 12
  rw [analogWriteSetup, Nat.mod_eq_of_lt hfits, if_neg h0]
  simp only [hround]

theorem analogWriteSetup_some (h0 : frequency * range ≠ 0) (hfits : frequency * range < 2^32)
    {real : Nat} {t : State} (h : analogWriteSetup s frequency range = some (real, t)) :
    divider t.regs = rounded (19200000 / (frequency * range)) := by
  rw [analogWriteSetup_eq h0 hfits] at h
  split at h
  · cases h
  · obtain rfl := congrArg Prod.snd (Option.some.inj h)
    exact divider_analogWriteDiv _ (Nat.mod_lt _ (by decide))

/-- The setup does what is promised exactly when the divider is in reach. -/
theorem setsUp_iff (s : State) (frequency range : Nat) (hf : 1 ≤ frequency) (hr : 1 ≤ range) :
    SetsUp s frequency range ↔ InReach frequency range := by
  have hpos : 0 < frequency * range := Nat.mul_pos hf hr
  constructor
  · rintro ⟨real, t, hsome, hfits, -, hwanted, -⟩
    rw [analogWriteSetup_some (by omega) hfits hsome, wanted_iff] at hwanted
    have hle : frequency * range ≤ 19200000 := by
      by_contra hgt
      rw [Nat.div_eq_of_lt (by omega)] at hwanted
      exact absurd hwanted (by decide)
    exact ⟨hle, (rounded_eq_iff (Nat.div_pos hle hpos)).mp hwanted⟩
  · rintro ⟨hle, hdiv⟩
    have hrounded := (rounded_eq_iff (Nat.div_pos hle hpos)).mpr hdiv
    have hlt := rounded_mul_lt hf hr hle
    have hne : rounded (19200000 / (frequency * range)) * range ≠ 0 := by
      refine (Nat.mul_pos ?_ hr).ne'
      omega
    have hsetup := analogWriteSetup_eq (s := s) (by omega) (show frequency * range < 2^32 by omega)
    rw [Nat.mod_eq_of_lt hlt, if_neg hne] at hsetup
    have hdivider := analogWriteSetup_some (by omega) (by omega) hsetup
    refine ⟨_, _, hsetup, by omega, ?_, ?_, ?_⟩
    · rw [hdivider]
      exact hlt
    · rw [hdivider]
      exact (wanted_iff _ _).mpr hrounded
    · rw [hdivider]

theorem setsUp_iff_default :
    SetsUp (initial ⟨0, 0, 0, 0, 0, 0, 0, [], 0, 0, 0⟩) 1000 256 :=
  (setsUp_iff (initial ⟨0, 0, 0, 0, 0, 0, 0, [], 0, 0, 0⟩) 1000 256 (by decide) (by decide)).mpr
    ⟨by decide, by decide⟩

/-- At 100 kHz and a range of 256 the quotient is 0, and so is the divider. -/
theorem setup_divides_by_zero : ¬ ∀ s frequency range, 1 ≤ frequency → frequency < 2^32 →
    1 ≤ range → range < 2^32 → SetsUp s frequency range := by
  intro h
  obtain ⟨real, t, hsome, -⟩ := h (initial ⟨0, 0, 0, 0, 0, 0, 0, [], 0, 0, 0⟩) 100000 256
    (by decide) (by norm_num) (by decide) (by norm_num)
  have hnone : analogWriteSetup (initial ⟨0, 0, 0, 0, 0, 0, 0, [], 0, 0, 0⟩) 100000 256 = none := by
    decide
  rw [hnone] at hsome
  cases hsome

end RasPiArduino.Pwm
