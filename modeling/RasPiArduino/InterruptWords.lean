import RasPiArduino.Interrupts

/-! The registration and last-level words bit by bit, over all the pins that the calls accept.
A mask is shifted as an int and widened afterwards: bit 31 is the sign of the int, so its mask
reaches all bits above it, and the masks of the pins from 32 on are 0. -/
namespace RasPiArduino.Isr

/-- The bits at which the widened mask of a pin is not that of a 64-bit shift. -/
def Slips (pin j : Nat) : Prop := 32 ≤ j ∧ j < 64 ∧ (pin = 31 ∨ j = pin)

instance (pin j : Nat) : Decidable (Slips pin j) := inferInstanceAs (Decidable (_ ∧ _))

theorem bv_high {i : Nat} (hi : 32 ≤ i) : bv i = 0 := BitVec.shiftLeft_eq_zero hi

theorem or_slip : ∀ a b : Bool, (a || (b ^^ true)) = (a || b) ↔ a = true := by decide

theorem or_slip_and : ∀ a b c : Bool,
    (a || ((b ^^ true) && c)) = (a || (b && c)) ↔ (c = true → a = true) := by decide

theorem and_slip : ∀ a b : Bool, (a && !(b ^^ true)) = (a && !b) ↔ a = false := by decide

theorem getLsbD_mask {pin : Nat} (hpin : pin < 64) {j : Nat} (hj : j < 64) :
    (widen (bv pin)).getLsbD j = (decide (j = pin) ^^ decide (Slips pin j)) := by
  by_cases hlow : pin < 31
  · have hs : ¬ Slips pin j := by
      rintro ⟨h32, -, h31 | hjp⟩
      · omega
      · omega
    rw [getLsbD_widen_bv hlow, decide_eq_false hs, Bool.xor_false]
  · by_cases h31 : pin = 31
    · subst h31
      have hmsb : (bv 31).msb = true := by decide
      rw [widen, BitVec.getLsbD_signExtend, hmsb, getLsbD_bv (by decide)]
      by_cases hj32 : j < 32
      · have hs : ¬ Slips 31 j := fun hs => absurd hs.1 (by omega)
        simp [hj, hj32, hs]
      · have hs : Slips 31 j := ⟨by omega, hj, Or.inl rfl⟩
        have hne : j ≠ 31 := by omega
        simp [hj, hj32, hs, hne]
    · rw [bv_high (by omega)]
      by_cases hjp : j = pin
      · have hs : Slips pin j := ⟨by omega, hj, Or.inr hjp⟩
        simp [widen, hjp, hjp ▸ hs]
      · have hs : ¬ Slips pin j := by
          rintro ⟨-, -, h | h⟩
          · exact h31 h
          · exact hjp h
        simp [widen, hs, hjp]

theorem digitalRead_shift (l : Levels) {pin : Nat} (hpin : pin < 46) :
    digitalRead l pin <<< pin = if pinLevel l pin then bv pin else 0 := by
  by_cases h : pin < 32
  · rw [digitalRead_eq l h, pinLevel, if_pos h]
    cases l.gplev0.getLsbD pin <;> simp [bv]
  · rw [bv_high (by omega), ite_self]
    exact BitVec.shiftLeft_eq_zero (by omega)

variable (s : State) (l : Levels)

/-- attachInterrupt() registers the pin, remembers a high level and changes no other bit. -/
def Attaches (pin : Fin 46) (fn : Nat) (mode : Int) : Prop :=
  ∀ j < 64,
    (attachInterrupt s l pin fn mode).2.reg.getLsbD j = (s.reg.getLsbD j || decide (j = pin)) ∧
    (attachInterrupt s l pin fn mode).2.last.getLsbD j =
      (s.last.getLsbD j || (decide (j = pin) && pinLevel l pin))

def Detaches (pin : Fin 46) : Prop :=
  ∀ j < 64, (detachInterrupt s pin).reg.getLsbD j = (s.reg.getLsbD j && decide (j ≠ pin))

def Handler.Wants (h : Handler) (level : Bool) : Prop :=
  h.fn ≠ 0 ∧ (h.mode = 3 ∨ h.mode = if level then 2 else 1)

/-- A registered pin has changed in the direction of its mode. -/
def Turned (pin : Nat) : Prop :=
  pin < 46 ∧ s.reg.getLsbD pin = true ∧ s.last.getLsbD pin ≠ pinLevel l pin ∧
    (s.handlers.getD pin ⟨0, 0⟩).Wants (pinLevel l pin)

def Dispatches : Prop := ∀ pin, Turned s l pin → pin ∈ (poll s l).1

/-- The bits where the mask slips are set already. -/
def AttachSafe (pin : Nat) : Prop :=
  ∀ j, Slips pin j → s.reg.getLsbD j = true ∧ (pinLevel l pin = true → s.last.getLsbD j = true)

def DetachSafe (pin : Nat) : Prop := ∀ j, Slips pin j → s.reg.getLsbD j = false

/-- Only pins of the low word turned; pin 31, if it turned low and does not wait for any change,
with no high pin above it. -/
def DispatchSafe : Prop :=
  ∀ pin, Turned s l pin → pin < 32 ∧ (pin = 31 → pinLevel l 31 = false →
    (s.handlers.getD 31 ⟨0, 0⟩).mode = 3 ∨
      ∀ j, 32 ≤ j → j < 64 → s.reg.getLsbD j = true → pinLevel l j = false)

theorem attaches_iff (pin : Fin 46) (fn : Nat) (mode : Int) :
    Attaches s l pin fn mode ↔ AttachSafe s l pin := by
  have hpin := pin.isLt
  have hreg (j : Nat) (hj : j < 64) : (attachInterrupt s l pin fn mode).2.reg.getLsbD j =
      (s.reg.getLsbD j || (decide (j = pin) ^^ decide (Slips pin j))) := by
    simp only [attachInterrupt, if_pos hpin, BitVec.getLsbD_or]
    rw [getLsbD_mask (by omega) hj]
  have hlast (j : Nat) (hj : j < 64) : (attachInterrupt s l pin fn mode).2.last.getLsbD j =
      (s.last.getLsbD j || ((decide (j = pin) ^^ decide (Slips pin j)) && pinLevel l pin)) := by
    simp only [attachInterrupt, if_pos hpin, BitVec.getLsbD_or]
    rw [digitalRead_shift l hpin]
    cases pinLevel l pin with
    | false => simp [widen]
    | true => simp [getLsbD_mask (show pin.val < 64 by omega) hj]
  constructor
  · intro h j hs
    have hj := hs.2.1
    have hbits := h j hj
    rw [hreg j hj, hlast j hj, decide_eq_true hs, or_slip, or_slip_and] at hbits
    exact hbits
  · intro h j hj
    rw [hreg j hj, hlast j hj]
    by_cases hs : Slips pin j
    · rw [decide_eq_true hs, or_slip, or_slip_and]
      exact h j hs
    · rw [decide_eq_false hs, Bool.xor_false]
      exact ⟨rfl, rfl⟩

theorem detaches_iff (pin : Fin 46) : Detaches s pin ↔ DetachSafe s pin := by
  have hpin := pin.isLt
  have hreg (j : Nat) (hj : j < 64) : (detachInterrupt s pin).reg.getLsbD j =
      (s.reg.getLsbD j && !(decide (j = pin) ^^ decide (Slips pin j))) := by
    simp only [detachInterrupt, if_pos hpin, widen_not, BitVec.getLsbD_and, BitVec.getLsbD_not]
    rw [getLsbD_mask (by omega) hj, decide_eq_true hj, Bool.true_and]
  constructor
  · intro h j hs
    have hj := hs.2.1
    have hbit := h j hj
    rw [hreg j hj, decide_eq_true hs, decide_not, and_slip] at hbit
    exact hbit
  · intro h j hj
    rw [hreg j hj, decide_not]
    by_cases hs : Slips pin j
    · rw [decide_eq_true hs, and_slip]
      exact h j hs
    · rw [decide_eq_false hs, Bool.xor_false]

theorem due_iff_wants (h : Handler) (state : BitVec 64) (i : Nat) :
    due h state i = true ↔ h.Wants (decide (state &&& widen (bv i) ≠ 0)) := by
  rw [due, Handler.Wants]
  by_cases hz : state &&& widen (bv i) = 0
  · rw [if_pos hz, decide_eq_false (not_not.mpr hz)]
    simp [and_comm, or_comm]
  · rw [if_neg hz, decide_eq_true hz]
    simp [and_comm, or_comm]

theorem ne_zero_iff {w : Nat} (x : BitVec w) : x ≠ 0#w ↔ ∃ j < w, x.getLsbD j = true := by
  constructor
  · intro h
    by_contra hno
    refine h (BitVec.eq_of_getLsbD_eq fun j hj => ?_)
    rw [BitVec.getLsbD_zero]
    exact Bool.eq_false_iff.mpr fun hx => hno ⟨j, hj, hx⟩
  · rintro ⟨j, -, hx⟩ h0
    rw [h0, BitVec.getLsbD_zero] at hx
    exact Bool.false_ne_true hx

theorem masked_iff {pin : Nat} (hpin : pin < 32) : (sample s l).1 &&& widen (bv pin) ≠ 0 ↔
    ∃ j < 64, (j = pin ∨ Slips pin j) ∧ pinLevel l j = true ∧ s.reg.getLsbD j = true := by
  refine (ne_zero_iff _).trans (exists_congr fun j => and_congr_right fun hj => ?_)
  have hone : ¬ (j = pin ∧ Slips pin j) := fun h => absurd h.2.1 (by omega)
  have hxor : (decide (j = pin) ^^ decide (Slips pin j)) = true ↔ (j = pin ∨ Slips pin j) := by
    by_cases hjp : j = pin
    · have hs : ¬ Slips pin j := fun hs => hone ⟨hjp, hs⟩
      simp only [hjp, hjp ▸ hs, decide_true, decide_false, Bool.xor_false, true_or]
    · simp only [hjp, decide_false, Bool.false_xor, decide_eq_true_eq, false_or]
  rw [BitVec.getLsbD_and, sample_state, getLsbD_mask (by omega) hj, Bool.and_eq_true, hxor,
    Bool.and_eq_true, and_comm]

theorem mem_poll_turned {pin : Nat} (ht : Turned s l pin) : pin ∈ (poll s l).1 ↔ pin < 32 ∧
    (s.handlers.getD pin ⟨0, 0⟩).Wants
      (decide ((sample s l).1 &&& widen (bv pin) ≠ 0)) := by
  rw [mem_poll, due_iff_wants]
  refine and_congr_right fun hpin => and_iff_right ?_
  rw [sample_changed, sample_state, ht.2.1, decide_eq_true hpin]
  simpa using ht.2.2.1.symm

theorem dispatches_iff : Dispatches s l ↔ DispatchSafe s l := by
  refine forall_congr' fun pin => forall_congr' fun ht => ?_
  rw [mem_poll_turned s l ht]
  refine and_congr_right fun hpin => ?_
  constructor
  · rintro hwants rfl hlow
    by_cases hmode : (s.handlers.getD 31 ⟨0, 0⟩).mode = 3
    · exact Or.inl hmode
    · refine Or.inr fun j hj hj64 hreg => Bool.eq_false_iff.mpr fun hhigh => ?_
      have hseen := (masked_iff s l hpin).mpr ⟨j, hj64, Or.inr ⟨hj, hj64, Or.inl rfl⟩, hhigh, hreg⟩
      rw [decide_eq_true hseen] at hwants
      have hrising := hwants.2.resolve_left hmode
      have hfalling := ht.2.2.2.2.resolve_left hmode
      rw [hlow, hrising] at hfalling
      exact absurd hfalling (by decide)
  · intro h
    by_cases hseen : decide ((sample s l).1 &&& widen (bv pin) ≠ 0) = pinLevel l pin
    · rw [hseen]
      exact ht.2.2.2
    · -- The mask of pin 31 found another pin.
      have hlow : pinLevel l pin = false := by
        refine Bool.eq_false_iff.mpr fun hhigh => hseen ?_
        rw [hhigh, decide_eq_true_eq, masked_iff s l hpin]
        exact ⟨pin, by omega, Or.inl rfl, hhigh, ht.2.1⟩
      rw [hlow, decide_eq_false_iff_not, not_not, masked_iff s l hpin] at hseen
      obtain ⟨j, hj64, hslip, hhigh, hreg⟩ := hseen
      have hne : j ≠ pin := fun hjp => by simp [hjp, hlow] at hhigh
      obtain ⟨hj, -, hsign⟩ := hslip.resolve_left hne
      have h31 : pin = 31 := hsign.resolve_right hne
      subst h31
      have hmode := (h rfl hlow).resolve_right fun hquiet => by
        rw [hquiet j hj hj64 hreg] at hhigh
        exact Bool.false_ne_true hhigh
      exact ⟨ht.2.2.2.1, Or.inl hmode⟩

/-- Each of the calls does what is promised exactly when no slipped mask matters to it. -/
theorem words_iff (pin : Fin 46) (fn : Nat) (mode : Int) :
    (Attaches s l pin fn mode ↔ AttachSafe s l pin) ∧ (Detaches s pin ↔ DetachSafe s pin) ∧
    (Dispatches s l ↔ DispatchSafe s l) :=
  ⟨attaches_iff s l pin fn mode, detaches_iff s pin, dispatches_iff s l⟩

/-- Pin 32 is not registered, detaching pin 31 takes pin 32 with it, and the handler of a pin 32
that rises is not started. -/
theorem masks_slip : ¬ Attaches initial ⟨0, 0⟩ 32 1 2 ∧
    ¬ Detaches ⟨initial.handlers, 1#64 <<< 32, 0⟩ 31 ∧
    ¬ Dispatches ⟨initial.handlers.set 32 ⟨2, 1⟩, 1#64 <<< 32, 0⟩ ⟨0, 1⟩ := by
  refine ⟨fun h => ?_, fun h => ?_, fun h => ?_⟩
  · have hbit := (h 32 (by decide)).1
    revert hbit
    decide
  · have hbit := h 32 (by decide)
    revert hbit
    decide
  · have hstarted := h 32 ⟨by decide, by decide, by decide, by decide, by decide⟩
    revert hstarted
    decide

end RasPiArduino.Isr
