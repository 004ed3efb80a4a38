import Mathlib.Data.List.Basic

/-! wiring_int.c: the pins registered for interrupts, their remembered levels, and one turn
of the polling loop. Widths are those of the ARM target, where int has 32 bits. -/
namespace RasPiArduino.Isr

def bv (a : Nat) : BitVec 32 := 1#32 <<< a

def widen (x : BitVec 32) : BitVec 64 := x.signExtend 64

inductive Mode where
  | rising
  | falling
  | change
  deriving DecidableEq, Repr

def Mode.code : Mode → Int
  | .rising => 2
  | .falling => 1
  | .change => 3

structure Handler where
  mode : UInt8
  fn : Nat
  deriving DecidableEq, Repr

structure Levels where
  gplev0 : BitVec 32
  gplev1 : BitVec 32
  deriving DecidableEq, Repr

structure State where
  handlers : List Handler
  reg : BitVec 64
  last : BitVec 64
  deriving DecidableEq, Repr

def initial : State := ⟨List.replicate 64 ⟨0, 0⟩, 0, 0⟩

def digitalRead (l : Levels) (pin : Nat) : BitVec 32 :=
  if pin < 32 then if l.gplev0 &&& bv pin ≠ 0 then 1 else 0
  else if pin > 45 then 0
  else if l.gplev1 &&& bv (pin - 32) ≠ 0 then 1 else 0

def attachInterrupt (s : State) (l : Levels) (pin : Nat) (fn : Nat) (mode : Int) : Bool × State :=
  if pin < 46 then
    (s.reg == 0,
      { handlers := s.handlers.set pin ⟨UInt8.ofInt mode, fn⟩
        last := s.last ||| widen (digitalRead l pin <<< pin)
        reg := s.reg ||| widen (bv pin) })
  else (false, s)

def detachInterrupt (s : State) (pin : Nat) : State :=
  if pin < 46 then
    { s with
      reg := s.reg &&& widen (~~~bv pin)
      handlers := s.handlers.set pin ⟨0, 0⟩ }
  else s

/-- The levels of the registered pins, and which of them changed. -/
def sample (s : State) (l : Levels) : BitVec 64 × BitVec 32 :=
  let state := l.gplev0.setWidth 64
  let state := if s.reg >>> 32 ≠ 0 then state ||| l.gplev1.setWidth 64 <<< 32 else state
  let state := state &&& s.reg
  (state, (state ^^^ s.last).setWidth 32)

def due (h : Handler) (state : BitVec 64) (i : Nat) : Bool :=
  if state &&& widen (bv i) = 0 then (h.mode == 1 || h.mode == 3) && h.fn != 0
  else (h.mode == 2 || h.mode == 3) && h.fn != 0

/-- The loop over the bits set in `changed`, lowest first: the pins whose handlers are
started. -/
def dispatch (s : State) (state : BitVec 64) (changed : BitVec 32) : List Nat × State :=
  ((List.range 32).filter fun i => changed.getLsbD i && due (s.handlers.getD i ⟨0, 0⟩) state i,
    { s with last := state })

def poll (s : State) (l : Levels) : List Nat × State :=
  let (state, changed) := sample s l
  if changed ≠ 0 then dispatch s state changed else ([], s)

/-! These words bit by bit. -/

theorem getLsbD_bv {i : Nat} (hi : i < 32) (j : Nat) : (bv i).getLsbD j = decide (j = i) := by
  rw [bv, BitVec.getLsbD_shiftLeft, BitVec.getLsbD_one]
  by_cases h : j = i
  · simp [h, hi]
  · simp [h]
    omega

theorem and_bv_ne_zero_iff {x : BitVec 32} {i : Nat} (hi : i < 32) :
    x &&& bv i ≠ 0 ↔ x.getLsbD i = true := by
  constructor
  · intro h
    by_contra hx
    refine h (BitVec.eq_of_getLsbD_eq fun j hj => ?_)
    rw [BitVec.getLsbD_and, getLsbD_bv hi]
    by_cases hji : j = i
    · simpa [hji] using hx
    · simp [hji]
  · intro hx h
    have hbit := congrArg (BitVec.getLsbD · i) h
    simp [getLsbD_bv hi, hx] at hbit

theorem digitalRead_eq (l : Levels) {pin : Nat} (h : pin < 32) :
    digitalRead l pin = if l.gplev0.getLsbD pin = true then 1 else 0 := by
  rw [digitalRead, if_pos h]
  simp only [and_bv_ne_zero_iff h]

theorem getLsbD_widen_bv {i : Nat} (hi : i < 31) (j : Nat) :
    (widen (bv i)).getLsbD j = decide (j = i) := by
  have hmsb : (bv i).msb = false := by
    rw [BitVec.msb_eq_getLsbD_last, getLsbD_bv (by omega)]
    simp
    omega
  rw [widen, BitVec.getLsbD_signExtend, getLsbD_bv (by omega), hmsb]
  by_cases hj : j = i
  · simp [hj]
    omega
  · simp [hj]

theorem widen_not (x : BitVec 32) : widen (~~~x) = ~~~widen x :=
  BitVec.signExtend_not (by decide)

theorem getLsbD_widen_not_bv {i : Nat} (hi : i < 31) (j : Nat) :
    (widen (~~~bv i)).getLsbD j = (decide (j < 64) && decide (j ≠ i)) := by
  rw [widen_not, BitVec.getLsbD_not, getLsbD_widen_bv hi, decide_not]

theorem getLsbD_widen_level (l : Levels) {i : Nat} (hi : i < 31) (j : Nat) :
    (widen (digitalRead l i <<< i)).getLsbD j = (decide (j = i) && l.gplev0.getLsbD i) := by
  rw [digitalRead_eq l (by omega)]
  cases hl : l.gplev0.getLsbD i with
  | true =>
    rw [if_pos rfl, Bool.and_true]
    exact getLsbD_widen_bv hi j
  | false => simp [widen]

theorem and_widen_bv_eq_zero_iff {x : BitVec 64} {i : Nat} (hi : i < 31) :
    x &&& widen (bv i) = 0 ↔ x.getLsbD i = false := by
  constructor
  · intro h
    have hbit := congrArg (BitVec.getLsbD · i) h
    simpa [getLsbD_widen_bv hi] using hbit
  · intro hx
    refine BitVec.eq_of_getLsbD_eq fun j hj => ?_
    rw [BitVec.getLsbD_and, getLsbD_widen_bv hi]
    by_cases hji : j = i
    · simp [hji, hx]
    · simp [hji]

/-! What a poll sees. -/

def pinLevel (l : Levels) (pin : Nat) : Bool :=
  if pin < 32 then l.gplev0.getLsbD pin else l.gplev1.getLsbD (pin - 32)

theorem sample_state (s : State) (l : Levels) (j : Nat) :
    (sample s l).1.getLsbD j = (pinLevel l j && s.reg.getLsbD j) := by
  simp only [sample, BitVec.getLsbD_and]
  cases hreg : s.reg.getLsbD j with
  | false => rw [Bool.and_false, Bool.and_false]
  | true =>
    rw [Bool.and_true, Bool.and_true, pinLevel]
    have hj64 : j < 64 := BitVec.lt_of_getLsbD hreg
    by_cases hj : j < 32
    · split <;> simp [hj, hj64]
    · have hwide : s.reg >>> 32 ≠ 0 := by
        intro h0
        have hbit := congrArg (BitVec.getLsbD · (j - 32)) h0
        simp only [BitVec.getLsbD_ushiftRight] at hbit
        rw [Nat.add_sub_cancel' (by omega), hreg] at hbit
        simp at hbit
      have hlow : l.gplev0.getLsbD j = false := BitVec.getLsbD_of_ge _ _ (by omega)
      rw [if_pos hwide, if_neg hj]
      simp [hj, hj64, hlow]

theorem sample_changed (s : State) (l : Levels) (j : Nat) : (sample s l).2.getLsbD j =
    (decide (j < 32) && ((sample s l).1.getLsbD j ^^ s.last.getLsbD j)) := by
  simp only [sample, BitVec.getLsbD_setWidth, BitVec.getLsbD_xor]

theorem mem_poll {s : State} {l : Levels} {j : Nat} : j ∈ (poll s l).1 ↔
    j < 32 ∧ (sample s l).2.getLsbD j = true ∧
      due (s.handlers.getD j ⟨0, 0⟩) (sample s l).1 j = true := by
  simp only [poll]
  split
  · simp [dispatch]
  · next hc =>
    rw [not_not] at hc
    simp [hc]

end RasPiArduino.Isr
