import Mathlib

/-! wiring_pwm.c: the two channels of the PWM, its clock and the pins they come out at. The
variables are uint32_t; `none` is a division by zero. -/
namespace RasPiArduino.Pwm

/-- The registers of the PWM, of its clock and of the pins, as the calls leave them. -/
structure Registers where
  pwmctl : BitVec 32
  pwmrng1 : Nat
  pwmrng2 : Nat
  pwmdat1 : Nat
  pwmdat2 : Nat
  gppctl : BitVec 32
  gppdiv : BitVec 32
  gpfsel : List (BitVec 32)
  gppud : BitVec 32
  gppudclk0 : BitVec 32
  gppudclk1 : BitVec 32
  deriving DecidableEq, Repr

structure State where
  range : Nat
  wantedFreq : Nat
  realFreq : Nat
  hasStarted : Bool
  regs : Registers
  deriving DecidableEq, Repr

def pwmRange : Nat := 0xFF

def initial (regs : Registers) : State := ⟨pwmRange, 1, 1, false, regs⟩

def input : BitVec 8 := 0x0

def gpf0 : BitVec 8 := 0x04

def gpf5 : BitVec 8 := 0x02

def gpcpass : BitVec 32 := 0x5A#32 <<< 24

def gpsrcOsc : BitVec 32 := 0x01

def gpenab : Nat := 4

def gpdivi : Nat := 12

/-- A pin that becomes an input without a function gets its pull resistor through GPPUD and
GPPUDCLK, which are 0 again in the end. -/
def pinMode (r : Registers) (pin : Nat) (mode : BitVec 8) : Registers :=
  let shift := pin % 10 * 3
  let word := r.gpfsel.getD (pin / 10) 0 &&& ~~~(7#32 <<< shift)
  let word := word ||| ((mode &&& 7).setWidth 32 <<< shift)
  let r := { r with gpfsel := r.gpfsel.set (pin / 10) word }
  if mode &&& 7 = 0 then
    { r with
      gppud := 0
      gppudclk0 := if pin < 32 then 0 else r.gppudclk0
      gppudclk1 := if 32 ≤ pin ∧ pin < 46 then 0 else r.gppudclk1 }
  else r

def analogWriteRange (s : State) (range : Nat) : State :=
  { s with range := range, regs := { s.regs with pwmrng1 := range, pwmrng2 := range } }

/-- The wait for the clock to stop is left out. -/
def analogWriteDiv (s : State) (div : Nat) : State :=
  { s with regs := { s.regs with
      gppdiv := BitVec.ofNat 32 (div <<< gpdivi) ||| gpcpass
      gppctl := 1#32 <<< gpenab ||| gpsrcOsc ||| gpcpass } }

def analogWriteSetup (s : State) (frequency range : Nat) : Option (Nat × State) :=
  if frequency * range % 2^32 = 0 then none
  else
    let div := 19200000 / (frequency * range % 2^32)
    let div := div + (div &&& 1) * 1
    let div := div &&& 0xFFF
    if div * range % 2^32 = 0 then none
    else
      let real := 19200000 / (div * range % 2^32)
      let s := { s with wantedFreq := frequency, realFreq := real }
      some (real, analogWriteDiv (analogWriteRange s range) div)

def analogWriteInit (s : State) : Option State :=
  if s.hasStarted then some s
  else (analogWriteSetup { s with hasStarted := true } 1000 256).map fun (freq, s) =>
    { s with wantedFreq := freq, regs := { s.regs with pwmctl := 0 } }

inductive Channel where
  | one
  | two
  deriving DecidableEq, Repr

def Channel.other : Channel → Channel
  | .one => .two
  | .two => .one

def Channel.pwen : Channel → Nat
  | .one => 0
  | .two => 8

def Channel.msen : Channel → Nat
  | .one => 7
  | .two => 15

def Channel.bits (c : Channel) : BitVec 32 := 1#32 <<< c.pwen ||| 1#32 <<< c.msen

def channel (p : Nat) : Option Channel :=
  if p = 12 ∨ p = 18 ∨ p = 40 then some .one
  else if p = 13 ∨ p = 19 ∨ p = 41 ∨ p = 45 then some .two
  else none

def data (r : Registers) : Channel → Nat
  | .one => r.pwmdat1
  | .two => r.pwmdat2

def setData (r : Registers) (v : Nat) : Channel → Registers
  | .one => { r with pwmdat1 := v }
  | .two => { r with pwmdat2 := v }

def pwmPinMode (r : Registers) (p : Nat) : Registers :=
  if p = 18 ∨ p = 19 then pinMode r p gpf5
  else if p = 12 ∨ p = 13 ∨ p = 40 ∨ p = 41 ∨ p = 45 then pinMode r p gpf0
  else r

def inputPinMode (r : Registers) (p : Nat) : Registers :=
  if p = 18 ∨ p = 19 then pinMode r p input
  else if p = 12 ∨ p = 13 ∨ p = 40 ∨ p = 41 ∨ p = 45 then pinMode r p input
  else r

def enable (r : Registers) (p v : Nat) : Registers :=
  match channel p with
  | some c => setData { r with pwmctl := r.pwmctl ||| c.bits } v c
  | none => r

def disable (r : Registers) (p v : Nat) : Registers :=
  match channel p with
  | some c => setData { r with pwmctl := r.pwmctl &&& ~~~c.bits } v c
  | none => r

def analogWrite (s : State) (p v : Nat) : Option State :=
  if s.wantedFreq = 0 ∨ s.range = 0 then none
  else
    let v := v * s.realFreq % 2^32 / s.wantedFreq % s.range % 2^16
    if v ≠ 0 then
      (if s.hasStarted then some s else analogWriteInit s).map fun s =>
        { s with regs := enable (pwmPinMode s.regs p) p v }
    else some { s with regs := inputPinMode (disable s.regs p v) p }

/-! The frame of these calls. -/

def enables (r : Registers) (c : Channel) : Bool × Bool :=
  (r.pwmctl.getLsbD c.pwen, r.pwmctl.getLsbD c.msen)

structure SamePwm (r r' : Registers) : Prop where
  ctl : r'.pwmctl = r.pwmctl
  rng1 : r'.pwmrng1 = r.pwmrng1
  rng2 : r'.pwmrng2 = r.pwmrng2
  dat : ∀ c, data r' c = data r c

variable {r : Registers} {p v : Nat} {c : Channel}

theorem pinMode_samePwm (mode : BitVec 8) : SamePwm r (pinMode r p mode) := by
  unfold pinMode
  split <;> exact ⟨rfl, rfl, rfl, fun c => by cases c <;> rfl⟩

theorem pwmPinMode_samePwm : SamePwm r (pwmPinMode r p) := by
  unfold pwmPinMode
  split
  · exact pinMode_samePwm gpf5
  · split
    · exact pinMode_samePwm gpf0
    · exact ⟨rfl, rfl, rfl, fun _ => rfl⟩

theorem inputPinMode_samePwm : SamePwm r (inputPinMode r p) := by
  unfold inputPinMode
  split
  · exact pinMode_samePwm input
  · split
    · exact pinMode_samePwm input
    · exact ⟨rfl, rfl, rfl, fun _ => rfl⟩

theorem SamePwm.enables {r' : Registers} (h : SamePwm r r') (c : Channel) :
    enables r' c = enables r c := by
  rw [Pwm.enables, Pwm.enables, h.ctl]

@[simp] theorem data_setData : data (setData r v c) c = v := by
  cases c <;> rfl

@[simp] theorem data_setData_other : data (setData r v c) c.other = data r c.other := by
  cases c <;> rfl

@[simp] theorem setData_ctl : (setData r v c).pwmctl = r.pwmctl := by
  cases c <;> rfl

@[simp] theorem setData_rng1 : (setData r v c).pwmrng1 = r.pwmrng1 := by
  cases c <;> rfl

@[simp] theorem setData_rng2 : (setData r v c).pwmrng2 = r.pwmrng2 := by
  cases c <;> rfl

theorem bits_other (c : Channel) :
    c.bits.getLsbD c.other.pwen = false ∧ c.bits.getLsbD c.other.msen = false := by
  cases c <;> decide

theorem enables_or_bits (x : BitVec 32) :
    (x ||| c.bits).getLsbD c.other.pwen = x.getLsbD c.other.pwen ∧
      (x ||| c.bits).getLsbD c.other.msen = x.getLsbD c.other.msen := by
  rw [BitVec.getLsbD_or, BitVec.getLsbD_or, (bits_other c).1, (bits_other c).2]
  simp

theorem enables_and_not_bits (x : BitVec 32) :
    (x &&& ~~~c.bits).getLsbD c.other.pwen = x.getLsbD c.other.pwen ∧
      (x &&& ~~~c.bits).getLsbD c.other.msen = x.getLsbD c.other.msen := by
  have hlt : c.other.pwen < 32 ∧ c.other.msen < 32 := by cases c <;> decide
  rw [BitVec.getLsbD_and, BitVec.getLsbD_and, BitVec.getLsbD_not, BitVec.getLsbD_not,
    (bits_other c).1, (bits_other c).2]
  simp [hlt]

/-- A call on one channel keeps the ranges and the other channel. -/
structure OnlyChannel (c : Channel) (r r' : Registers) : Prop where
  rng1 : r'.pwmrng1 = r.pwmrng1
  rng2 : r'.pwmrng2 = r.pwmrng2
  dat : data r' c.other = data r c.other
  enabled : enables r' c.other = enables r c.other

theorem enable_spec (hc : channel p = some c) :
    OnlyChannel c r (enable (pwmPinMode r p) p v) ∧ data (enable (pwmPinMode r p) p v) c = v := by
  have h := pwmPinMode_samePwm (r := r) (p := p)
  simp only [enable, hc]
  refine ⟨⟨?_, ?_, ?_, ?_⟩, by simp⟩
  · simpa using h.rng1
  · simpa using h.rng2
  · rw [data_setData_other, ← h.dat c.other]
    cases c <;> rfl
  · have hbits := enables_or_bits (c := c) (pwmPinMode r p).pwmctl
    rw [← h.enables c.other, enables, enables, setData_ctl, hbits.1, hbits.2]

theorem disable_spec (hc : channel p = some c) :
    OnlyChannel c r (inputPinMode (disable r p v) p) ∧
      data (inputPinMode (disable r p v) p) c = v := by
  have h := inputPinMode_samePwm (r := disable r p v) (p := p)
  have hbits := enables_and_not_bits (c := c) r.pwmctl
  simp only [disable, hc] at h ⊢
  refine ⟨⟨by simpa using h.rng1, by simpa using h.rng2, ?_, ?_⟩, by simpa using h.dat c⟩
  · rw [h.dat, data_setData_other]
    cases c <;> rfl
  · rw [h.enables, enables, enables, setData_ctl, hbits.1, hbits.2]

end RasPiArduino.Pwm
