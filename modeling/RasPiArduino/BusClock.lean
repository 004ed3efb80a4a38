import Mathlib

/-! The clock dividers of the buses: the macros of bcm2835_registers.h, and the functions of SPI,
Wire and wiring_ids.c that program them. `none` is a division by zero. -/
namespace RasPiArduino.BusClock

/-- The clock that the dividers of SPI0 divide, and the one of the I2C masters. -/
def fCpu : UInt32 := 250000000

def bscClk : UInt32 := 150000000

def f2div (source f : UInt32) : Option UInt32 :=
  if f = 0 then none else some ((source / f + 1) &&& 0xFFFE)

def spi0f2div (f : UInt32) : Option UInt32 := f2div fCpu f

def bscf2div (f : UInt32) : Option UInt32 := f2div bscClk f

structure Registers where
  spi0cs : UInt32
  spi0clk : UInt32
  bsc0div : UInt32
  bsc1div : UInt32
  deriving DecidableEq, Repr

def spi0cpha : UInt32 := 2

def spi0cpol : UInt32 := 3

def spi0mode3 : UInt32 := 1 <<< spi0cpha ||| 1 <<< spi0cpol

structure SPISettings where
  freq : UInt32
  mode : UInt8
  deriving DecidableEq, Repr

def SPISettings.default : SPISettings := ⟨4000000, 0⟩

/-- The constructor with values; there is no bit order here. -/
def SPISettings.ofValues (clockFreq : UInt32) (_bitOrder dataMode : UInt8) : SPISettings :=
  ⟨clockFreq, dataMode &&& spi0mode3.toUInt8⟩

/-! SPIClass. -/

def setClockDivider (r : Registers) (rate : UInt32) : Registers := { r with spi0clk := rate }

def setClock (r : Registers) (rate : UInt32) : Option Registers :=
  (spi0f2div rate).map (setClockDivider r)

def beginTransaction (r : Registers) (settings : SPISettings) : Option Registers :=
  (spi0f2div settings.freq).map fun d =>
    let r := { r with spi0clk := d }
    let r := { r with spi0cs := r.spi0cs &&& ~~~spi0mode3 }
    { r with spi0cs := r.spi0cs ||| settings.mode.toUInt32 }

def wireSetClock (r : Registers) (frequency : UInt32) : Option Registers :=
  (bscf2div frequency).map fun d => { r with bsc1div := d }

def idsSetFreq (r : Registers) (frequency : UInt32) : Option Registers :=
  (bscf2div frequency).map fun d => { r with bsc0div := d }

inductive Setter where
  | spiSetClock
  | spiBeginTransaction (bitOrder dataMode : UInt8)
  | wireSetClock
  | idsSetFreq
  deriving DecidableEq, Repr

def Setter.source : Setter → UInt32
  | .spiSetClock | .spiBeginTransaction _ _ => fCpu
  | .wireSetClock | .idsSetFreq => bscClk

def Setter.run (r : Registers) (f : UInt32) : Setter → Option Registers
  | .spiSetClock => setClock r f
  | .spiBeginTransaction bitOrder dataMode =>
    beginTransaction r (SPISettings.ofValues f bitOrder dataMode)
  | .wireSetClock => BusClock.wireSetClock r f
  | .idsSetFreq => BusClock.idsSetFreq r f

def Setter.divider (r : Registers) : Setter → UInt32
  | .spiSetClock | .spiBeginTransaction _ _ => r.spi0clk
  | .wireSetClock => r.bsc1div
  | .idsSetFreq => r.bsc0div

/-- An even divider of 16 bits with which the bus runs no faster than at `f`. -/
def Slow (source f d : ℕ) : Prop := Even d ∧ 2 ≤ d ∧ d < 2^16 ∧ (source : ℚ) / d ≤ f

structure Serves (source f d : ℕ) : Prop where
  even : Even d
  ne_zero : d ≠ 0
  slow : (source : ℚ) / d ≤ f
  near : ∃ e, IsLeast {n | Slow source f n} e ∧ (d = e ∨ d = e + 2)

/-- The quotient is odd, or nothing was cut off from it. -/
def RoundsUp (source f : ℕ) : Prop := source / f % 2 = 1 ∨ f ∣ source

variable {source f d n q : ℕ}

theorem rate_le_iff (hd : 0 < d) : (source : ℚ) / d ≤ f ↔ source ≤ f * d := by
  rw [div_le_iff₀ (by exact_mod_cast hd)]
  exact_mod_cast Iff.rfl

theorem slow_iff : Slow source f d ↔ Even d ∧ 2 ≤ d ∧ d < 2^16 ∧ source ≤ f * d := by
  refine and_congr_right fun _ => and_congr_right fun hd => and_congr_right fun _ => ?_
  exact rate_le_iff (by omega)

theorem and_mask (hq : q + 1 < 2^16) : (q + 1) &&& 0xFFFE = q + q % 2 := by
  have hhalf : ((q + 1) &&& 0xFFFE) / 2 = (q + 1) / 2 := by
    rw [Nat.and_div_two]
    exact (Nat.and_two_pow_sub_one_eq_mod _ 15).trans (Nat.mod_eq_of_lt (by omega))
  have hbit : ((q + 1) &&& 0xFFFE) % 2 ≠ 1 := fun h =>
    absurd (Nat.and_mod_two_eq_one.mp h).2 (by decide)
  omega

theorem f2div_spec {source f : UInt32} (hf : 1 ≤ f.toNat)
    (hq : source.toNat / f.toNat + 1 < 2^16) :
    ∃ d, f2div source f = some d ∧
      d.toNat = source.toNat / f.toNat + source.toNat / f.toNat % 2 := by
  have hne : f ≠ 0 := by
    rintro rfl
    exact absurd hf (by decide)
  refine ⟨_, if_neg hne, ?_⟩
  have hsum : (source / f + 1).toNat = source.toNat / f.toNat + 1 := by
    rw [UInt32.toNat_add, UInt32.toNat_div, UInt32.toNat_one]
    exact Nat.mod_eq_of_lt (by omega)
  rw [UInt32.toNat_and, hsum]
  exact and_mask hq

theorem Slow.div_le (hd : Slow source f d) : source / f ≤ 65534 := by
  obtain ⟨heven, -, hlt, hle⟩ := slow_iff.mp hd
  rw [Nat.even_iff] at heven
  have := Nat.div_le_of_le_mul hle
  omega

theorem isLeast_rounded (hq : source / f ≤ 65534) (hpos : source / f ≠ 0)
    (hle : source ≤ f * (source / f + source / f % 2)) :
    IsLeast {n | Slow source f n} (source / f + source / f % 2) := by
  have hbound {n : ℕ} (h : source ≤ f * n) : source / f ≤ n := Nat.div_le_of_le_mul h
  generalize source / f = q at *
  constructor
  · rw [Set.mem_ofPred_eq, slow_iff, Nat.even_iff]
    exact ⟨by omega, by omega, by omega, hle⟩
  · intro n hn
    obtain ⟨heven, -, -, hn⟩ := slow_iff.mp hn
    rw [Nat.even_iff] at heven
    have := hbound hn
    omega

theorem le_rounded_iff (hf : 1 ≤ f) :
    source ≤ f * (source / f + source / f % 2) ↔ RoundsUp source f := by
  have hcut : f * (source / f) + source % f = source := Nat.div_add_mod source f
  have hmod : source % f < f := Nat.mod_lt _ hf
  rw [RoundsUp]
  cases Nat.mod_two_eq_zero_or_one (source / f) with
  | inl heven =>
    rw [heven, Nat.add_zero, Nat.dvd_iff_mod_eq_zero]
    omega
  | inr hodd =>
    rw [hodd, Nat.mul_succ]
    omega

theorem serves_iff (hf : 1 ≤ f) (hsource : source ≠ 0) (hq : source / f ≤ 65534) :
    Serves source f (source / f + source / f % 2) ↔ RoundsUp source f := by
  rw [← le_rounded_iff hf]
  constructor
  · intro h
    exact (rate_le_iff (Nat.pos_of_ne_zero h.ne_zero)).mp h.slow
  · intro h
    have hpos : source / f ≠ 0 := by
      intro hzero
      rw [hzero] at h
      omega
    have hleast := isLeast_rounded hq hpos h
    obtain ⟨heven, hd, -, hslow⟩ := hleast.1
    exact ⟨heven, by omega, hslow, _, hleast, .inl rfl⟩

theorem Setter.source_ne_zero (c : Setter) : c.source.toNat ≠ 0 := by
  have hcpu : fCpu.toNat ≠ 0 := by decide
  have hbsc : bscClk.toNat ≠ 0 := by decide
  cases c with
  | spiSetClock => exact hcpu
  | spiBeginTransaction bitOrder dataMode => exact hcpu
  | wireSetClock => exact hbsc
  | idsSetFreq => exact hbsc

theorem run_divider (c : Setter) (r : Registers) (f : UInt32) {d : UInt32}
    (h : f2div c.source f = some d) : ∃ t, c.run r f = some t ∧ c.divider t = d := by
  cases c with
  | spiSetClock => exact ⟨_, congrArg (Option.map _) h, rfl⟩
  | spiBeginTransaction bitOrder dataMode => exact ⟨_, congrArg (Option.map _) h, rfl⟩
  | wireSetClock => exact ⟨_, congrArg (Option.map _) h, rfl⟩
  | idsSetFreq => exact ⟨_, congrArg (Option.map _) h, rfl⟩

/-- The divider programmed is what is wanted of it exactly when the quotient is not rounded
down. -/
theorem setter_serves_iff (c : Setter) (r : Registers) (f : UInt32) (hf : 1 ≤ f)
    (hd : ∃ d, Slow c.source.toNat f.toNat d) :
    (∃ t, c.run r f = some t ∧ Serves c.source.toNat f.toNat (c.divider t).toNat) ↔
      RoundsUp c.source.toNat f.toNat := by
  obtain ⟨d, hd⟩ := hd
  have hf' : 1 ≤ f.toNat := UInt32.le_iff_toNat_le.mp hf
  have hsource : c.source.toNat ≠ 0 := c.source_ne_zero
  have hq := hd.div_le
  obtain ⟨e, he, hvalue⟩ := f2div_spec hf' (by omega : c.source.toNat / f.toNat + 1 < 2^16)
  obtain ⟨t, ht, htd⟩ := run_divider c r f he
  rw [← serves_iff hf' hsource hq, ← hvalue]
  constructor
  · rintro ⟨u, hu, h⟩
    obtain rfl := Option.some.inj (hu.symm.trans ht)
    rwa [htd] at h
  · intro h
    exact ⟨t, ht, htd.symm ▸ h⟩

/-- 500 kHz on I2C. -/
theorem setter_serves_half_megahertz :
    ∃ t, Setter.wireSetClock.run ⟨0, 0, 0, 0⟩ 500000 = some t ∧
      Serves 150000000 500000 (Setter.wireSetClock.divider t).toNat :=
  (setter_serves_iff .wireSetClock ⟨0, 0, 0, 0⟩ 500000 (by decide)
    ⟨300, slow_iff.mpr ⟨by decide, by decide, by decide, by decide⟩⟩).mpr (.inr ⟨300, by decide⟩)

/-- The rate of the default settings of SPI comes out faster than 4 MHz. -/
theorem default_settings_too_fast : ¬ ∀ (c : Setter) (r : Registers) (f : UInt32), 1 ≤ f →
    (∃ d, Slow c.source.toNat f.toNat d) →
    ∃ t, c.run r f = some t ∧ Serves c.source.toNat f.toNat (c.divider t).toNat := by
  intro h
  obtain ⟨t, ht, hserves⟩ := h (.spiBeginTransaction 1 0) ⟨0, 0, 0, 0⟩ SPISettings.default.freq
    (by decide) ⟨64, slow_iff.mpr ⟨by decide, by decide, by decide, by decide⟩⟩
  obtain rfl := Option.some.inj ht
  have hslow := (rate_le_iff (Nat.pos_of_ne_zero hserves.ne_zero)).mp hserves.slow
  exact absurd hslow (by decide)

end RasPiArduino.BusClock
