import RasPiArduino.BitFields
import RasPiArduino.Interrupts
import RasPiArduino.Pwm

/-! wiring_digital.c: the modes and levels of the pins, over the whole block of GPIO registers. -/
namespace RasPiArduino.Gpio
open Isr (bv)

/-- What is read from the registers of the block, by the number of their word, and the writes to
them so far. -/
structure Bus where
  words : Nat → BitVec 32
  writes : List (Nat × BitVec 32)

def gpfsel (pin : Nat) : Nat := pin / 10

def gpfselb (pin : Nat) : Nat := pin % 10 * 3

def gpset0 : Nat := 0x001c / 4

def gpset1 : Nat := 0x0020 / 4

def gpclr0 : Nat := 0x0028 / 4

def gpclr1 : Nat := 0x002c / 4

def gplev0 : Nat := 0x0034 / 4

def gplev1 : Nat := 0x0038 / 4

def gpeds0 : Nat := 0x0040 / 4

def gpeds1 : Nat := 0x0044 / 4

def gppud : Nat := 0x0094 / 4

def gppudclk0 : Nat := 0x0098 / 4

def gppudclk1 : Nat := 0x009c / 4

/-- What is read from a register when `v` has been written to it. The set and clear registers drive
pins and the level registers show them, so none of these keeps it; a one clears its event. -/
def stored (reg : Nat) (old v : BitVec 32) : BitVec 32 :=
  if reg = gpset0 ∨ reg = gpset1 ∨ reg = gpclr0 ∨ reg = gpclr1 ∨ reg = gplev0 ∨ reg = gplev1 then
    old
  else if reg = gpeds0 ∨ reg = gpeds1 then old &&& ~~~v
  else v

def Bus.write (b : Bus) (reg : Nat) (v : BitVec 32) : Bus :=
  ⟨Function.update b.words reg (stored reg (b.words reg) v), b.writes ++ [(reg, v)]⟩

/-- The codes that GPPUD takes: off, pull down and pull up. -/
def gppo : BitVec 32 := 0x00

def gppd : BitVec 32 := 0x01

def gppu : BitVec 32 := 0x02

def input : BitVec 8 := 0x0

def inputPullup : BitVec 8 := 0x10

def inputPulldown : BitVec 8 := 0x20

def pinMode (b : Bus) (pin : Nat) (mode : BitVec 8) : Bus :=
  let b := b.write (gpfsel pin) (b.words (gpfsel pin) &&& ~~~(0x07#32 <<< gpfselb pin))
  let b := b.write (gpfsel pin)
    (b.words (gpfsel pin) ||| (mode &&& 0x07).setWidth 32 <<< gpfselb pin)
  if mode &&& 0x07 = 0 then
    let mode := (mode &&& 0x30) >>> 4
    let b := b.write gppud (mode.setWidth 32)
    let b :=
      if pin < 32 then b.write gppudclk0 (bv pin)
      else if pin < 46 then b.write gppudclk1 (bv (pin - 32))
      else b
    let b := b.write gppud 0
    if pin < 32 then b.write gppudclk0 0
    else if pin < 46 then b.write gppudclk1 0
    else b
  else b

def digitalWrite (b : Bus) (pin : Nat) (val : UInt8) : Bus :=
  if pin < 32 then
    if val ≠ 0 then b.write gpset0 (bv pin) else b.write gpclr0 (bv pin)
  else if pin < 46 then
    if val ≠ 0 then b.write gpset1 (bv (pin - 32)) else b.write gpclr1 (bv (pin - 32))
  else b

/-! What the writes do to the pull resistors. -/

def pins (v : BitVec 32) : List Nat := (List.range 32).filter v.getLsbD

/-- A write to a clock register latches the code in GPPUD for the pins of the word written: these
pins and their codes, for writes that find `pud` in GPPUD. -/
def latched (pud : BitVec 32) : List (Nat × BitVec 32) → List (Nat × BitVec 32)
  | [] => []
  | (reg, v) :: ws =>
    if reg = gppud then latched v ws
    else if reg = gppudclk0 then (pins v).map (·, pud) ++ latched pud ws
    else if reg = gppudclk1 then (pins v).map (· + 32, pud) ++ latched pud ws
    else latched pud ws

def Pulls (mode : BitVec 8) (code : BitVec 32) : Prop :=
  (mode = input → code = gppo) ∧ (mode = inputPullup → code = gppu) ∧
    (mode = inputPulldown → code = gppd)

/-- The bits of the function field of the pin are those of the mode, and the others are as they
were. -/
def Selects (words words' : Nat → BitVec 32) (pin : Nat) (mode : BitVec 8) : Prop :=
  ∀ j < 32, (words' (gpfsel pin)).getLsbD j =
    if gpfselb pin ≤ j ∧ j < gpfselb pin + 3 then mode.getLsbD (j - gpfselb pin)
    else (words (gpfsel pin)).getLsbD j

/-- The registers of the pull resistors, of which only the input modes make use. -/
def PullRegister (mode : BitVec 8) (reg : Nat) : Prop :=
  mode &&& 0x07 = 0 ∧ (reg = gppud ∨ reg = gppudclk0 ∨ reg = gppudclk1)

/-- What is promised of pinMode() on these registers. -/
structure SetsMode (words : Nat → BitVec 32) (pin : Nat) (mode : BitVec 8) : Prop where
  function : pin < 54 → Selects words (pinMode ⟨words, []⟩ pin mode).words pin mode
  frame : pin < 54 → ∀ reg, reg ≠ gpfsel pin → ¬ PullRegister mode reg →
    (pinMode ⟨words, []⟩ pin mode).words reg = words reg ∧
      ∀ v, (reg, v) ∉ (pinMode ⟨words, []⟩ pin mode).writes
  settled : pin < 54 → ∀ reg, PullRegister mode reg →
    (pinMode ⟨words, []⟩ pin mode).words reg = 0
  pull : pin < 54 → mode &&& 0x07 = 0 → ∃ code, Pulls mode code ∧
    latched (words gppud) (pinMode ⟨words, []⟩ pin mode).writes = [(pin, code)]
  unknown : 54 ≤ pin → (pinMode ⟨words, []⟩ pin mode).writes = []

variable {words : Nat → BitVec 32} {pin reg : Nat} {mode : BitVec 8}

theorem stored_plain {reg : Nat} (h : reg < gpset0 ∨ gppud ≤ reg) (old v : BitVec 32) :
    stored reg old v = v := by
  simp only [gpset0, gppud] at h
  rw [stored, if_neg, if_neg]
  · simp only [gpeds0, gpeds1]
    omega
  · simp only [gpset0, gpset1, gpclr0, gpclr1, gplev0, gplev1]
    omega

def function (mode : BitVec 8) : BitVec 32 := (mode &&& 0x07).setWidth 32

theorem getLsbD_function (mode : BitVec 8) (j : Nat) :
    (function mode).getLsbD j = (decide (j < 3) && mode.getLsbD j) := by
  have hmask : (0x07 : BitVec 8).getLsbD j = decide (j < 3) := by
    rw [show (0x07 : BitVec 8) = BitVec.ofNat 8 (2^3 - 1) from rfl, BitVec.getLsbD_ofNat,
      Nat.testBit_two_pow_sub_one]
    simp only [← Bool.decide_and, decide_eq_decide]
    omega
  rw [function, BitVec.getLsbD_setWidth, BitVec.getLsbD_and, hmask, Bool.and_comm (mode.getLsbD j)]
  by_cases hj : j < 32
  · rw [decide_eq_true hj, Bool.true_and]
  · rw [decide_eq_false hj, decide_eq_false (show ¬ j < 3 by omega), Bool.false_and, Bool.false_and]

theorem function_fits (mode : BitVec 8) : BitFields.Fits (function mode) 3 := by
  intro j hj
  rw [getLsbD_function, decide_eq_false (by omega), Bool.false_and]

/-- The registers with the function of the pin put into its field. -/
def selected (words : Nat → BitVec 32) (pin : Nat) (mode : BitVec 8) : Nat → BitVec 32 :=
  Function.update words (gpfsel pin)
    (BitFields.put (words (gpfsel pin)) (function mode) 3 (gpfselb pin))

def Clocks (reg pin : Nat) : Prop :=
  reg = gppudclk0 ∧ pin < 32 ∨ reg = gppudclk1 ∧ 32 ≤ pin ∧ pin < 46

instance (reg pin : Nat) : Decidable (Clocks reg pin) := inferInstanceAs (Decidable (_ ∨ _))

theorem update_pulse (words : Nat → BitVec 32) (code v : BitVec 32) (clk reg : Nat) :
    Function.update (Function.update (Function.update (Function.update words gppud code) clk v)
      gppud 0) clk 0 reg = if reg = gppud ∨ reg = clk then 0 else words reg := by
  simp only [Function.update_apply]
  by_cases hclk : reg = clk
  · rw [if_pos hclk, if_pos (Or.inr hclk)]
  · by_cases hpud : reg = gppud
    · rw [if_neg hclk, if_pos hpud, if_pos (Or.inl hpud)]
    · rw [if_neg hclk, if_neg hpud, if_neg hclk, if_neg hpud, if_neg fun h => h.elim hpud hclk]

theorem gpfsel_lt {pin : Nat} (hpin : pin < 60) : gpfsel pin < gpset0 := by
  simp only [gpfsel, gpset0]
  omega

theorem words_pinMode (words : Nat → BitVec 32) (ws : List (Nat × BitVec 32)) {pin : Nat}
    (hpin : pin < 60) (mode : BitVec 8) (reg : Nat) : (pinMode ⟨words, ws⟩ pin mode).words reg =
      if mode &&& 0x07 = 0 ∧ (reg = gppud ∨ Clocks reg pin) then 0
      else selected words pin mode reg := by
  have hfsel := stored_plain (Or.inl (gpfsel_lt hpin))
  have hpud : ∀ old v, stored gppud old v = v := stored_plain (Or.inr (by decide))
  have hclk0 : ∀ old v, stored gppudclk0 old v = v := stored_plain (Or.inr (by decide))
  have hclk1 : ∀ old v, stored gppudclk1 old v = v := stored_plain (Or.inr (by decide))
  have hselect : Function.update (Function.update words (gpfsel pin)
      (words (gpfsel pin) &&& ~~~(0x07#32 <<< gpfselb pin))) (gpfsel pin)
      (words (gpfsel pin) &&& ~~~(0x07#32 <<< gpfselb pin) |||
        (mode &&& 0x07).setWidth 32 <<< gpfselb pin) = selected words pin mode :=
    Function.update_idem _ _ _
  simp only [pinMode, Bus.write, hfsel, hpud, hclk0, hclk1, Function.update_self, hselect]
  by_cases hmode : mode &&& 0x07 = 0
  · rw [if_pos hmode]
    by_cases h32 : pin < 32
    · have hclocks : Clocks reg pin ↔ reg = gppudclk0 := by
        rw [Clocks]
        omega
      simp only [if_pos h32, update_pulse, hmode, hclocks, true_and]
    · by_cases h46 : pin < 46
      · have hclocks : Clocks reg pin ↔ reg = gppudclk1 := by
          rw [Clocks]
          omega
        simp only [if_neg h32, if_pos h46, update_pulse, hmode, hclocks, true_and]
      · have hclocks : ¬ Clocks reg pin := by
          rw [Clocks]
          omega
        simp only [if_neg h32, if_neg h46, Function.update_idem, Function.update_apply, hmode,
          hclocks, true_and, or_false]
  · rw [if_neg hmode, if_neg fun h => hmode h.1]

def code (mode : BitVec 8) : BitVec 32 := ((mode &&& 0x30) >>> 4).setWidth 32

/-- The writes of pinMode() to the registers of the pull resistors. -/
def pulses (pin : Nat) (mode : BitVec 8) : List (Nat × BitVec 32) :=
  if mode &&& 0x07 = 0 then
    if pin < 32 then [(gppud, code mode), (gppudclk0, bv pin), (gppud, 0), (gppudclk0, 0)]
    else if pin < 46 then
      [(gppud, code mode), (gppudclk1, bv (pin - 32)), (gppud, 0), (gppudclk1, 0)]
    else [(gppud, code mode), (gppud, 0)]
  else []

theorem writes_pinMode (words : Nat → BitVec 32) (pin : Nat) (mode : BitVec 8) :
    ∃ v w, (pinMode ⟨words, []⟩ pin mode).writes =
      (gpfsel pin, v) :: (gpfsel pin, w) :: pulses pin mode := by
  simp only [pinMode, Bus.write, pulses]
  by_cases hmode : mode &&& 0x07 = 0
  · simp only [if_pos hmode]
    by_cases h32 : pin < 32
    · simp only [if_pos h32]
      exact ⟨_, _, rfl⟩
    · by_cases h46 : pin < 46
      · simp only [if_neg h32, if_pos h46]
        exact ⟨_, _, rfl⟩
      · simp only [if_neg h32, if_neg h46]
        exact ⟨_, _, rfl⟩
  · simp only [if_neg hmode]
    exact ⟨_, _, rfl⟩

theorem pins_bv : ∀ i < 32, pins (bv i) = [i] := by decide

theorem pins_zero : pins 0#32 = [] := by decide

theorem latched_other {reg : Nat} (hreg : reg < gppud) (pud v : BitVec 32)
    (ws : List (Nat × BitVec 32)) : latched pud ((reg, v) :: ws) = latched pud ws := by
  simp only [gppud] at hreg
  rw [latched, if_neg, if_neg, if_neg]
  · simp only [gppudclk1]
    omega
  · simp only [gppudclk0]
    omega
  · simp only [gppud]
    omega

theorem latched_pulses (pud : BitVec 32) (pin : Nat) (mode : BitVec 8) :
    latched pud (pulses pin mode) =
      if mode &&& 0x07 = 0 ∧ pin < 46 then [(pin, code mode)] else [] := by
  rw [pulses]
  by_cases hmode : mode &&& 0x07 = 0
  · rw [if_pos hmode]
    by_cases h32 : pin < 32
    · rw [if_pos h32, if_pos ⟨hmode, by omega⟩]
      simp [latched, gppud, gppudclk0, pins_bv pin h32, pins_zero]
    · rw [if_neg h32]
      by_cases h46 : pin < 46
      · rw [if_pos h46, if_pos ⟨hmode, h46⟩]
        simp [latched, gppud, gppudclk0, gppudclk1, pins_bv (pin - 32) (by omega), pins_zero]
        omega
      · rw [if_neg h46, if_neg fun h => h46 h.2]
        simp [latched, gppud]
  · rw [if_neg hmode, if_neg fun h => hmode h.1, latched]

theorem latched_pinMode (words : Nat → BitVec 32) {pin : Nat} (hpin : pin < 60)
    (mode : BitVec 8) : latched (words gppud) (pinMode ⟨words, []⟩ pin mode).writes =
      if mode &&& 0x07 = 0 ∧ pin < 46 then [(pin, code mode)] else [] := by
  obtain ⟨v, w, hwrites⟩ := writes_pinMode words pin mode
  have hlt : gpfsel pin < gppud := (gpfsel_lt hpin).trans (by decide)
  rw [hwrites, latched_other hlt, latched_other hlt, latched_pulses]

theorem pulls_code_iff : ∀ mode : BitVec 8,
    Pulls mode (code mode) ↔ mode ≠ inputPullup ∧ mode ≠ inputPulldown := by
  intro mode
  constructor
  · intro h
    refine ⟨?_, ?_⟩
    · rintro rfl
      exact absurd (h.2.1 rfl) (by decide)
    · rintro rfl
      exact absurd (h.2.2 rfl) (by decide)
  · rintro ⟨hup, hdown⟩
    refine ⟨?_, fun h => absurd h hup, fun h => absurd h hdown⟩
    rintro rfl
    decide

theorem words_gpfsel (words : Nat → BitVec 32) (ws : List (Nat × BitVec 32)) {pin : Nat}
    (hpin : pin < 60) (mode : BitVec 8) : (pinMode ⟨words, ws⟩ pin mode).words (gpfsel pin) =
      BitFields.put (words (gpfsel pin)) (function mode) 3 (gpfselb pin) := by
  have hlt := gpfsel_lt hpin
  rw [words_pinMode words ws hpin, if_neg, selected, Function.update_self]
  simp only [Clocks, gpset0, gppud, gppudclk0, gppudclk1] at hlt ⊢
  rintro ⟨-, hpud | hclocks⟩
  · omega
  · omega

theorem words_other (words : Nat → BitVec 32) (ws : List (Nat × BitVec 32)) {pin reg : Nat}
    {mode : BitVec 8} (hpin : pin < 60) (hreg : reg ≠ gpfsel pin)
    (hpull : mode &&& 0x07 = 0 → reg ≠ gppud ∧ ¬ Clocks reg pin) :
    (pinMode ⟨words, ws⟩ pin mode).words reg = words reg := by
  rw [words_pinMode words ws hpin, if_neg, selected, Function.update_of_ne hreg]
  rintro ⟨hmode, hpud | hclocks⟩
  · exact (hpull hmode).1 hpud
  · exact (hpull hmode).2 hclocks

theorem selects (words : Nat → BitVec 32) (ws : List (Nat × BitVec 32)) {pin : Nat}
    (hpin : pin < 60) (mode : BitVec 8) :
    Selects words (pinMode ⟨words, ws⟩ pin mode).words pin mode := by
  intro j hj
  rw [words_gpfsel words ws hpin, BitFields.getLsbD_put (function_fits mode) hj]
  split
  · next hfield => rw [getLsbD_function, decide_eq_true (by omega), Bool.true_and]
  · rfl

def otherClock (pin : Nat) : Nat := if pin < 32 then gppudclk1 else gppudclk0

/-- The pin has a function, and no pull resistor is to be set up, or it is one that can be, the
other clock register is at rest, and the mode asks for none. -/
def Sound (words : Nat → BitVec 32) (pin : Nat) (mode : BitVec 8) : Prop :=
  pin < 54 ∧ (mode &&& 0x07 = 0 → pin < 46 ∧ words (otherClock pin) = 0 ∧
    mode ≠ inputPullup ∧ mode ≠ inputPulldown)

theorem settled_iff (words : Nat → BitVec 32) {pin : Nat} (hpin : pin < 46) {mode : BitVec 8}
    (hmode : mode &&& 0x07 = 0) :
    (∀ reg, PullRegister mode reg → (pinMode ⟨words, []⟩ pin mode).words reg = 0) ↔
      words (otherClock pin) = 0 := by
  have hother : (pinMode ⟨words, []⟩ pin mode).words (otherClock pin) = words (otherClock pin) := by
    refine words_other words [] (by omega) ?_ fun _ => ?_
    · simp only [otherClock, gpfsel, gppudclk0, gppudclk1]
      split <;> omega
    · simp only [otherClock, Clocks, gppud, gppudclk0, gppudclk1]
      split <;> omega
  constructor
  · intro h
    rw [← hother]
    refine h _ ⟨hmode, ?_⟩
    rw [otherClock]
    split
    · exact Or.inr (Or.inr rfl)
    · exact Or.inr (Or.inl rfl)
  · rintro h reg ⟨-, hreg⟩
    by_cases hclock : reg = otherClock pin
    · rw [hclock, hother, h]
    · rw [words_pinMode words [] (by omega), if_pos]
      refine ⟨hmode, ?_⟩
      simp only [otherClock, Clocks] at hclock ⊢
      split at hclock
      · omega
      · omega

theorem mem_pulses {v : BitVec 32} (h : (reg, v) ∈ pulses pin mode) : PullRegister mode reg := by
  have hreg : reg ∈ (pulses pin mode).map Prod.fst := List.mem_map_of_mem h
  rw [pulses] at hreg
  split at hreg
  · next hmode =>
    refine ⟨hmode, ?_⟩
    split at hreg
    · simp only [List.map_cons, List.map_nil, List.mem_cons, List.not_mem_nil, or_false] at hreg
      omega
    · split at hreg
      · simp only [List.map_cons, List.map_nil, List.mem_cons, List.not_mem_nil, or_false] at hreg
        omega
      · simp only [List.map_cons, List.map_nil, List.mem_cons, List.not_mem_nil, or_false] at hreg
        omega
  · cases hreg

theorem mem_writes_pinMode {v : BitVec 32}
    (h : (reg, v) ∈ (pinMode ⟨words, []⟩ pin mode).writes) :
    reg = gpfsel pin ∨ PullRegister mode reg := by
  obtain ⟨u, w, hwrites⟩ := writes_pinMode words pin mode
  rw [hwrites, List.mem_cons, List.mem_cons, Prod.mk.injEq, Prod.mk.injEq] at h
  obtain ⟨rfl, -⟩ | ⟨rfl, -⟩ | hpulse := h
  · exact Or.inl rfl
  · exact Or.inl rfl
  · exact Or.inr (mem_pulses hpulse)

theorem writes_ne_nil (words : Nat → BitVec 32) (pin : Nat) (mode : BitVec 8) :
    (pinMode ⟨words, []⟩ pin mode).writes ≠ [] := by
  obtain ⟨v, w, hwrites⟩ := writes_pinMode words pin mode
  rw [hwrites]
  exact List.cons_ne_nil _ _

/-- pinMode() does what is promised exactly when the call is sound. -/
theorem setsMode_iff (words : Nat → BitVec 32) (pin : Fin 256) (mode : BitVec 8) :
    SetsMode words pin mode ↔ Sound words pin mode := by
  constructor
  · intro h
    have h54 : pin.val < 54 := by
      by_contra hno
      exact writes_ne_nil words pin mode (h.unknown (by omega))
    refine ⟨h54, fun hmode => ?_⟩
    obtain ⟨c, hpulls, hlatched⟩ := h.pull h54 hmode
    rw [latched_pinMode words (by omega)] at hlatched
    split at hlatched
    · next hclock =>
      simp only [List.cons.injEq, Prod.mk.injEq, true_and, and_true] at hlatched
      rw [← hlatched, pulls_code_iff] at hpulls
      exact ⟨hclock.2, (settled_iff words hclock.2 hmode).mp (h.settled h54), hpulls⟩
    · cases hlatched
  · rintro ⟨h54, h⟩
    have hpin : pin.val < 60 := by omega
    refine ⟨fun _ => selects words [] hpin mode, fun _ reg hreg hpull => ⟨?_, fun v hv => ?_⟩,
      fun _ reg hreg => ?_, fun _ hmode => ?_, fun h => absurd h54 (by omega)⟩
    · refine words_other words [] hpin hreg fun hmode =>
        ⟨fun h => hpull ⟨hmode, Or.inl h⟩, fun h => ?_⟩
      exact hpull ⟨hmode, h.elim (fun h => Or.inr (Or.inl h.1)) fun h => Or.inr (Or.inr h.1)⟩
    · exact (mem_writes_pinMode hv).elim hreg hpull
    · obtain ⟨hclock, hother, -⟩ := h hreg.1
      exact (settled_iff words hclock hreg.1).mpr hother reg hreg
    · obtain ⟨hclock, -, hcode⟩ := h hmode
      refine ⟨code mode, (pulls_code_iff mode).mpr hcode, ?_⟩
      rw [latched_pinMode words hpin, if_pos ⟨hmode, hclock⟩]

/-- INPUT_PULLUP latches the code of pull down, a pin without a function is not left alone even
where another is driven already, and one without a clock latches nothing. -/
theorem pullup_pulls_down : ¬ SetsMode (fun _ => 0) 17 inputPullup ∧
    ¬ SetsMode (fun _ => 1) 70 1 ∧ ¬ SetsMode (fun _ => 0) 46 input := by
  refine ⟨fun h => ?_, fun h => ?_, fun h => ?_⟩
  · obtain ⟨c, hpulls, hlatched⟩ := h.pull (by decide) (by decide)
    have heq := (latched_pinMode (fun _ => 0) (show 17 < 60 by decide) inputPullup).symm.trans
      hlatched
    obtain rfl : code inputPullup = c := congrArg Prod.snd (List.cons.inj heq).1
    exact absurd (hpulls.2.1 rfl) (by decide)
  · exact writes_ne_nil _ _ _ (h.unknown (by decide))
  · obtain ⟨c, -, hlatched⟩ := h.pull (by decide) (by decide)
    have heq := (latched_pinMode (fun _ => 0) (show 46 < 60 by decide) input).symm.trans
      hlatched
    cases heq

/-! The other calls on these registers. -/

/-- digitalWrite() writes the mask of the pin and nothing else, and nothing for a pin that it does
not know. -/
theorem writes_digitalWrite (b : Bus) (pin : Nat) (val : UInt8) :
    (digitalWrite b pin val).writes = b.writes ++
      if pin < 46 then [((if val ≠ 0 then gpset0 else gpclr0) + pin / 32, bv (pin % 32))]
      else [] := by
  rw [digitalWrite]
  by_cases h32 : pin < 32
  · have h46 : pin < 46 := by omega
    rw [if_pos h32, if_pos h46, Nat.div_eq_of_lt h32, Nat.mod_eq_of_lt h32, Nat.add_zero]
    by_cases hval : val ≠ 0
    · rw [if_pos hval, if_pos hval, Bus.write]
    · rw [if_neg hval, if_neg hval, Bus.write]
  · rw [if_neg h32]
    by_cases h46 : pin < 46
    · have hdiv : pin / 32 = 1 := by omega
      have hmod : pin % 32 = pin - 32 := by omega
      rw [if_pos h46, if_pos h46, hdiv, hmod]
      by_cases hval : val ≠ 0
      · rw [if_pos hval, if_pos hval, Bus.write, gpset1, gpset0]
      · rw [if_neg hval, if_neg hval, Bus.write, gpclr1, gpclr0]
    · rw [if_neg h46, if_neg h46, List.append_nil]

/-- The registers of the pins as the calls of wiring_pwm.c know them. -/
structure Mirrors (words : Nat → BitVec 32) (r : Pwm.Registers) : Prop where
  gpfsel : r.gpfsel = (List.range 6).map words
  gppud : r.gppud = words gppud
  gppudclk0 : r.gppudclk0 = words gppudclk0
  gppudclk1 : r.gppudclk1 = words gppudclk1

theorem pullRegisters (r : Pwm.Registers) (pin : Nat) (mode : BitVec 8) :
    (Pwm.pinMode r pin mode).gppud = (if mode &&& 7 = 0 then 0 else r.gppud) ∧
    (Pwm.pinMode r pin mode).gppudclk0 =
      (if mode &&& 7 = 0 ∧ pin < 32 then 0 else r.gppudclk0) ∧
    (Pwm.pinMode r pin mode).gppudclk1 =
      (if mode &&& 7 = 0 ∧ 32 ≤ pin ∧ pin < 46 then 0 else r.gppudclk1) := by
  simp only [Pwm.pinMode]
  split
  · next hmode => simp only [hmode, true_and]
  · next hmode => simp only [hmode, false_and, if_false, and_self]

theorem Mirrors.pinMode {words : Nat → BitVec 32} {r : Pwm.Registers} (h : Mirrors words r)
    {pin : Nat} (hpin : pin < 60) (mode : BitVec 8) (ws : List (Nat × BitVec 32)) :
    Mirrors (pinMode ⟨words, ws⟩ pin mode).words (Pwm.pinMode r pin mode) := by
  have hlist : (Pwm.pinMode r pin mode).gpfsel = r.gpfsel.set (pin / 10)
      (BitFields.put (r.gpfsel.getD (pin / 10) 0) (function mode) 3 (gpfselb pin)) := by
    rw [Pwm.pinMode]
    split <;> rfl
  have hpull (reg : Nat) (hreg : 37 ≤ reg) : (Gpio.pinMode ⟨words, ws⟩ pin mode).words reg =
      if mode &&& 7 = 0 ∧ (reg = Gpio.gppud ∨ Clocks reg pin) then 0 else words reg := by
    have hne : reg ≠ Gpio.gpfsel pin := by
      rw [Gpio.gpfsel]
      omega
    rw [words_pinMode words ws hpin, selected, Function.update_of_ne hne]
  constructor
  · rw [hlist, h.gpfsel]
    refine List.ext_getElem (by simp) fun i hi _ => ?_
    rw [List.length_set, List.length_map, List.length_range] at hi
    rw [List.getElem_set, List.getElem_map, List.getElem_map, List.getElem_range]
    by_cases hi' : pin / 10 = i
    · subst hi'
      rw [if_pos rfl, List.getD_eq_getElem _ _ (by simpa using hi), List.getElem_map,
        List.getElem_range]
      exact (words_gpfsel words ws hpin mode).symm
    · rw [if_neg hi']
      refine (words_other words ws hpin (Ne.symm hi') fun _ => ⟨?_, ?_⟩).symm
      · rw [Gpio.gppud]
        omega
      · simp only [Clocks, Gpio.gppudclk0, Gpio.gppudclk1]
        omega
  · rw [hpull _ (by decide), (pullRegisters r pin mode).1, h.gppud]
    simp only [true_or, and_true]
  · have hclocks : Clocks Gpio.gppudclk0 pin ↔ pin < 32 := by
      simp [Clocks, Gpio.gppudclk0, Gpio.gppudclk1]
    have hpud : Gpio.gppudclk0 ≠ Gpio.gppud := by decide
    rw [hpull _ (by decide), (pullRegisters r pin mode).2.1, h.gppudclk0]
    simp only [hclocks, hpud, false_or]
  · have hclocks : Clocks Gpio.gppudclk1 pin ↔ 32 ≤ pin ∧ pin < 46 := by
      simp [Clocks, Gpio.gppudclk0, Gpio.gppudclk1]
    have hpud : Gpio.gppudclk1 ≠ Gpio.gppud := by decide
    rw [hpull _ (by decide), (pullRegisters r pin mode).2.2, h.gppudclk1]
    simp only [hclocks, hpud, false_or]

end RasPiArduino.Gpio
