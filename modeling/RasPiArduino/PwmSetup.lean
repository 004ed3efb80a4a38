import RasPiArduino.Pwm
import RasPiArduino.Transition

/-! Whether a write comes out with the range and the frequency of the last setup. -/
namespace RasPiArduino.Pwm
open RasPiArduino.Transition

/-- A range, the frequency asked for and the frequency achieved. -/
structure Setting where
  range : Nat
  frequency : Nat
  achieved : Nat
  deriving DecidableEq, Repr

def Setting.duty (g : Setting) (v : Nat) : Nat :=
  v * g.achieved % 2^32 / g.frequency % g.range % 2^16

def State.setting (s : State) : Setting := ⟨s.range, s.wantedFreq, s.realFreq⟩

/-- `setting` is that of the last setup of the sketch, or the initial one; `renewed` says that
this setup came after the PWM was started. -/
structure Session where
  pwm : State
  setting : Setting
  renewed : Bool
  deriving DecidableEq, Repr

inductive Call where
  | setup (frequency range : Nat)
  | write (p v : Nat)
  deriving DecidableEq, Repr

def start (regs : Registers) : Session := ⟨initial regs, (initial regs).setting, false⟩

def exec (s : Session) : Call → Option Session
  | .setup frequency range => (analogWriteSetup s.pwm frequency range).map fun (real, pwm) =>
      ⟨pwm, ⟨range, frequency, real⟩, s.pwm.hasStarted⟩
  | .write p v => (analogWrite s.pwm p v).map fun pwm => { s with pwm := pwm }

/-- The frequency and the range are possible, and the divider fits; the pin is one of the PWM. -/
def Valid : Call → Prop
  | .setup frequency range => 1 ≤ frequency * range ∧ frequency * range ≤ 19200000 ∧
    19200000 / (frequency * range) + 19200000 / (frequency * range) % 2 ≤ 0xFFF
  | .write p v => (∃ c, channel p = some c) ∧ v < 2^16

/-- The write leaves the ranges of the setting and its duty in the channel, and the other
channel as it was. -/
def Follows (s : Session) (p v : Nat) (c : Channel) : Prop := ∃ t, exec s (.write p v) = some t ∧
  t.pwm.regs.pwmrng1 = s.setting.range ∧ t.pwm.regs.pwmrng2 = s.setting.range ∧
  data t.pwm.regs c ≤ s.setting.range ∧ data t.pwm.regs c = s.setting.duty v ∧
  data t.pwm.regs c.other = data s.pwm.regs c.other ∧
  enables t.pwm.regs c.other = enables s.pwm.regs c.other

def lazySetting : Setting := ⟨256, 986, 986⟩

/-- The PWM runs on a setup made since it was started, or on that of analogWriteInit where the
sketch has asked for the same; or it is not started by this write and the ranges are written;
or analogWriteInit sets up the same range and the other channel is off. -/
def OnSetting (s : Session) (v : Nat) (c : Channel) : Prop :=
  if s.pwm.hasStarted = true then
    s.renewed = true ∨ s.setting.range = 256 ∧ s.setting.duty v = v % 256
  else if s.setting.duty v = 0 then
    s.pwm.regs.pwmrng1 = s.setting.range ∧ s.pwm.regs.pwmrng2 = s.setting.range
  else s.setting.range = 256 ∧ enables s.pwm.regs c.other = (false, false)

variable {s t : State} {p v : Nat} {c : Channel}

theorem Setting.duty_lt {g : Setting} (h : g.range ≠ 0) (v : Nat) : g.duty v < g.range :=
  (Nat.mod_le _ _).trans_lt (Nat.mod_lt _ (by omega))

theorem lazySetting_duty (hv : v < 2^16) : lazySetting.duty v = v % 256 := by
  have hprod : v * 986 % 2^32 = v * 986 := Nat.mod_eq_of_lt (by omega)
  simp only [Setting.duty, lazySetting]
  rw [hprod]
  omega

structure SetUp (s : State) (g : Setting) (t : State) : Prop where
  achieved : g.range * g.achieved ≤ 19200000
  setting : t.setting = g
  hasStarted : t.hasStarted = s.hasStarted
  rng1 : t.regs.pwmrng1 = g.range
  rng2 : t.regs.pwmrng2 = g.range
  ctl : t.regs.pwmctl = s.regs.pwmctl
  dat : ∀ c, data t.regs c = data s.regs c

theorem analogWriteSetup_spec (s : State) {frequency range : Nat}
    (h : Valid (.setup frequency range)) : ∃ real t,
    analogWriteSetup s frequency range = some (real, t) ∧ SetUp s ⟨range, frequency, real⟩ t := by
  obtain ⟨hpos, hle, hfit⟩ := h
  have hf : 1 ≤ frequency := Nat.pos_of_mul_pos_right (show 0 < frequency * range by omega)
  have hr : 1 ≤ range := Nat.pos_of_mul_pos_left (show 0 < frequency * range by omega)
  have hd : 1 ≤ 19200000 / (frequency * range) := (Nat.one_le_div_iff hpos).mpr hle
  have hdr : 19200000 / (frequency * range) * range ≤ 19200000 := by
    calc 19200000 / (frequency * range) * range
        ≤ 19200000 / (frequency * range) * (frequency * range) :=
          Nat.mul_le_mul_left _ (Nat.le_mul_of_pos_left _ hf)
      _ ≤ 19200000 := Nat.div_mul_le_self _ _
  have hrange : range ≤ 19200000 := (Nat.le_mul_of_pos_left _ hf).trans hle
  generalize hdiv : 19200000 / (frequency * range) = d at *
  have hsum : (d + d % 2) * range ≤ 2 * 19200000 := by
    calc (d + d % 2) * range ≤ d * range + 1 * range := by
          rw [Nat.add_mul]
          exact Nat.add_le_add_left (Nat.mul_le_mul_right _ (by omega)) _
      _ ≤ 2 * 19200000 := by omega
  have hne : (d + d % 2) * range ≠ 0 := Nat.mul_ne_zero (by omega) (by omega)
  have hmask : (d + (d &&& 1) * 1) &&& 0xFFF = d + d % 2 := by
    rw [Nat.mul_one, Nat.and_one_is_mod, Nat.and_two_pow_sub_one_eq_mod _ 12]
    exact Nat.mod_eq_of_lt (by omega)
  have heq : analogWriteSetup s frequency range = some (19200000 / ((d + d % 2) * range),
      analogWriteDiv (analogWriteRange { s with
        wantedFreq := frequency, realFreq := 19200000 / ((d + d % 2) * range) } range)
        (d + d % 2)) := by
    rw [analogWriteSetup, Nat.mod_eq_of_lt (show frequency * range < 2^32 by omega),
      if_neg (by omega)]
    simp only [hdiv, hmask]
    rw [Nat.mod_eq_of_lt (by omega), if_neg hne]
  refine ⟨_, _, heq, ?_, rfl, rfl, rfl, rfl, rfl, fun c => by cases c <;> rfl⟩
  calc range * (19200000 / ((d + d % 2) * range))
      ≤ (d + d % 2) * range * (19200000 / ((d + d % 2) * range)) :=
        Nat.mul_le_mul_right _ (Nat.le_mul_of_pos_left _ (by omega))
    _ ≤ 19200000 := Nat.mul_div_le _ _

theorem SetUp.duty {g : Setting} (h : SetUp s g t) (hpos : g.range ≠ 0) (hv : v ≤ g.range)
    (hr : g.range ≤ 2^16) : g.duty v = v * g.achieved / g.frequency % g.range := by
  have hle : v * g.achieved ≤ g.range * g.achieved := Nat.mul_le_mul_right _ hv
  have hreal := h.achieved
  rw [Setting.duty, Nat.mod_eq_of_lt (show v * g.achieved < 2^32 by omega), Nat.mod_eq_of_lt]
  exact (Nat.mod_lt _ (by omega)).trans_le hr

theorem analogWriteInit_spec (h : s.hasStarted = false) : ∃ t, analogWriteInit s = some t ∧
    t.setting = lazySetting ∧ t.hasStarted = true ∧ t.regs.pwmrng1 = 256 ∧
    t.regs.pwmrng2 = 256 ∧ t.regs.pwmctl = 0 ∧ ∀ c, data t.regs c = data s.regs c := by
  rw [analogWriteInit, if_neg (by simp [h])]
  refine ⟨_, rfl, rfl, rfl, rfl, rfl, rfl, fun c => ?_⟩
  cases c <;> rfl

theorem analogWrite_eq (hw : s.wantedFreq ≠ 0) (hr : s.range ≠ 0) : analogWrite s p v =
    if s.setting.duty v ≠ 0 then
      (if s.hasStarted then some s else analogWriteInit s).map fun s' =>
        { s' with regs := enable (pwmPinMode s'.regs p) p (s.setting.duty v) }
    else some { s with regs := inputPinMode (disable s.regs p (s.setting.duty v)) p } := by
  rw [analogWrite, if_neg (by simp [hw, hr])]
  rfl

theorem analogWrite_plain (hc : channel p = some c) (hw : s.wantedFreq ≠ 0) (hr : s.range ≠ 0)
    (h : s.hasStarted = true ∨ s.setting.duty v = 0) : ∃ t, analogWrite s p v = some t ∧
      t.setting = s.setting ∧ t.hasStarted = s.hasStarted ∧ OnlyChannel c s.regs t.regs ∧
      data t.regs c = s.setting.duty v := by
  rw [analogWrite_eq hw hr]
  by_cases hv : s.setting.duty v = 0
  · exact ⟨_, if_neg (not_not.mpr hv), rfl, rfl, disable_spec hc⟩
  · have hs : s.hasStarted = true := h.resolve_right hv
    rw [if_pos hs]
    exact ⟨_, if_pos hv, rfl, rfl, enable_spec hc⟩

theorem analogWrite_starts (hc : channel p = some c) (hw : s.wantedFreq ≠ 0) (hr : s.range ≠ 0)
    (hs : s.hasStarted = false) (hv : s.setting.duty v ≠ 0) : ∃ t, analogWrite s p v = some t ∧
      t.setting = lazySetting ∧ t.hasStarted = true ∧ t.regs.pwmrng1 = 256 ∧
      t.regs.pwmrng2 = 256 ∧ data t.regs c = s.setting.duty v ∧
      data t.regs c.other = data s.regs c.other ∧ enables t.regs c.other = (false, false) := by
  obtain ⟨u, hu, hset, hstarted, hrng1, hrng2, hctl, hdat⟩ := analogWriteInit_spec hs
  have hon := enable_spec (r := u.regs) (v := s.setting.duty v) hc
  rw [analogWrite_eq hw hr, if_pos hv, if_neg (by simp [hs]), hu]
  refine ⟨_, rfl, hset, hstarted, hon.1.rng1.trans hrng1, hon.1.rng2.trans hrng2, hon.2,
    hon.1.dat.trans (hdat _), hon.1.enabled.trans ?_⟩
  rw [enables, hctl]
  simp

/-- The variables follow the setting, or that of analogWriteInit after a start. -/
structure Agrees (s : Session) : Prop where
  range : s.setting.range ≠ 0
  frequency : s.setting.frequency ≠ 0
  vars : s.pwm.setting = if s.pwm.hasStarted && !s.renewed then lazySetting else s.setting
  ranges : s.pwm.hasStarted = true →
    s.pwm.regs.pwmrng1 = s.pwm.range ∧ s.pwm.regs.pwmrng2 = s.pwm.range
  early : s.pwm.hasStarted = false → s.renewed = false

theorem start_agrees (regs : Registers) : Agrees (start regs) :=
  ⟨Nat.succ_ne_zero 254, Nat.one_ne_zero, rfl, (fun h => by cases h), fun _ => rfl⟩

variable {x : Session}

theorem Agrees.vars_ne (h : Agrees x) : x.pwm.wantedFreq ≠ 0 ∧ x.pwm.range ≠ 0 := by
  have hvars := h.vars
  split at hvars
  · obtain ⟨hr, hw, -⟩ := Setting.mk.inj hvars
    exact ⟨by omega, by omega⟩
  · have hrange : x.pwm.setting.range ≠ 0 := hvars ▸ h.range
    have hfrequency : x.pwm.setting.frequency ≠ 0 := hvars ▸ h.frequency
    exact ⟨hfrequency, hrange⟩

theorem setup_agrees (x : Session) {frequency range : Nat} (hv : Valid (.setup frequency range)) :
    ∃ y, exec x (.setup frequency range) = some y ∧ Agrees y := by
  obtain ⟨real, pwm, heq, hset⟩ := analogWriteSetup_spec x.pwm hv
  obtain ⟨hpos, -, -⟩ := hv
  refine ⟨_, by rw [exec, heq]; rfl, ?_, ?_, ?_, fun _ => ?_, fun hs => ?_⟩
  · rintro rfl
    simp at hpos
  · rintro rfl
    simp at hpos
  · simp [hset.hasStarted, hset.setting]
  · have hrange : pwm.range = range := congrArg Setting.range hset.setting
    exact ⟨hset.rng1.trans hrange.symm, hset.rng2.trans hrange.symm⟩
  · exact hset.hasStarted.symm.trans hs

theorem follows_iff {y : Session} (h : exec x (.write p v) = some y) : Follows x p v c ↔
    y.pwm.regs.pwmrng1 = x.setting.range ∧ y.pwm.regs.pwmrng2 = x.setting.range ∧
      data y.pwm.regs c ≤ x.setting.range ∧ data y.pwm.regs c = x.setting.duty v ∧
      data y.pwm.regs c.other = data x.pwm.regs c.other ∧
      enables y.pwm.regs c.other = enables x.pwm.regs c.other := by
  rw [Follows, h]
  simp

/-- A write is answered, keeps the variables in agreement, and follows the setting exactly
under the condition. -/
theorem Agrees.write (h : Agrees x) (hc : channel p = some c) (hv : v < 2^16) :
    ∃ y, exec x (.write p v) = some y ∧ Agrees y ∧ (Follows x p v c ↔ OnSetting x v c) := by
  obtain ⟨hw, hr⟩ := h.vars_ne
  have hvars := h.vars
  by_cases hplain : x.pwm.hasStarted = true ∨ x.pwm.setting.duty v = 0
  · obtain ⟨pwm, heq, hset, hst, honly, hdata⟩ := analogWrite_plain hc hw hr hplain
    have hexec : exec x (.write p v) = some { x with pwm := pwm } := by rw [exec, heq]; rfl
    have hrange : pwm.range = x.pwm.range := congrArg Setting.range hset
    refine ⟨_, hexec, ⟨h.range, h.frequency, ?_, fun hs => ?_, fun hs => ?_⟩, ?_⟩
    · simpa only [hset, hst] using hvars
    · rw [honly.rng1, honly.rng2, hrange]
      exact h.ranges (hst.symm.trans hs)
    · exact h.early (hst.symm.trans hs)
    · rw [follows_iff hexec, honly.rng1, honly.rng2, honly.dat, honly.enabled, hdata]
      cases hs : x.pwm.hasStarted with
      | false =>
        simp only [hs, Bool.false_and, Bool.false_eq_true, if_false] at hvars
        have hzero : x.setting.duty v = 0 := by
          rw [← hvars]
          exact hplain.resolve_left (by simp [hs])
        simp [OnSetting, hs, hvars, hzero]
      | true =>
        obtain ⟨hrng1, hrng2⟩ := h.ranges hs
        have hxr : x.pwm.range = x.pwm.setting.range := rfl
        cases hn : x.renewed with
        | true =>
          simp only [hs, hn, Bool.not_true, Bool.and_false, Bool.false_eq_true, if_false] at hvars
          have hlt := Setting.duty_lt h.range v
          simp [OnSetting, hs, hn, hrng1, hrng2, hxr, hvars, hlt.le]
        | false =>
          simp only [hs, hn, Bool.not_false, Bool.and_self, if_true] at hvars
          rw [hrng1, hrng2, hxr, hvars, lazySetting_duty hv]
          simp only [OnSetting, hs, hn, lazySetting, if_true, Bool.false_eq_true, false_or]
          constructor
          · rintro ⟨hr1, -, -, hd, -, -⟩
            exact ⟨hr1.symm, hd.symm⟩
          · rintro ⟨hr1, hd⟩
            exact ⟨hr1.symm, hr1.symm, by omega, hd.symm, trivial, trivial⟩
  · obtain ⟨hs, hne⟩ := not_or.mp hplain
    have hs : x.pwm.hasStarted = false := by simpa using hs
    simp only [hs, Bool.false_and, Bool.false_eq_true, if_false] at hvars
    obtain ⟨pwm, heq, hset, hst, hrng1, hrng2, hdata, hother, hen⟩ :=
      analogWrite_starts hc hw hr hs hne
    have hexec : exec x (.write p v) = some { x with pwm := pwm } := by rw [exec, heq]; rfl
    have hrange : pwm.range = 256 := congrArg Setting.range hset
    refine ⟨_, hexec, ⟨h.range, h.frequency, ?_, fun _ => ?_, fun h' => ?_⟩, ?_⟩
    · simp [hst, hset, h.early hs]
    · exact ⟨hrng1.trans hrange.symm, hrng2.trans hrange.symm⟩
    · exact absurd (hst.symm.trans h') (by simp)
    · have hlt := Setting.duty_lt h.range v
      rw [hvars] at hne
      rw [follows_iff hexec, hrng1, hrng2, hdata, hother, hen, hvars]
      simp only [OnSetting, hs, hne, Bool.false_eq_true, if_false]
      constructor
      · rintro ⟨hr1, -, -, -, -, hd⟩
        exact ⟨hr1.symm, hd.symm⟩
      · rintro ⟨hr1, hd⟩
        exact ⟨hr1.symm, hr1.symm, hlt.le, trivial, trivial, hd.symm⟩

theorem Agrees.call (h : Agrees x) {a : Call} (ha : Valid a) :
    ∃ y, exec x a = some y ∧ Agrees y := by
  cases a with
  | setup frequency range => exact setup_agrees x ha
  | write p v =>
    obtain ⟨⟨c, hc⟩, hv⟩ := ha
    obtain ⟨y, hy, hagrees, -⟩ := h.write hc hv
    exact ⟨y, hy, hagrees⟩

theorem Agrees.calls (h : Agrees x) {calls : List Call} (hv : ∀ a ∈ calls, Valid a) :
    ∃ y, run exec calls x = some y ∧ Agrees y := by
  induction calls generalizing x with
  | nil => exact ⟨x, rfl, h⟩
  | cons a calls ih =>
    obtain ⟨ha, hcalls⟩ := List.forall_mem_cons.mp hv
    obtain ⟨y, hy, hagrees⟩ := h.call ha
    obtain ⟨z, hz, hagrees'⟩ := ih hagrees hcalls
    exact ⟨z, run_cons_some.mpr ⟨y, hy, hz⟩, hagrees'⟩

/-- After any possible calls, a write follows the setting of the sketch if and only if the PWM
runs on it. -/
theorem write_follows_setting_iff (regs : Registers) (calls : List Call)
    (hv : ∀ a ∈ calls, Valid a) : ∃ x, run exec calls (start regs) = some x ∧
      ∀ p v c, channel p = some c → v < 2^16 → (Follows x p v c ↔ OnSetting x v c) := by
  obtain ⟨x, hx, h⟩ := (start_agrees regs).calls hv
  refine ⟨x, hx, fun p v c hc hlt => ?_⟩
  obtain ⟨-, -, -, hiff⟩ := h.write (p := p) hc hlt
  exact hiff

def resetRegisters : Registers :=
  ⟨0, 0x20, 0x20, 0, 0, 0, 0, List.replicate 6 0, 0, 0, 0⟩

theorem write_follows_setting_iff_twice :
    ∃ x, run exec [.setup 1000 1024, .write 18 512, .setup 1000 1024] (start resetRegisters) =
        some x ∧
      ∀ p v c, channel p = some c → v < 2^16 → (Follows x p v c ↔ OnSetting x v c) := by
  refine write_follows_setting_iff resetRegisters _ fun a ha => ?_
  simp only [List.mem_cons, List.not_mem_nil, or_false] at ha
  obtain rfl | rfl | rfl := ha
  · exact ⟨by decide, by decide, by decide⟩
  · exact ⟨⟨.one, rfl⟩, by decide⟩
  · exact ⟨by decide, by decide, by decide⟩

/-- The first write after a setup puts the range of analogWriteInit in place of its own. -/
theorem first_write_loses_setup : ¬ ∀ regs calls, (∀ a ∈ calls, Valid a) →
    ∀ x, run exec calls (start regs) = some x →
      ∀ p v c, channel p = some c → v < 2^16 → Follows x p v c := by
  intro h
  have hvalid : ∀ a ∈ [Call.setup 1000 1024], Valid a := by
    intro a ha
    obtain rfl := List.mem_singleton.mp ha
    exact ⟨by decide, by decide, by decide⟩
  obtain ⟨t, ht, hr, -⟩ := h resetRegisters _ hvalid _ rfl 18 512 .one rfl (by decide)
  cases ht
  exact absurd hr (by decide)

end RasPiArduino.Pwm
