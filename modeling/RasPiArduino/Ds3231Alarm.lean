import RasPiArduino.Ds3231

/-! The alarms of DS3231.cpp: the bytes that setAlarm1() and setAlarm2() send, and what the chip
reads from them. An int has 32 bits; `/` and `%` cut off towards 0. -/
namespace RasPiArduino.Ds3231

/-- `(x/10) << 4) | (x % 10)`, as it is stored in a byte. -/
def bcdByte (x : Int32) : UInt8 := byte ((x / 10) <<< 4 ||| x % 10)

def dayByte (day : Int32) (weekday : Bool) : UInt8 :=
  if weekday then byte (0x40 ||| ((day - 1) % 7 + 1))
  else bcdByte ((day - 1) % 31 + 1)

def alarm1Data (seconds minutes hour day : Int32) (weekday : Bool) : List UInt8 :=
  [if seconds = -1 then 0x80 else bcdByte (seconds % 60),
    if minutes = -1 ∨ seconds = -1 then 0x80 else bcdByte (minutes % 60),
    if hour = -1 ∨ minutes = -1 ∨ seconds = -1 then 0x80 else bcdByte (hour % 24),
    if day ≤ 0 ∨ hour = -1 ∨ minutes = -1 ∨ seconds = -1 then 0x80 else dayByte day weekday]

def alarm2Data (minutes hour day : Int32) (weekday : Bool) : List UInt8 :=
  [if minutes = -1 then 0x80 else bcdByte (minutes % 60),
    if hour = -1 ∨ minutes = -1 then 0x80 else bcdByte (hour % 24),
    if day ≤ 0 ∨ hour = -1 ∨ minutes = -1 then 0x80 else dayByte day weekday]

/-- The registers of an alarm, its interrupt enabled and its flag cleared, as long as all goes
well. -/
def setAlarm (o : ℕ → Outcome) (b : Bus) (reg ie flag : UInt8) (data : List UInt8) : Bool × Bus :=
  let (written, b) := write o b reg data
  if !written then (false, b)
  else
    let (enabled, b) := updateReg o b rtccr ie ie
    if !enabled then (false, b) else updateReg o b rtcsr 0 flag

def setAlarm1 (o : ℕ → Outcome) (b : Bus) (seconds minutes hour day : Int32) (weekday : Bool) :
    Bool × Bus :=
  setAlarm o b rtca1 rtca1ie rtca1f (alarm1Data seconds minutes hour day weekday)

def setAlarm2 (o : ℕ → Outcome) (b : Bus) (minutes hour day : Int32) (weekday : Bool) :
    Bool × Bus :=
  setAlarm o b rtca2 rtca2ie rtca2f (alarm2Data minutes hour day weekday)

/-! What the chip reads. -/

def bcd (n : ℕ) : UInt8 := UInt8.ofNat (n / 10 * 16 + n % 10)

/-- The byte stands for a number below `range` that is congruent to the argument. -/
def Coded (range : ℕ) (x : Int32) (c : UInt8) : Prop :=
  ∃ n < range, c = bcd n ∧ (n : ℤ) ≡ x.toInt [ZMOD range]

/-- The byte stands for a day of the week, which bit 6 says, or of the month. -/
def DayCoded (day : Int32) (weekday : Bool) (c : UInt8) : Prop :=
  if weekday then ∃ n, 1 ≤ n ∧ n ≤ 7 ∧ c = 0x40 ||| bcd n ∧ (n : ℤ) ≡ day.toInt [ZMOD 7]
  else ∃ n, 1 ≤ n ∧ n ≤ 31 ∧ c = bcd n ∧ (n : ℤ) ≡ day.toInt [ZMOD 31]

def Entry (ignored : Prop) (code : UInt8 → Prop) (c : UInt8) : Prop :=
  ignored ∧ c = 0x80 ∨ ¬ ignored ∧ code c

/-- The patterns of the ignore bits that the chip knows: with a unit it ignores all larger
ones. -/
def Chained (data : List UInt8) : Prop :=
  data.Pairwise fun c c' => c &&& 0x80 ≠ 0 → c' &&& 0x80 ≠ 0

def Alarm1 (seconds minutes hour day : Int32) (weekday : Bool) (data : List UInt8) : Prop :=
  (∃ c₀ c₁ c₂ c₃, data = [c₀, c₁, c₂, c₃] ∧
    Entry (seconds = -1) (Coded 60 seconds) c₀ ∧
    Entry (minutes = -1 ∨ seconds = -1) (Coded 60 minutes) c₁ ∧
    Entry (hour = -1 ∨ minutes = -1 ∨ seconds = -1) (Coded 24 hour) c₂ ∧
    Entry (day ≤ 0 ∨ hour = -1 ∨ minutes = -1 ∨ seconds = -1) (DayCoded day weekday) c₃) ∧
  Chained data

def Alarm2 (minutes hour day : Int32) (weekday : Bool) (data : List UInt8) : Prop :=
  (∃ c₀ c₁ c₂, data = [c₀, c₁, c₂] ∧
    Entry (minutes = -1) (Coded 60 minutes) c₀ ∧
    Entry (hour = -1 ∨ minutes = -1) (Coded 24 hour) c₁ ∧
    Entry (day ≤ 0 ∨ hour = -1 ∨ minutes = -1) (DayCoded day weekday) c₂) ∧
  Chained data

def Sends (b : Bus) (call : Bool × Bus) (reg : UInt8) (P : List UInt8 → Prop) : Prop :=
  ∃ data rest, call.2.sent = b.sent ++ (reg :: data) :: rest ∧ P data

/-- The remainder of the argument is not negative. -/
def Reducible (range : ℕ) (x : Int32) : Prop := 0 ≤ x ∨ (range : ℤ) ∣ x.toInt

/-- No argument that is sent is negative, but for multiples of the range. -/
def Reducible1 (seconds minutes hour : Int32) : Prop :=
  (seconds ≠ -1 → Reducible 60 seconds) ∧
    (seconds ≠ -1 ∧ minutes ≠ -1 → Reducible 60 minutes) ∧
    (seconds ≠ -1 ∧ minutes ≠ -1 ∧ hour ≠ -1 → Reducible 24 hour)

def Reducible2 (minutes hour : Int32) : Prop :=
  (minutes ≠ -1 → Reducible 60 minutes) ∧ (minutes ≠ -1 ∧ hour ≠ -1 → Reducible 24 hour)

variable {x day : Int32} {range n : ℕ} {weekday : Bool} {c : UInt8}

/-! The digits. -/

theorem bcdByte_ofNat (hn : n < 60) : bcdByte (Int32.ofInt n) = bcd n := by
  have h : ∀ n : Fin 60, bcdByte (Int32.ofInt (n : ℕ)) = bcd n := by decide
  exact h ⟨n, hn⟩

theorem bcdByte_neg (hn : n < 60) (hpos : 0 < n) : 0x80 ≤ bcdByte (Int32.ofInt (-n)) := by
  have h : ∀ n : Fin 60, 0 < (n : ℕ) → 0x80 ≤ bcdByte (Int32.ofInt (-(n : ℕ))) := by decide
  exact h ⟨n, hn⟩ hpos

theorem bcd_lt (hn : n < 60) : bcd n < 0x80 := by
  have h : ∀ n : Fin 60, bcd n < 0x80 := by decide
  exact h ⟨n, hn⟩

theorem not_ignored_of_lt (hc : c < 0x80) : c &&& 0x80 = 0 := by
  have h : ∀ n : Fin 128, UInt8.ofNat n &&& 0x80 = 0 := by decide
  have hlt : c.toNat < 128 := UInt8.lt_iff_toNat_lt.mp hc
  simpa using h ⟨c.toNat, hlt⟩

theorem dayByte_ofNat (hn : 1 ≤ n) (hle : n ≤ 7) :
    byte (0x40 ||| Int32.ofInt n) = 0x40 ||| bcd n := by
  have h : ∀ n : Fin 8, byte (0x40 ||| Int32.ofInt (n : ℕ)) = 0x40 ||| bcd n := by decide
  exact h ⟨n, by omega⟩

/-! The remainders. -/

theorem eq_ofInt {k : ℤ} (h : x.toInt = k) : x = Int32.ofInt k := by
  rw [← h, Int32.ofInt_toInt]

theorem tmod_modEq (a m : ℤ) : a.tmod m ≡ a [ZMOD m] := by
  rw [Int.modEq_iff_dvd]
  exact ⟨a.tdiv m, by have := Int.tmod_add_mul_tdiv a m; omega⟩

theorem tmod_nonneg_iff {a m : ℤ} : 0 ≤ a.tmod m ↔ 0 ≤ a ∨ m ∣ a := by
  constructor
  · intro h
    by_cases ha : 0 ≤ a
    · exact .inl ha
    · have hneg : 0 ≤ (-a).tmod m := Int.tmod_nonneg m (by omega)
      rw [Int.neg_tmod] at hneg
      exact .inr (Int.dvd_of_tmod_eq_zero (by omega))
  · rintro (ha | ha)
    · exact Int.tmod_nonneg m ha
    · rw [Int.tmod_eq_zero_of_dvd ha]

/-- The range of a field: as the int of the code, and as a number of two digits. -/
def FieldRange (r : Int32) (range : ℕ) : Prop := r.toInt = range ∧ 0 < range ∧ range ≤ 60

theorem fieldRange_sixty : FieldRange 60 60 := ⟨by decide, by decide, by decide⟩

theorem fieldRange_twentyFour : FieldRange 24 24 := ⟨by decide, by decide, by decide⟩

theorem coded_iff {r : Int32} (h : FieldRange r range) :
    Coded range x (bcdByte (x % r)) ↔ Reducible range x := by
  obtain ⟨hr, hpos, hrange⟩ := h
  have hmod : (x % r).toInt = x.toInt.tmod range := by rw [Int32.toInt_mod, hr]
  have hlt := Int.tmod_lt_of_pos x.toInt (show (0 : ℤ) < range by omega)
  have hgt := Int.lt_tmod_of_pos x.toInt (show (0 : ℤ) < range by omega)
  have hzero : (0 : Int32) ≤ x ↔ 0 ≤ x.toInt := Int32.le_iff_toInt_le
  rw [Reducible, hzero, ← tmod_nonneg_iff]
  constructor
  · rintro ⟨n, hn, hcode, -⟩
    by_contra hneg
    obtain ⟨k, hk⟩ := Int.eq_ofNat_of_zero_le (show 0 ≤ -x.toInt.tmod range by omega)
    have heq : x % r = Int32.ofInt (-k) := eq_ofInt (by omega)
    have hge := bcdByte_neg (n := k) (by omega) (by omega)
    rw [← heq, hcode] at hge
    exact absurd (bcd_lt (n := n) (by omega)) (UInt8.not_lt.mpr hge)
  · intro hnonneg
    obtain ⟨n, hn⟩ := Int.eq_ofNat_of_zero_le hnonneg
    refine ⟨n, by omega, ?_, ?_⟩
    · rw [eq_ofInt (hmod.trans hn)]
      exact bcdByte_ofNat (by omega)
    · rw [← hn]
      exact tmod_modEq _ _

theorem day_reduced (range : ℕ) {r : Int32} (hr : r.toInt = range) (hpos : 0 < range)
    (hrange : range ≤ 31) (hday : ¬ day ≤ 0) :
    ∃ n : ℕ, 1 ≤ n ∧ n ≤ range ∧ (day - 1) % r + 1 = Int32.ofInt n ∧
      (n : ℤ) ≡ day.toInt [ZMOD range] := by
  have hday : 1 ≤ day.toInt := by
    have hlt := Int32.lt_iff_toInt_lt.mp (Int32.not_le.mp hday)
    rw [Int32.toInt_zero] at hlt
    omega
  have hbig := day.toInt_lt
  have hsub : (day - 1).toInt = day.toInt - 1 := by
    rw [Int32.toInt_sub, Int32.toInt_one]
    exact Int.bmod_eq_of_le (by omega) (by omega)
  have hnonneg := Int.tmod_nonneg (a := day.toInt - 1) range (by omega)
  have hlt := Int.tmod_lt_of_pos (day.toInt - 1) (show (0 : ℤ) < range by omega)
  have hmod : ((day - 1) % r + 1).toInt = (day.toInt - 1).tmod range + 1 := by
    rw [Int32.toInt_add, Int32.toInt_mod, hsub, hr, Int32.toInt_one]
    exact Int.bmod_eq_of_le (by omega) (by omega)
  obtain ⟨n, hn⟩ := Int.eq_ofNat_of_zero_le (show 0 ≤ (day.toInt - 1).tmod range + 1 by omega)
  refine ⟨n, by omega, by omega, eq_ofInt (hmod.trans hn), ?_⟩
  have hcongr := (tmod_modEq (day.toInt - 1) range).add_right 1
  rwa [hn, Int.sub_add_cancel] at hcongr

theorem dayByte_coded (weekday : Bool) (hday : ¬ day ≤ 0) :
    DayCoded day weekday (dayByte day weekday) := by
  cases weekday with
  | false =>
    obtain ⟨n, hpos, hle, heq, hcongr⟩ := day_reduced 31 (r := 31) (by decide) (by decide)
      (by decide) hday
    have hbcd : bcdByte (Int32.ofInt n) = bcd n := bcdByte_ofNat (by omega)
    simp only [DayCoded, dayByte, Bool.false_eq_true, if_false, heq, hbcd]
    exact ⟨n, hpos, hle, rfl, hcongr⟩
  | true =>
    obtain ⟨n, hpos, hle, heq, hcongr⟩ := day_reduced 7 (r := 7) (by decide) (by decide)
      (by decide) hday
    simp only [DayCoded, dayByte, if_true, heq, dayByte_ofNat hpos hle]
    exact ⟨n, hpos, hle, rfl, hcongr⟩

/-! The bytes of an alarm. -/

theorem Coded.lt (hrange : range ≤ 60) (h : Coded range x c) : c < 0x80 := by
  obtain ⟨n, hn, rfl, -⟩ := h
  exact bcd_lt (by omega)

variable {p q : Prop} {code code' : UInt8 → Prop} {c' : UInt8}

theorem entry_iff [Decidable p] : Entry p code (if p then 0x80 else c) ↔ (¬ p → code c) := by
  by_cases h : p <;> simp [Entry, h]

theorem Entry.chained (h : Entry p code c) (h' : Entry q code' c')
    (hcode : ∀ c, code c → c < 0x80) (hpq : p → q) : c &&& 0x80 ≠ 0 → c' &&& 0x80 ≠ 0 := by
  intro hbit
  obtain ⟨hp, -⟩ | ⟨-, hc⟩ := h
  · obtain ⟨-, rfl⟩ | ⟨hq, -⟩ := h'
    · decide
    · exact absurd (hpq hp) hq
  · exact absurd (not_ignored_of_lt (hcode c hc)) hbit

theorem field_iff [Decidable p] {r : Int32} (h : FieldRange r range) :
    Entry p (Coded range x) (if p then 0x80 else bcdByte (x % r)) ↔ (¬ p → Reducible range x) := by
  rw [entry_iff, coded_iff h]

theorem alarm1_iff (seconds minutes hour day : Int32) (weekday : Bool) :
    Alarm1 seconds minutes hour day weekday (alarm1Data seconds minutes hour day weekday) ↔
      Reducible1 seconds minutes hour := by
  rw [Reducible1]
  constructor
  · rintro ⟨⟨c₀, c₁, c₂, c₃, hdata, h₀, h₁, h₂, -⟩, -⟩
    simp only [alarm1Data, List.cons.injEq, and_true] at hdata
    obtain ⟨rfl, rfl, rfl, rfl⟩ := hdata
    refine ⟨(field_iff fieldRange_sixty).mp h₀, fun h => (field_iff fieldRange_sixty).mp h₁ ?_,
      fun h => (field_iff fieldRange_twentyFour).mp h₂ ?_⟩
    · tauto
    · tauto
  · rintro ⟨hseconds, hminutes, hhour⟩
    have h₀ := (field_iff fieldRange_sixty).mpr hseconds
    have h₁ : Entry (minutes = -1 ∨ seconds = -1) _ _ :=
      (field_iff fieldRange_sixty).mpr fun h => hminutes (by tauto)
    have h₂ : Entry (hour = -1 ∨ minutes = -1 ∨ seconds = -1) _ _ :=
      (field_iff fieldRange_twentyFour).mpr fun h => hhour (by tauto)
    have h₃ : Entry (day ≤ 0 ∨ hour = -1 ∨ minutes = -1 ∨ seconds = -1) _ _ :=
      entry_iff.mpr fun h => dayByte_coded weekday (fun hday => h (.inl hday))
    refine ⟨⟨_, _, _, _, rfl, h₀, h₁, h₂, h₃⟩, ?_⟩
    have hsixty : ∀ {x : Int32} c, Coded 60 x c → c < 0x80 := fun c h => h.lt (by decide)
    have htwentyFour : ∀ {x : Int32} c, Coded 24 x c → c < 0x80 := fun c h => h.lt (by decide)
    simp only [Chained, alarm1Data, List.pairwise_cons, List.forall_mem_cons]
    refine ⟨⟨h₀.chained h₁ hsixty .inr, h₀.chained h₂ hsixty (.inr ∘ .inr),
      h₀.chained h₃ hsixty (.inr ∘ .inr ∘ .inr), by simp⟩, ⟨h₁.chained h₂ hsixty .inr,
      h₁.chained h₃ hsixty (.inr ∘ .inr), by simp⟩, ⟨h₂.chained h₃ htwentyFour .inr, by simp⟩,
      by simp⟩

theorem alarm2_iff (minutes hour day : Int32) (weekday : Bool) :
    Alarm2 minutes hour day weekday (alarm2Data minutes hour day weekday) ↔
      Reducible2 minutes hour := by
  rw [Reducible2]
  constructor
  · rintro ⟨⟨c₀, c₁, c₂, hdata, h₀, h₁, -⟩, -⟩
    simp only [alarm2Data, List.cons.injEq, and_true] at hdata
    obtain ⟨rfl, rfl, rfl⟩ := hdata
    exact ⟨(field_iff fieldRange_sixty).mp h₀,
      fun h => (field_iff fieldRange_twentyFour).mp h₁ (by tauto)⟩
  · rintro ⟨hminutes, hhour⟩
    have h₀ := (field_iff fieldRange_sixty).mpr hminutes
    have h₁ : Entry (hour = -1 ∨ minutes = -1) _ _ :=
      (field_iff fieldRange_twentyFour).mpr fun h => hhour (by tauto)
    have h₂ : Entry (day ≤ 0 ∨ hour = -1 ∨ minutes = -1) _ _ :=
      entry_iff.mpr fun h => dayByte_coded weekday (fun hday => h (.inl hday))
    refine ⟨⟨_, _, _, rfl, h₀, h₁, h₂⟩, ?_⟩
    simp only [Chained, alarm2Data, List.pairwise_cons, List.forall_mem_cons]
    refine ⟨⟨h₀.chained h₁ (fun c h => h.lt (by decide)) .inr,
      h₀.chained h₂ (fun c h => h.lt (by decide)) (.inr ∘ .inr), by simp⟩,
      ⟨h₁.chained h₂ (fun c h => h.lt (by decide)) .inr, by simp⟩, by simp⟩

/-! What is sent. -/

variable {o : ℕ → Outcome} {b : Bus} {reg : UInt8}

theorem updateReg_sent (o : ℕ → Outcome) (b : Bus) (reg value mask : UInt8) :
    ∃ rest, (updateReg o b reg value mask).2.sent = b.sent ++ rest := by
  simp only [updateReg]
  split
  · exact ⟨_, getReg_sent⟩
  · exact ⟨_, by rw [setReg_sent, getReg_sent, List.append_assoc]⟩

theorem setAlarm_sent (o : ℕ → Outcome) (b : Bus) (reg ie flag : UInt8) (data : List UInt8) :
    ∃ rest, (setAlarm o b reg ie flag data).2.sent = b.sent ++ (reg :: data) :: rest := by
  have hwrite : (write o b reg data).2.sent = b.sent ++ [reg :: data] := rfl
  obtain ⟨rest, hrest⟩ := updateReg_sent o (write o b reg data).2 rtccr ie ie
  obtain ⟨rest', hrest'⟩ := updateReg_sent o
    (updateReg o (write o b reg data).2 rtccr ie ie).2 rtcsr 0 flag
  simp only [setAlarm]
  split
  · exact ⟨[], hwrite⟩
  · split
    · exact ⟨rest, by rw [hrest, hwrite, List.append_assoc, List.singleton_append]⟩
    · refine ⟨rest ++ rest', ?_⟩
      rw [hrest', hrest, hwrite]
      simp

theorem sends_iff {ie flag : UInt8} {data : List UInt8} {P : List UInt8 → Prop} :
    Sends b (setAlarm o b reg ie flag data) reg P ↔ P data := by
  obtain ⟨rest, hrest⟩ := setAlarm_sent o b reg ie flag data
  constructor
  · rintro ⟨data', rest', hsent, hp⟩
    have heq := List.append_cancel_left (hrest.symm.trans hsent)
    obtain ⟨hhead, -⟩ := List.cons.inj heq
    obtain ⟨-, rfl⟩ := List.cons.inj hhead
    exact hp
  · intro hp
    exact ⟨data, rest, hrest, hp⟩

/-- The registers sent are right exactly when no argument that counts is negative, multiples of
its range apart. -/
theorem setAlarm_iff (o : ℕ → Outcome) (b : Bus) (seconds minutes hour day : Int32)
    (weekday : Bool) :
    (Sends b (setAlarm1 o b seconds minutes hour day weekday) rtca1
        (Alarm1 seconds minutes hour day weekday) ↔ Reducible1 seconds minutes hour) ∧
      (Sends b (setAlarm2 o b minutes hour day weekday) rtca2
        (Alarm2 minutes hour day weekday) ↔ Reducible2 minutes hour) :=
  ⟨sends_iff.trans (alarm1_iff seconds minutes hour day weekday),
    sends_iff.trans (alarm2_iff minutes hour day weekday)⟩

/-- Five seconds before the minute are sent as 0xFB. -/
theorem negative_seconds_sent : ¬ ∀ o b seconds minutes hour day weekday,
    Sends b (setAlarm1 o b seconds minutes hour day weekday) rtca1
        (Alarm1 seconds minutes hour day weekday) ∧
      Sends b (setAlarm2 o b minutes hour day weekday) rtca2
        (Alarm2 minutes hour day weekday) := by
  intro h
  have hsends := (h (fun _ => ⟨0, 0⟩) ⟨⟨fun _ => 0, 0⟩, [], 0⟩ (-5) 30 12 1 false).1
  obtain ⟨hseconds, -⟩ := (alarm1_iff (-5) 30 12 1 false).mp (sends_iff.mp hsends)
  have hneg : ¬ Reducible 60 (-5) := by
    rintro (h | h)
    · exact absurd h (by decide)
    · exact absurd h (by decide)
  exact hneg (hseconds (by decide))

end RasPiArduino.Ds3231
