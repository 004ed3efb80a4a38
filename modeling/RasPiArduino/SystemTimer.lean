import RasPiArduino.TimedStream

/-! The 64-bit counter of the system timer, read as two words while it goes on, and the clock of
the Stream layer that is made of it. -/
namespace RasPiArduino.SystemTimer
open TimedStream

/-- Which of the two reads in STCV comes first; C leaves it to the compiler. -/
inductive Order where
  | loFirst
  | hiFirst
  deriving DecidableEq, Repr

/-- The values of the counter at the two reads of one STCV. -/
structure Reading where
  first : Nat
  second : Nat
  order : Order
  forward : first ≤ second
  fits : second < 2^64

def stclo (t : Nat) : UInt32 := UInt32.ofNat t

def stchi (t : Nat) : UInt32 := UInt32.ofNat (t / 2^32)

def stcv (r : Reading) : UInt64 :=
  match r.order with
  | .loFirst => (stclo r.first).toUInt64 ||| (stchi r.second).toUInt64 <<< 32
  | .hiFirst => (stclo r.second).toUInt64 ||| (stchi r.first).toUInt64 <<< 32

def millis (r : Reading) : UInt32 := (stcv r / 1000).toUInt32

structure History where
  reading : Nat → Reading
  forward : ∀ k, (reading k).second ≤ (reading (k + 1)).first

/-- A Stream whose clock is the timer: `read` and `peek` on a state of its own, with the number of
the next reading. -/
def onTimer {τ : Type} (H : History) (read peek : τ → Int × τ) : Device (τ × Nat) where
  read s := ((read s.1).1, ((read s.1).2, s.2))
  peek s := ((peek s.1).1, ((peek s.1).2, s.2))
  millis s := ((millis (H.reading s.2)).toNat, (s.1, s.2 + 1))

def Reading.Between (r : Reading) : Prop :=
  r.first ≤ (stcv r).toNat ∧ (stcv r).toNat ≤ r.second

/-- The low word did not fall between the two reads. -/
def Reading.Straight (r : Reading) : Prop := r.first % 2^32 ≤ r.second % 2^32

theorem toNat_join (lo hi : UInt32) :
    (lo.toUInt64 ||| hi.toUInt64 <<< 32).toNat = hi.toNat * 2^32 + lo.toNat := by
  have hhi := hi.toNat_lt
  have hlo := lo.toNat_lt
  have hshift : (hi.toUInt64 <<< 32).toNat = hi.toNat * 2^32 := by
    rw [UInt64.toNat_shiftLeft, UInt32.toNat_toUInt64, Nat.shiftLeft_eq]
    exact Nat.mod_eq_of_lt (by simpa using Nat.mul_lt_mul_of_pos_right hhi (by decide : 0 < 2^32))
  rw [UInt64.toNat_or, hshift, UInt32.toNat_toUInt64, Nat.or_comm, Nat.mul_comm,
    ← Nat.two_pow_add_eq_or_of_lt hlo]

theorem toNat_stcv (r : Reading) : (stcv r).toNat = match r.order with
    | .loFirst => r.second / 2^32 * 2^32 + r.first % 2^32
    | .hiFirst => r.first / 2^32 * 2^32 + r.second % 2^32 := by
  have hfits := r.fits
  have hforward := r.forward
  have hhi {t : Nat} (ht : t < 2^64) : (stchi t).toNat = t / 2^32 := by
    rw [stchi, UInt32.toNat_ofNat']
    exact Nat.mod_eq_of_lt (Nat.div_lt_of_lt_mul (by simpa using ht))
  have hlo (t : Nat) : (stclo t).toNat = t % 2^32 := UInt32.toNat_ofNat'
  rw [stcv]
  cases r.order with
  | loFirst => rw [toNat_join, hlo, hhi r.fits]
  | hiFirst => rw [toNat_join, hlo, hhi (by omega)]

theorem between_iff (r : Reading) : r.Between ↔ r.Straight := by
  have hforward := r.forward
  rw [Reading.Between, Reading.Straight, toNat_stcv]
  cases r.order with
  | loFirst =>
    dsimp only
    omega
  | hiFirst =>
    dsimp only
    omega

theorem toNat_millis (r : Reading) : (millis r).toNat = (stcv r).toNat / 1000 % 2^32 := by
  rw [millis, UInt64.toNat_toUInt32, UInt64.toNat_div]
  rfl

variable (H : History)

theorem History.reading_lt {i j : Nat} (hij : i < j) :
    (H.reading i).second ≤ (H.reading j).first := by
  induction hij with
  | refl => exact H.forward i
  | step _ ih =>
    next j _ => exact ih.trans ((H.reading j).forward.trans (H.forward j))

/-- The difference of two results is the number of milliseconds between the readings, as an
unsigned long and up to one at either side. -/
def Measures : Prop := ∀ i j, i < j →
  ∃ e, elapsed (millis (H.reading j)).toNat (millis (H.reading i)).toNat = e % 2^32 ∧
    (H.reading j).first < (H.reading i).second + 1000 * (e + 1) ∧
    (H.reading i).first + 1000 * e < (H.reading j).second + 1000

/-- The number of milliseconds that the counter has behind it is higher by the timeout at the
last reading than at the one that the call began with. -/
def Waited (start last timeout : Nat) : Prop :=
  (H.reading start).first / 1000 + timeout ≤ (H.reading last).second / 1000

def Patient : Prop := ∀ (τ : Type) (read peek : τ → Int × τ) (timeout n : Nat) (t : τ) (k : Nat),
  (∀ c t' k', timedRead (onTimer H read peek) timeout n (t, k) = some (c, t', k') → c < 0 →
    Waited H k (k' - 1) timeout) ∧
  ∀ c t' k', timedPeek (onTimer H read peek) timeout n (t, k) = some (c, t', k') → c < 0 →
    Waited H k (k' - 1) timeout

structure Follows : Prop where
  between : ∀ k, (H.reading k).Between
  measures : Measures H
  patient : Patient H

variable {H} {i j : Nat}

theorem stcv_le (hij : i < j) (hi : (H.reading i).Between) (hj : (H.reading j).Between) :
    (stcv (H.reading i)).toNat ≤ (stcv (H.reading j)).toNat :=
  hi.2.trans ((H.reading_lt hij).trans hj.1)

theorem elapsed_millis (hij : i < j) (hi : (H.reading i).Between) (hj : (H.reading j).Between) :
    elapsed (millis (H.reading j)).toNat (millis (H.reading i)).toNat =
      ((stcv (H.reading j)).toNat / 1000 - (stcv (H.reading i)).toNat / 1000) % 2^32 := by
  have hdiv := Nat.div_le_div_right (c := 1000) (stcv_le hij hi hj)
  rw [elapsed, toNat_millis, toNat_millis]
  omega

theorem measures_of_between (h : ∀ k, (H.reading k).Between) : Measures H := by
  intro i j hij
  have hi := h i
  have hj := h j
  have horder := stcv_le hij hi hj
  refine ⟨_, elapsed_millis hij hi hj, ?_, ?_⟩
  · have := hi.2
    have := hj.1
    omega
  · have := hi.1
    have := hj.2
    omega

theorem Waited.microseconds {timeout : Nat} (h : Waited H i j timeout) :
    (H.reading i).first + 1000 * timeout < (H.reading j).second + 1000 := by
  rw [Waited] at h
  omega

theorem waited_of_elapsed (h : ∀ k, (H.reading k).Between) {timeout : Nat} (hij : i < j)
    (ht : ¬ elapsed (millis (H.reading j)).toNat (millis (H.reading i)).toNat < timeout) :
    Waited H i j timeout := by
  rw [elapsed_millis hij (h i) (h j)] at ht
  have horder := Nat.div_le_div_right (c := 1000) (stcv_le hij (h i) (h j))
  have hi := Nat.div_le_div_right (c := 1000) (h i).1
  have hj := Nat.div_le_div_right (c := 1000) (h j).2
  have hmod := Nat.mod_le
    ((stcv (H.reading j)).toNat / 1000 - (stcv (H.reading i)).toNat / 1000) (2^32)
  rw [Waited]
  omega

theorem timedLoop_timeout {τ : Type} {read peek : τ → Int × τ} {next : τ × Nat → Int × τ × Nat}
    (hnext : ∀ s, (next s).2.2 = s.2) {timeout start n : Nat} {s : τ × Nat} {c : Int} {t : τ}
    {k : Nat} (h : timedLoop (onTimer H read peek) next timeout start n s = some (c, t, k))
    (hc : c < 0) : s.2 < k ∧
      ¬ elapsed (millis (H.reading (k - 1))).toNat start < timeout := by
  induction n generalizing s with
  | zero => cases h
  | succ n ih =>
    rw [timedLoop] at h
    dsimp only [onTimer] at h
    rw [hnext] at h
    split at h
    · next hge =>
      obtain rfl : (next s).1 = c := congrArg Prod.fst (Option.some.inj h)
      omega
    · split at h
      · have hlater := ih h
        exact ⟨Nat.lt_of_succ_lt hlater.1, hlater.2⟩
      · next hover =>
        obtain rfl : s.2 + 1 = k := congrArg (fun r => r.2.2) (Option.some.inj h)
        exact ⟨Nat.lt_succ_self _, hover⟩

theorem timed_timeout (hbetween : ∀ k, (H.reading k).Between) {τ : Type}
    {read peek : τ → Int × τ} {next : τ × Nat → Int × τ × Nat} (hnext : ∀ s, (next s).2.2 = s.2)
    {timeout n : Nat} {t : τ} {k : Nat} {c : Int} {t' : τ} {k' : Nat}
    (h : timed (onTimer H read peek) next timeout n (t, k) = some (c, t', k')) (hc : c < 0) :
    Waited H k (k' - 1) timeout := by
  obtain ⟨hlast, hover⟩ := timedLoop_timeout hnext h hc
  dsimp only [onTimer] at hlast
  exact waited_of_elapsed hbetween (by omega) hover

theorem patient_of_between (h : ∀ k, (H.reading k).Between) : Patient H := fun _ _ _ _ _ _ _ =>
  ⟨fun _ _ _ hread hc => timed_timeout h (fun _ => rfl) hread hc,
    fun _ _ _ hpeek hc => timed_timeout h (fun _ => rfl) hpeek hc⟩

/-- The clock follows the timer exactly when no reading is split by a fall of the low word. -/
theorem clock_follows_iff (H : History) : Follows H ↔ ∀ k, (H.reading k).Straight := by
  constructor
  · intro h k
    exact (between_iff _).mp (h.between k)
  · intro h
    have hbetween (k : Nat) := (between_iff _).mpr (h k)
    exact ⟨hbetween, measures_of_between hbetween, patient_of_between hbetween⟩

/-- The second reading of this history has the low word of before the carry and the high word of
after it. -/
def torn : History where
  reading k :=
    if k = 0 then ⟨0xFFFFFF00, 0xFFFFFF00, .loFirst, Nat.le_refl _, by decide⟩
    else if k = 1 then ⟨0xFFFFFFFF, 0x100000000, .loFirst, by decide, by decide⟩
    else ⟨0x100000000, 0x100000000, .loFirst, Nat.le_refl _, by decide⟩
  forward k := by
    match k with
    | 0 => decide
    | 1 => decide
    | k + 2 => simp

/-- A torn reading lets a timeout of a second pass in 256 microseconds. -/
theorem torn_times_out : ¬ (torn.reading 1).Between ∧ ¬ Patient torn := by
  constructor
  · intro h
    have hle := h.2
    revert hle
    decide
  · intro h
    have hw := (h Unit (fun _ => (-1, ())) (fun _ => (-1, ())) 1000 1 () 0).1 (-1) () 2 rfl
      (by decide)
    revert hw
    rw [Waited]
    decide

end RasPiArduino.SystemTimer
