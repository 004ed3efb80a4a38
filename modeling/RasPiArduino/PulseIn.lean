import Mathlib
import RasPiArduino.Delay

/-! wiring_pulse.c: the three loops of pulseIn() over the levels of the pin and the values of
micros(). -/
namespace RasPiArduino.PulseIn
open Delay (Passing)

def micros : List UInt32 → Option (UInt32 × List UInt32)
  | [] => none
  | t :: readings => some (t, readings)

/-- `while(pass(digitalRead(pin)) && (micros() - start) < timeout);`, given the levels and the
values of micros() that it finds: those that are left for the code behind it. -/
def wait (pass : Bool → Bool) (start timeout : UInt32) :
    List Bool → List UInt32 → Option (List Bool × List UInt32)
  | [], _ => none
  | x :: samples, readings =>
    if pass x then match micros readings with
      | none => none
      | some (now, readings) =>
        if now - start < timeout then wait pass start timeout samples readings
        else some (samples, readings)
    else some (samples, readings)

def high (state : UInt8) (x : Bool) : Bool := x.toNat == state.toNat

def low (state : UInt8) (x : Bool) : Bool := x.toNat != state.toNat

def pulseIn (state : UInt8) (timeout : UInt32) (samples : List Bool) (readings : List UInt32) :
    Option (UInt32 × List Bool × List UInt32) := do
  let (start, readings) ← micros readings
  let (samples, readings) ← wait (high state) start timeout samples readings
  let (samples, readings) ← wait (low state) start timeout samples readings
  let (start, readings) ← micros readings
  let (samples, readings) ← wait (high state) start timeout samples readings
  let (now, readings) ← micros readings
  some (now - start, samples, readings)

/-- How a loop is left: a level that it waits for is seen, or its time is over. -/
inductive Exit where
  | seen
  | expired
  deriving DecidableEq, Repr

/-- A loop that counts from `base` goes past the first of these levels and times, is left at the
next, and leaves the others. -/
inductive Ends (pass : Bool → Bool) (base timeout : ℕ) :
    Exit → List Bool → List ℕ → List Bool → List ℕ → Prop
  | seen {x : Bool} {rest : List Bool} {times : List ℕ} : pass x = false →
      Ends pass base timeout .seen (x :: rest) times rest times
  | expired {x : Bool} {rest : List Bool} {t : ℕ} {later : List ℕ} : pass x = true →
      timeout ≤ t - base → Ends pass base timeout .expired (x :: rest) (t :: later) rest later
  | past {x : Bool} {samples rest : List Bool} {t : ℕ} {times later : List ℕ} {e : Exit} :
      pass x = true → t - base < timeout → Ends pass base timeout e samples times rest later →
      Ends pass base timeout e (x :: samples) (t :: times) rest later

variable {pass : Bool → Bool} {base timeout : ℕ} {e e' : Exit} {samples rest rest' : List Bool}
  {times later later' : List ℕ}

theorem Ends.unique (h : Ends pass base timeout e samples times rest later)
    (h' : Ends pass base timeout e' samples times rest' later') :
    e = e' ∧ rest = rest' ∧ later = later' := by
  induction h with
  | seen hx => cases h' with
    | seen hx' => exact ⟨rfl, rfl, rfl⟩
    | expired hx' ht => simp [hx] at hx'
    | past hx' ht h' => simp [hx] at hx'
  | expired hx ht => cases h' with
    | seen hx' => simp [hx] at hx'
    | expired hx' ht' => exact ⟨rfl, rfl, rfl⟩
    | past hx' ht' h' => omega
  | past hx ht h ih => cases h' with
    | seen hx' => simp [hx] at hx'
    | expired hx' ht' => omega
    | past hx' ht' h' => exact ih h'

theorem Ends.suffix (h : Ends pass base timeout e samples times rest later) : later <:+ times := by
  induction h with
  | seen => exact List.suffix_refl _
  | expired => exact List.suffix_cons _ _
  | past hx ht h ih => exact ih.trans (List.suffix_cons _ _)

def reading (start : UInt32) (t : ℕ) : UInt32 := start + UInt32.ofNat t

theorem toNat_since {start : UInt32} {t : ℕ} (hle : base ≤ t) (ht : t < 2^31) :
    (reading start t - reading start base).toNat = t - base := by
  have hs := start.toNat_lt
  rw [UInt32.toNat_sub, reading, reading, Delay.toNat_read, Delay.toNat_read]
  omega

theorem wait_ends {origin start limit : UInt32} {readings : List UInt32}
    (hstart : start = reading origin base) (htimes : ∀ t ∈ times, base ≤ t ∧ t < 2^31)
    (h : wait pass start limit samples (times.map (reading origin)) = some (rest, readings)) :
    ∃ e later, readings = later.map (reading origin) ∧
      Ends pass base limit.toNat e samples times rest later := by
  subst hstart
  induction samples generalizing times with
  | nil => simp [wait] at h
  | cons x samples ih =>
    rw [wait] at h
    cases hx : pass x with
    | false =>
      rw [hx, if_neg Bool.false_ne_true] at h
      obtain ⟨rfl, rfl⟩ := Prod.mk.inj (Option.some.inj h)
      exact ⟨.seen, times, rfl, .seen hx⟩
    | true => cases times with
      | nil => simp [hx, micros] at h
      | cons t times =>
        obtain ⟨ht, htimes⟩ := List.forall_mem_cons.mp htimes
        rw [hx, if_pos rfl, List.map_cons, micros] at h
        simp only [UInt32.lt_iff_toNat_lt, toNat_since ht.1 ht.2] at h
        by_cases hlt : t - base < limit.toNat
        · rw [if_pos hlt] at h
          obtain ⟨e, later, hreadings, hends⟩ := ih htimes h
          exact ⟨e, later, hreadings, .past hx hlt hends⟩
        · rw [if_neg hlt] at h
          obtain ⟨rfl, rfl⟩ := Prod.mk.inj (Option.some.inj h)
          exact ⟨.expired, times, rfl, .expired hx (Nat.not_lt.mp hlt)⟩

/-- A pulse that begins in time, after the pin was away from the state: the second loop sees its
beginning and leaves these levels and times. -/
def Begins (state : UInt8) (timeout : ℕ) (samples : List Bool) (elapsed : List ℕ)
    (third : List Bool) (times : List ℕ) : Prop :=
  ∃ rest later, Ends (high state) 0 timeout .seen samples elapsed rest later ∧
    Ends (low state) 0 timeout .seen rest later third times

/-- The time is over before such a pulse has begun, and these levels and times are left. -/
def TimesOut (state : UInt8) (timeout : ℕ) (samples : List Bool) (elapsed : List ℕ)
    (third : List Bool) (times : List ℕ) : Prop :=
  ∃ e e' rest later, Ends (high state) 0 timeout e samples elapsed rest later ∧
    Ends (low state) 0 timeout e' rest later third times ∧ ¬ (e = .seen ∧ e' = .seen)

/-- The advance between the last two readings. -/
def lastAdvance (times : List ℕ) : ℕ :=
  times.getLast?.getD 0 - times.dropLast.getLast?.getD 0

/-- What is wanted of a call with these levels and times since its first reading, which are as
many as it takes: the width of a pulse that begins and ends in time, and without one that
begins in time no more than the last two readings are apart. -/
structure Reports (state : UInt8) (timeout : ℕ) (samples : List Bool) (elapsed : List ℕ)
    (r : UInt32) : Prop where
  width : ∀ third now later fin, Begins state timeout samples elapsed third (now :: later) →
    Ends (high state) now timeout .seen third later [] [fin] → r.toNat = fin - now
  nothing : (¬ ∃ third times, Begins state timeout samples elapsed third times) →
    r.toNat ≤ lastAdvance (0 :: elapsed)

/-- If the time is over before a pulse has begun, the clock stands still as long as the third
loop reads it; a loop that finds the pin away from the state does not read it. -/
def Still (state : UInt8) (timeout : ℕ) (samples : List Bool) (elapsed : List ℕ) : Prop :=
  ∀ third now later, TimesOut state timeout samples elapsed third (now :: later) →
    ∀ t ∈ later.dropLast, t = now

section
variable {state : UInt8} {limit start r : UInt32} {p : Passing} {elapsed third : List Bool}

theorem micros_some {readings readings' : List UInt32} {t : UInt32}
    (h : micros readings = some (t, readings')) : readings = t :: readings' := by
  cases readings with
  | nil => simp [micros] at h
  | cons t' readings =>
    obtain ⟨rfl, rfl⟩ := Prod.mk.inj (Option.some.inj h)
    rfl

theorem map_reading_cons {times : List ℕ} {t : UInt32} {readings : List UInt32}
    (h : times.map (reading start) = t :: readings) :
    ∃ now later, times = now :: later ∧ t = reading start now ∧
      readings = later.map (reading start) := by
  cases times with
  | nil => cases h
  | cons now later =>
    obtain ⟨rfl, rfl⟩ := List.cons.inj h
    exact ⟨now, later, rfl, rfl, rfl⟩

theorem pulseIn_ends
    (h : pulseIn state limit samples (start :: p.reads start) = some (r, [], [])) :
    ∃ e e' e'' rest later third now times fin,
      Ends (high state) 0 limit.toNat e samples p.elapsed rest later ∧
      Ends (low state) 0 limit.toNat e' rest later third (now :: times) ∧
      Ends (high state) now limit.toNat e'' third times [] [fin] ∧
      r = reading start fin - reading start now := by
  have hstart : start = reading start 0 := (UInt32.add_zero start).symm
  simp only [pulseIn, Option.bind_eq_bind, Option.bind_eq_some_iff, Prod.exists] at h
  obtain ⟨t₀, readings, h₀, rest, readings₁, h₁, third, readings₂, h₂, t₃, readings₃, h₃, samples₄,
    readings₄, h₄, t₅, readings₅, h₅, hr⟩ := h
  obtain ⟨rfl, rfl⟩ := List.cons.inj (micros_some h₀)
  simp only [Option.some.injEq, Prod.mk.injEq] at hr
  obtain ⟨rfl, rfl, rfl⟩ := hr
  have hfits : ∀ t ∈ p.elapsed, 0 ≤ t ∧ t < 2^31 := fun t ht => ⟨t.zero_le, p.short t ht⟩
  obtain ⟨e, later, rfl, hends⟩ := wait_ends hstart hfits h₁
  have hsuffix := hends.suffix
  obtain ⟨e', times, rfl, hends'⟩ := wait_ends hstart (fun t ht => hfits t (hsuffix.mem ht)) h₂
  obtain ⟨now, times, rfl, rfl, rfl⟩ := map_reading_cons (micros_some h₃)
  have hsuffix := hends'.suffix.trans hsuffix
  have hforward := List.pairwise_cons.mp (p.forward.sublist hsuffix.sublist)
  obtain ⟨e'', last, hlast, hends''⟩ := wait_ends rfl (fun t ht =>
    ⟨hforward.1 t ht, p.short t (hsuffix.mem (List.mem_cons_of_mem now ht))⟩) h₄
  obtain ⟨fin, last, rfl, rfl, hnil⟩ := map_reading_cons (hlast.symm.trans (micros_some h₅))
  obtain rfl := List.map_eq_nil_iff.mp hnil.symm
  exact ⟨e, e', e'', rest, later, third, now, times, fin, hends, hends', hends'', rfl⟩

theorem Begins.unique {third third' : List Bool} {times times' rest : List ℕ}
    {e e' : Exit} {mid : List Bool} (hb : Begins state timeout samples times third rest)
    (h : Ends (high state) 0 timeout e samples times mid later)
    (h' : Ends (low state) 0 timeout e' mid later third' times') :
    (e = .seen ∧ e' = .seen) ∧ third' = third ∧ times' = rest := by
  obtain ⟨mid', later', hh, hl⟩ := hb
  obtain ⟨rfl, rfl, rfl⟩ := h.unique hh
  obtain ⟨rfl, rfl, rfl⟩ := h'.unique hl
  exact ⟨⟨rfl, rfl⟩, rfl, rfl⟩

theorem TimesOut.unique {third third' : List Bool} {times times' rest : List ℕ}
    {e e' : Exit} {mid : List Bool} (ht : TimesOut state timeout samples times third rest)
    (h : Ends (high state) 0 timeout e samples times mid later)
    (h' : Ends (low state) 0 timeout e' mid later third' times') :
    third' = third ∧ times' = rest := by
  obtain ⟨e₁, e₁', mid', later', hh, hl, -⟩ := ht
  obtain ⟨rfl, rfl, rfl⟩ := h.unique hh
  obtain ⟨rfl, rfl, rfl⟩ := h'.unique hl
  exact ⟨rfl, rfl⟩

theorem lastAdvance_append (before : List ℕ) (t t' : ℕ) :
    lastAdvance (before ++ [t] ++ [t']) = t' - t := by
  simp [lastAdvance]

/-- From `now` to `fin` it is no further than from the last reading before `fin` exactly when
all those before `fin` are `now`. -/
theorem sub_le_lastAdvance_iff (before : List ℕ) {during : List ℕ} {now fin : ℕ}
    (hsorted : (now :: (during ++ [fin])).Pairwise (· ≤ ·)) :
    fin - now ≤ lastAdvance (before ++ now :: (during ++ [fin])) ↔ ∀ t ∈ during, t = now := by
  obtain rfl | ⟨during, prev, rfl⟩ := List.eq_nil_or_concat' during
  · have hlast := lastAdvance_append before now fin
    simp only [List.append_assoc, List.cons_append, List.nil_append] at hlast
    simp [hlast]
  · have hlast := lastAdvance_append (before ++ now :: during) prev fin
    have hlist : before ++ now :: (during ++ [prev] ++ [fin]) =
        before ++ now :: during ++ [prev] ++ [fin] := by simp
    rw [hlist, hlast]
    rw [List.pairwise_cons, List.pairwise_append, List.pairwise_append] at hsorted
    obtain ⟨hnow, ⟨-, -, hprev⟩, -, hfin⟩ := hsorted
    have hle : now ≤ prev := hnow prev (by simp)
    have hle' : prev ≤ fin := hfin prev (by simp) fin (by simp)
    constructor
    · intro h t ht
      have ht₁ : now ≤ t := hnow t (List.mem_append_left _ ht)
      have ht₂ : t ≤ prev := by
        obtain ht | rfl := by simpa using ht
        · exact hprev t ht prev (by simp)
        · exact Nat.le_refl t
      omega
    · intro h
      rw [h prev (by simp)]

theorem pulseIn_iff (state : UInt8) (limit start : UInt32) (samples : List Bool) (p : Passing)
    (r : UInt32)
    (h : pulseIn state limit samples (start :: p.reads start) = some (r, [], [])) :
    Reports state limit.toNat samples p.elapsed r ↔
      (∃ third times, Begins state limit.toNat samples p.elapsed third times) ∨
        Still state limit.toNat samples p.elapsed := by
  obtain ⟨e, e', e'', rest, later, third, now, times, fin, h₁, h₂, h₃, rfl⟩ := pulseIn_ends h
  have hsuffix := h₂.suffix.trans h₁.suffix
  obtain ⟨during, rfl⟩ := h₃.suffix
  have hsorted := p.forward.sublist hsuffix.sublist
  have hr : (reading start fin - reading start now).toNat = fin - now :=
    toNat_since ((List.pairwise_cons.mp hsorted).1 fin (by simp))
      (p.short fin (hsuffix.mem (by simp)))
  by_cases hseen : e = .seen ∧ e' = .seen
  · obtain ⟨rfl, rfl⟩ := hseen
    have hbegins : Begins state limit.toNat samples p.elapsed third (now :: (during ++ [fin])) :=
      ⟨rest, later, h₁, h₂⟩
    refine iff_of_true ⟨?_, fun hno => absurd ⟨_, _, hbegins⟩ hno⟩ (.inl ⟨_, _, hbegins⟩)
    intro third' now' later' fin' hb hends
    obtain ⟨-, rfl, htimes⟩ := hb.unique h₁ h₂
    obtain ⟨rfl, rfl⟩ := List.cons.inj htimes
    obtain ⟨-, -, hfin⟩ := hends.unique h₃
    obtain rfl := (List.cons.inj hfin).1
    exact hr
  · have hno : ¬ ∃ third times, Begins state limit.toNat samples p.elapsed third times := by
      rintro ⟨third', times', hb⟩
      exact hseen (hb.unique h₁ h₂).1
    have htimesOut : TimesOut state limit.toNat samples p.elapsed third
        (now :: (during ++ [fin])) := ⟨e, e', rest, later, h₁, h₂, hseen⟩
    obtain ⟨before, hbefore⟩ := hsuffix
    have hlast := sub_le_lastAdvance_iff (0 :: before) hsorted
    rw [List.cons_append, hbefore] at hlast
    constructor
    · intro hreports
      refine .inr fun third' now' later' ht => ?_
      obtain ⟨-, htimes⟩ := ht.unique h₁ h₂
      obtain ⟨rfl, rfl⟩ := List.cons.inj htimes
      rw [List.dropLast_concat]
      exact hlast.mp (hr ▸ hreports.nothing hno)
    · intro hstill
      have hstill := (hstill.resolve_left hno) third now _ htimesOut
      rw [List.dropLast_concat] at hstill
      refine ⟨fun third' now' later' fin' hb _ => absurd ⟨_, _, hb⟩ hno, fun _ => ?_⟩
      rw [hr]
      exact hlast.mpr hstill

end

theorem pulseIn_iff_pulse :
    Reports 1 (10 : UInt32).toNat [false, true, true, false] [3, 5, 9] 6 :=
  (pulseIn_iff 1 10 7 [false, true, true, false] ⟨[3, 5, 9], by decide, by decide⟩ 6
    (by decide)).mpr (.inl ⟨_, _, _, _, .seen rfl, .seen rfl⟩)

/-- A pin that is at the state all the time, and a clock that advances by one from reading to
reading: 3 is returned. -/
theorem held_level_measured : ¬ ∀ state limit start samples (p : Passing) r,
    pulseIn state limit samples (start :: p.reads start) = some (r, [], []) →
    Reports state limit.toNat samples p.elapsed r := by
  intro h
  have hreports := h 1 2 0 [true, true, true, true, true] ⟨[1, 2, 3, 4, 5, 6], by decide, by decide⟩
    3 (by decide)
  have hfirst : Ends (high 1) 0 2 .expired [true, true, true, true, true] [1, 2, 3, 4, 5, 6]
      [true, true, true] [3, 4, 5, 6] := .past rfl (by decide) (.expired rfl (by decide))
  have hsecond : Ends (low 1) 0 2 .seen [true, true, true] [3, 4, 5, 6] [true, true] [3, 4, 5, 6] :=
    .seen rfl
  have hle := hreports.nothing fun hb => by
    obtain ⟨third, times, hb⟩ := hb
    cases (hb.unique hfirst hsecond).1.1
  exact absurd hle (by decide)

end RasPiArduino.PulseIn
