import Mathlib

/-! wiring.c: the busy wait on the low word of the system timer. -/
namespace RasPiArduino.Delay

/-- `while(cond(STCLO));`, given the values that its reads find: how many of them it goes past,
if it is left. -/
def spin (cond : UInt32 → Bool) : List UInt32 → Option Nat
  | [] => none
  | v :: vs => if cond v then (spin cond vs).map (· + 1) else some 0

def halt (start : UInt32) (reads : List UInt32) (microseconds : UInt32) : Option Nat :=
  let compare := start + microseconds
  if compare < start then spin (fun v => v - compare != 0) reads
  else spin (fun v => decide (v < compare)) reads

inductive Wait where
  | left (poll : Nat)
  | spinning
  | asleep (m : UInt32)
  deriving DecidableEq, Repr

def Wait.ofPoll : Option Nat → Wait
  | some poll => .left poll
  | none => .spinning

def delayMicroseconds (start : UInt32) (reads : List UInt32) (m : UInt32) : Wait :=
  if m < 1000 then .ofPoll (halt start reads m) else .asleep m

structure Passing where
  elapsed : List Nat
  forward : elapsed.Pairwise (· ≤ ·)
  short : ∀ a ∈ elapsed, a < 2^31

def Passing.reads (p : Passing) (start : UInt32) : List UInt32 :=
  p.elapsed.map fun a => start + UInt32.ofNat a

/-- The wait ends at the first poll that is not too early. -/
def Punctual (start : UInt32) (p : Passing) (m : UInt32) : Prop :=
  delayMicroseconds start (p.reads start) m =
    .ofPoll (p.elapsed.findIdx? fun a => decide (m.toNat ≤ a))

/-- This poll, not too early, is seen as such: it comes exactly in time if the end is beyond the
wrap, and before the wrap if the end is. -/
def Caught (start m : UInt32) (a : Nat) : Prop :=
  if 2^32 ≤ start.toNat + m.toNat then a = m.toNat else start.toNat + a < 2^32

instance (start m : UInt32) (a : Nat) : Decidable (Caught start m a) :=
  inferInstanceAs (Decidable
    (if 2^32 ≤ start.toNat + m.toNat then a = m.toNat else start.toNat + a < 2^32))

def goesOn (start m v : UInt32) : Bool :=
  if start + m < start then v - (start + m) != 0 else decide (v < start + m)

variable {start m : UInt32} {p : Passing} {a : Nat} {as : List Nat}

theorem halt_eq_spin (start m : UInt32) (reads : List UInt32) :
    halt start reads m = spin (goesOn start m) reads := by
  by_cases h : start + m < start
  · have hgo : goesOn start m = fun v => v - (start + m) != 0 := funext fun v => if_pos h
    simp only [halt, if_pos h, hgo]
  · have hgo : goesOn start m = fun v => decide (v < start + m) := funext fun v => if_neg h
    simp only [halt, if_neg h, hgo]

theorem toNat_read (start : UInt32) (a : Nat) :
    (start + UInt32.ofNat a).toNat = (start.toNat + a) % 2^32 := by
  rw [UInt32.toNat_add, UInt32.toNat_ofNat', Nat.add_mod_mod]

theorem wraps_iff (hm : m < 1000) : start + m < start ↔ 2^32 ≤ start.toNat + m.toNat := by
  have hs := start.toNat_lt
  have hm' : m.toNat < 1000 := UInt32.lt_iff_toNat_lt.mp hm
  rw [UInt32.lt_iff_toNat_lt, UInt32.toNat_add]
  omega

theorem goesOn_iff (hm : m < 1000) (ha : a < 2^31) :
    goesOn start m (start + UInt32.ofNat a) = true ↔ ¬ (m.toNat ≤ a ∧ Caught start m a) := by
  have hs := start.toNat_lt
  have hm' : m.toNat < 1000 := UInt32.lt_iff_toNat_lt.mp hm
  rw [goesOn, Caught]
  by_cases hwrap : 2^32 ≤ start.toNat + m.toNat
  · rw [if_pos ((wraps_iff hm).mpr hwrap), if_pos hwrap]
    have hzero : start + UInt32.ofNat a - (start + m) = 0 ↔ a = m.toNat := by
      rw [← UInt32.toNat_inj, UInt32.toNat_sub, toNat_read, UInt32.toNat_add, UInt32.toNat_zero]
      omega
    rw [bne_iff_ne, ne_eq, hzero]
    omega
  · rw [if_neg (fun h => hwrap ((wraps_iff hm).mp h)), if_neg hwrap, decide_eq_true_eq,
      UInt32.lt_iff_toNat_lt, toNat_read, UInt32.toNat_add]
    omega

theorem Wait.ofPoll_inj {x y : Option Nat} : Wait.ofPoll x = Wait.ofPoll y ↔ x = y := by
  cases x with
  | none => cases y <;> simp [ofPoll]
  | some n => cases y <;> simp [ofPoll]

theorem spin_iff (hm : m < 1000) (hshort : ∀ a ∈ as, a < 2^31) :
    spin (goesOn start m) (as.map fun a => start + UInt32.ofNat a) =
      as.findIdx? (fun a => decide (m.toNat ≤ a)) ↔
    ∀ a, as.find? (fun a => decide (m.toNat ≤ a)) = some a → Caught start m a := by
  induction as with
  | nil => simp [spin]
  | cons a as ih =>
    have hgo : goesOn start m (start + UInt32.ofNat a) = true ↔ _ :=
      goesOn_iff hm (hshort a List.mem_cons_self)
    have ih := ih fun b hb => hshort b (List.mem_cons_of_mem a hb)
    rw [List.map_cons, spin, List.findIdx?_cons, List.find?_cons]
    by_cases hle : m.toNat ≤ a
    · rw [decide_eq_true hle]
      by_cases hcaught : Caught start m a
      · rw [if_neg (fun h => hgo.mp h ⟨hle, hcaught⟩)]
        simp [hcaught]
      · rw [if_pos (hgo.mpr fun h => hcaught h.2)]
        simp [hcaught]
    · rw [if_pos (hgo.mpr fun h => hle h.1), decide_eq_false hle, ← ih]
      exact (Option.map_injective fun x y h => Nat.succ.inj h).eq_iff

theorem spin_eq_none {cond : UInt32 → Bool} {vs : List UInt32} :
    spin cond vs = none ↔ ∀ v ∈ vs, cond v = true := by
  induction vs with
  | nil => simp [spin]
  | cons v vs ih =>
    rw [spin, List.forall_mem_cons]
    by_cases hv : cond v = true
    · rw [if_pos hv, Option.map_eq_none_iff, ih]
      exact (and_iff_right hv).symm
    · rw [if_neg hv]
      simp [hv]

/-- A poll that is not caught is followed by none that is. -/
theorem Caught.of_le {b : Nat} (hma : m.toNat ≤ a) (hab : a ≤ b)
    (h : Caught start m b) : Caught start m a := by
  rw [Caught] at h ⊢
  split
  · next hwrap =>
    rw [if_pos hwrap] at h
    omega
  · next hwrap =>
    rw [if_neg hwrap] at h
    omega

theorem missed_spins (hm : m < 1000)
    (hfirst : p.elapsed.find? (fun a => decide (m.toNat ≤ a)) = some a)
    (hmissed : ¬ Caught start m a) : delayMicroseconds start (p.reads start) m = .spinning := by
  have hnone : spin (goesOn start m) (p.reads start) = none := by
    rw [spin_eq_none, Passing.reads, List.forall_mem_map]
    intro b hb
    rw [goesOn_iff hm (p.short b hb)]
    rintro ⟨hmb, hcaught⟩
    obtain ⟨hma, before, after, heq, hearly⟩ := List.find?_eq_some_iff_append.mp hfirst
    rw [decide_eq_true_eq] at hma
    have hforward := p.forward
    rw [heq, List.mem_append, List.mem_cons] at hb
    rw [heq, List.pairwise_append, List.pairwise_cons] at hforward
    have hab : a ≤ b := by
      rcases hb with hb | rfl | hb
      · have := hearly b hb
        simp only [Bool.not_eq_true', decide_eq_false_iff_not] at this
        exact absurd hmb this
      · exact Nat.le_refl b
      · exact hforward.2.1.1 b hb
    exact hmissed (hcaught.of_le hma hab)
  rw [delayMicroseconds, if_pos hm, halt_eq_spin, hnone, Wait.ofPoll]

/-- The busy wait ends at the first poll at or after the promised time exactly when that poll is
caught. -/
theorem punctual_iff (start : UInt32) (p : Passing) (m : UInt32) (hm : m < 1000) :
    Punctual start p m ↔
      ∀ a, p.elapsed.find? (fun a => decide (m.toNat ≤ a)) = some a → Caught start m a := by
  rw [Punctual, delayMicroseconds, if_pos hm, Wait.ofPoll_inj, halt_eq_spin, Passing.reads]
  exact spin_iff hm p.short

theorem punctual_iff_skipping : Punctual 5 ⟨[0, 3, 9, 12], by decide, by decide⟩ 7 :=
  (punctual_iff 5 ⟨[0, 3, 9, 12], by decide, by decide⟩ 7 (by decide)).mpr
    fun a ha => by
      obtain rfl : 9 = a := by simpa using ha
      decide

/-- One microsecond from the last value before the wrap, and a poll two later. -/
theorem wrapped_wait_spins : ¬ ∀ start p m, m < 1000 → Punctual start p m := by
  intro h
  have hspin := h 0xFFFFFFFF ⟨[0, 2, 5], by decide, by decide⟩ 1 (by decide)
  revert hspin
  rw [Punctual]
  decide

end RasPiArduino.Delay
