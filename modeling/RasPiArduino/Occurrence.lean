import Mathlib.Order.Bounds.Basic
import RasPiArduino.Rewriting

/-! The first and the last place in a list at which a word occurs. -/
namespace RasPiArduino.Occurrence
open Rewriting
variable {α : Type*}

/-- `u` begins at the place `i`, which is one of the list. -/
def Occurs (u t : List α) (i : Nat) : Prop := i < t.length ∧ u <+: t.drop i

/-- The least number with the property; `none` if no number has it. -/
def Least (P : Nat → Prop) : Option Nat → Prop
  | some i => IsLeast {k | P k} i
  | none => ∀ k, ¬ P k

def Greatest (P : Nat → Prop) : Option Nat → Prop
  | some i => IsGreatest {k | P k} i
  | none => ∀ k, ¬ P k

variable {P Q : Nat → Prop} {r : Option Nat} {u t a v : List α} {c : α} {i k n p : Nat}

theorem least_congr (h : ∀ k, P k ↔ Q k) : Least P r ↔ Least Q r := by
  obtain rfl : P = Q := funext fun k => propext (h k)
  exact Iff.rfl

theorem greatest_congr (h : ∀ k, P k ↔ Q k) : Greatest P r ↔ Greatest Q r := by
  obtain rfl : P = Q := funext fun k => propext (h k)
  exact Iff.rfl

theorem Least.lt (h : Least P r) (hP : ∀ k, P k → k < n) : ∀ k ∈ r, k < n := by
  intro k hk
  cases r with
  | none => cases hk
  | some i =>
    obtain rfl := Option.some.inj hk
    exact hP i h.1

theorem Greatest.lt (h : Greatest P r) (hP : ∀ k, P k → k < n) : ∀ k ∈ r, k < n := by
  intro k hk
  cases r with
  | none => cases hk
  | some i =>
    obtain rfl := Option.some.inj hk
    exact hP i h.1

theorem Least.unique {r' : Option Nat} (h : Least P r) (h' : Least P r') : r = r' := by
  cases r with
  | none =>
    cases r' with
    | none => rfl
    | some i => exact absurd h'.1 (h i)
  | some k =>
    cases r' with
    | none => exact absurd h.1 (h' k)
    | some i => exact congrArg some (IsLeast.unique h h')

theorem Least.add (h : Least (fun k => P (k + n)) r) :
    Least (fun k => n ≤ k ∧ P k) (r.map (· + n)) := by
  cases r with
  | none =>
    intro k hk
    apply h (k - n)
    rw [Nat.sub_add_cancel hk.1]
    exact hk.2
  | some i =>
    constructor
    · exact ⟨Nat.le_add_left n i, h.1⟩
    · intro k hk
      have hle : i ≤ k - n := h.2 (show P (k - n + n) by
        rw [Nat.sub_add_cancel hk.1]
        exact hk.2)
      show i + n ≤ k
      have hn := hk.1
      omega

theorem least_find (p : Nat → Bool) (n : Nat) :
    Least (fun k => k < n ∧ p k = true) ((List.range n).find? p) := by
  cases h : (List.range n).find? p with
  | none =>
    intro k hk
    have hnot := List.find?_range_eq_none.mp h k hk.1
    simp [hk.2] at hnot
  | some i =>
    obtain ⟨hp, hi, hbefore⟩ := List.find?_range_eq_some.mp h
    constructor
    · exact ⟨List.mem_range.mp hi, hp⟩
    · intro k hk
      by_contra hlt
      have hnot := hbefore k (by omega)
      simp [hk.2] at hnot

theorem greatest_find (p : Nat → Bool) (n : Nat) :
    Greatest (fun k => k < n ∧ p k = true) ((List.range n).reverse.find? p) := by
  induction n with
  | zero => exact fun k hk => Nat.not_lt_zero k hk.1
  | succ n ih =>
    rw [List.range_succ, List.reverse_append, List.reverse_singleton, List.singleton_append,
      List.find?_cons]
    cases hp : p n with
    | true => exact ⟨⟨n.lt_succ_self, hp⟩, fun k hk => Nat.le_of_lt_succ hk.1⟩
    | false =>
      refine (greatest_congr fun k => ?_).mp ih
      constructor
      · exact fun hk => ⟨by omega, hk.2⟩
      · intro hk
        have hne : k ≠ n := by
          intro he
          simp [he, hp] at hk
        exact ⟨by omega, hk.2⟩

theorem occurs_singleton : Occurs [c] t i ↔ t[i]? = some c := by
  rw [Occurs, ← List.head?_drop]
  constructor
  · intro h
    obtain ⟨w, hw⟩ := h.2
    rw [← hw]
    rfl
  · intro h
    refine ⟨?_, ?_⟩
    · by_contra hge
      rw [List.drop_eq_nil_of_le (by omega)] at h
      cases h
    · cases hd : t.drop i with
      | nil => simp [hd] at h
      | cons x w =>
        rw [hd] at h
        obtain rfl := Option.some.inj h
        exact ⟨w, rfl⟩

theorem occurs_drop (h : n ≤ t.length) : Occurs u (t.drop n) k ↔ Occurs u t (k + n) := by
  rw [Occurs, Occurs, List.length_drop, List.drop_drop, Nat.add_comm n k]
  exact and_congr_left fun _ => by omega

theorem occurs_take : Occurs [c] (t.take n) k ↔ k < n ∧ Occurs [c] t k := by
  rw [occurs_singleton, occurs_singleton, List.getElem?_take]
  split
  · next h => exact (and_iff_right h).symm
  · next h => simp [h]

theorem Occurs.length_le (h : Occurs u t i) : u.length ≤ t.length - i := by
  have hle := h.2.length_le
  rwa [List.length_drop] at hle

theorem greatest_of_lastAt (h : LastAt u v a p) :
    Greatest (fun k => k < a.length ∧ Occurs u (a ++ v) k) (some p) := by
  have hmatch := h.2.1
  rw [← List.drop_append_of_le_length h.1.le] at hmatch
  constructor
  · exact ⟨h.1, by rw [List.length_append]; exact Nat.lt_add_right _ h.1, hmatch⟩
  · intro k hk
    obtain ⟨hlt, -, hocc⟩ := hk
    by_contra hgt
    rw [List.drop_append_of_le_length hlt.le] at hocc
    have hnot := quiet_iff_drop.mp h.2.2 (k - (p + 1)) (by rw [List.length_drop]; omega)
    rw [List.drop_drop, Nat.add_sub_cancel' (by omega)] at hnot
    exact hnot hocc

theorem greatest_of_quiet (h : Quiet u v a) :
    Greatest (fun k => k < a.length ∧ Occurs u (a ++ v) k) none := by
  intro k hk
  obtain ⟨hlt, -, hocc⟩ := hk
  rw [List.drop_append_of_le_length hlt.le] at hocc
  exact quiet_iff_drop.mp h k hlt hocc

end RasPiArduino.Occurrence
