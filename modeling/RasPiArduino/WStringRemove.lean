import RasPiArduino.WStringInvariant
import RasPiArduino.WStringCompare

/-! remove() on any String, also one with NULs among its chars. -/
namespace RasPiArduino.WString
open CMemory

structure Stores (s : WString) (t rest : List UInt8) : Prop where
  buffer : s.buffer = .block (t ++ 0 :: rest)
  len : s.len = t.length
  capacity : s.capacity = t.length + rest.length
  fits : s.capacity + 1 < 2^32

def Stored (s : WString) (t : List UInt8) : Prop :=
  (s.buffer = .null ∧ s.len = 0 ∧ t = []) ∨ ∃ rest, Stores s t rest

/-- The call ends in a String without the bytes from `index` to `index + count`, and in the
same String where there are none. -/
def Removed (s : WString) (t : List UInt8) (index count : Nat) (r : Except Fault WString) : Prop :=
  ∃ y, r = .ok y ∧ Stored y (t.take index ++ t.drop (index + count)) ∧ y.len ≤ s.len ∧
    (s.len ≤ index ∨ count = 0 → y = s)

def Removes (s : WString) (t : List UInt8) (index count : Nat) : Prop :=
  Removed s t index count (s.removeCount index count) ∧
    s.remove index = s.removeCount index (minus s.len index)

/-- No NUL has another byte behind it. -/
def NulsLast (w : List UInt8) : Prop :=
  ∀ (i j : Nat) (c : UInt8), i < j → w[i]? = some 0 → w[j]? = some c → c = 0

variable {s y : WString} {t u v w rest : List UInt8} {index count n : Nat} {c : UInt8}

theorem Holds.stores (h : Holds s t rest) : Stores s t rest := ⟨h.buffer, h.len, h.capacity, h.fits⟩

theorem Stored.len_eq (h : Stored s t) : s.len = t.length := by
  cases h with
  | inl h => simp [h.2.1, h.2.2]
  | inr h =>
    obtain ⟨rest, h⟩ := h
    exact h.len

theorem Stored.chars (h : Stored s t) : s.chars = t := by
  cases h with
  | inl h => rw [WString.chars, h.1, h.2.2]
  | inr h =>
    obtain ⟨rest, h⟩ := h
    rw [WString.chars, h.buffer, h.len]
    exact List.take_left

theorem Stored.length_fits (h : Stored s t) : t.length + 1 < 2^32 := by
  cases h with
  | inl h => simp [h.2.2]
  | inr h =>
    obtain ⟨rest, h⟩ := h
    have := h.fits
    have := h.capacity
    omega

theorem nulsLast_cons : NulsLast (c :: w) ↔
    if c = 0 then w = List.replicate w.length 0 else NulsLast w := by
  split
  · next h0 =>
    subst h0
    constructor
    · intro h
      apply List.eq_replicate_of_mem
      intro x hx
      obtain ⟨j, hj⟩ := List.getElem?_of_mem hx
      exact h 0 (j+1) x (Nat.succ_pos j) rfl (by simpa using hj)
    · intro h i j x hij _ hx
      cases j with
      | zero => omega
      | succ j =>
        have hx' : x ∈ w := List.mem_of_getElem? (by simpa using hx)
        rw [h] at hx'
        exact List.eq_of_mem_replicate hx'
  · next h0 =>
    constructor
    · intro h i j x hij hi hx
      exact h (i+1) (j+1) x (by omega) (by simpa using hi) (by simpa using hx)
    · intro h i j x hij hi hx
      cases i with
      | zero => exact absurd (by simpa using hi) h0
      | succ i =>
        cases j with
        | zero => omega
        | succ j => exact h i j x (by omega) (by simpa using hi) (by simpa using hx)

theorem padded_eq_iff : padded w.length w = w ↔ NulsLast w := by
  induction w with
  | nil => exact iff_of_true rfl (fun i j c _ hi => by simp at hi)
  | cons c w ih =>
    rw [List.length_cons, padded, nulsLast_cons]
    split
    · next h0 => rw [h0, List.replicate_succ, List.cons.injEq, eq_comm (b := w)]; simp
    · rw [List.cons.injEq, ih]
      simp

theorem padded_append (v w : List UInt8) : padded v.length (v ++ w) = padded v.length v := by
  induction v with
  | nil => rfl
  | cons c v ih => simp only [List.length_cons, List.cons_append, padded, ih]

theorem moveDown_eq {p q : List UInt8} {k : Nat} (h : k + n < q.length) :
    ∃ b, strncpyWithin n (p ++ q) p.length (p.length + k) = .ok b ∧
      put b (p.length + n) 0 = .ok (p ++ padded n (q.drop k) ++ 0 :: q.drop (n+1)) := by
  refine ⟨_, strncpyWithin_below (by omega), ?_⟩
  have hq : q.drop n = q[n] :: q.drop (n+1) := List.drop_eq_getElem_cons (by omega)
  have hput := put_append (p ++ padded n (q.drop k)) (q.drop (n+1)) q[n] 0
  rwa [List.length_append, length_padded, ← hq, List.append_assoc] at hput

/-- With the sum in 32 bits the bytes behind the removed ones are moved by strncpy. -/
theorem removeCount_eq (h : Stores s t rest) (hi : index < t.length) (hc : count ≠ 0)
    (hsum : index + count < 2^32) : ∃ y rest', s.removeCount index count = .ok y ∧
      Stores y (t.take index ++ padded (t.drop (index + count)).length (t.drop (index + count)))
        rest' := by
  have hfits := h.fits
  have hcap := h.capacity
  obtain ⟨k, hk⟩ : ∃ k, k = if index + count > t.length then t.length - index else count := ⟨_, rfl⟩
  have hkle : index + k ≤ t.length := by split at hk <;> omega
  have hv : t.drop (index + count) = t.drop (index + k) := by
    rw [hk]
    split
    · rw [List.drop_eq_nil_of_le (by omega), List.drop_eq_nil_of_le (by omega)]
    · rfl
  rw [hv]
  obtain ⟨v, hvk⟩ : ∃ v, v = t.drop (index + k) := ⟨_, rfl⟩
  have hvlen : v.length = t.length - k - index := by
    rw [hvk, List.length_drop]
    omega
  have hplen : (t.take index).length = index := List.length_take_of_le hi.le
  have hqk : (t.drop index ++ 0 :: rest).drop k = v ++ 0 :: rest := by
    rw [List.drop_append_of_le_length (by rw [List.length_drop]; omega), List.drop_drop, hvk]
  obtain ⟨b, hcopy, hput⟩ := moveDown_eq (p := t.take index) (q := t.drop index ++ 0 :: rest)
    (k := k) (n := v.length) (by simp; omega)
  rw [hplen, ← List.append_assoc, List.take_append_drop] at hcopy
  rw [hplen, hqk, padded_append, hvlen, Nat.add_sub_cancel' (by omega)] at hput
  rw [← hvk, hvlen]
  rw [hvlen] at hcopy
  refine ⟨⟨.block _, s.capacity, t.length - k⟩,
    (t.drop index ++ 0 :: rest).drop (t.length - k - index + 1), ?_, rfl, ?_, ?_, hfits⟩
  · have hcount : (if (index + count) % 2^32 > t.length then minus t.length index else count) =
        k := by
      rw [Nat.mod_eq_of_lt hsum, minus_of_le hi.le (by omega), hk]
    simp only [removeCount, h.len, if_neg (Nat.not_le.mpr hi), if_neg hc, hcount, h.buffer,
      Buffer.bytes, ok_bind]
    rw [minus_of_le (show k ≤ t.length by omega) (by omega), minus_of_le (by omega) (by omega),
      Nat.mod_eq_of_lt (show index + k < 2^32 by omega), hcopy, ok_bind, hput, ok_bind]
  · simp only [List.length_append, hplen, length_padded]
    omega
  · simp only [List.length_append, hplen, length_padded, List.length_drop, List.length_cons]
    omega

theorem not_removed_of_wrap (h : Stored s t) (hi : index < t.length) (hcount : count < 2^32)
    (hsum : 2^32 ≤ index + count) : ¬ Removed s t index count (s.removeCount index count) := by
  have hlen := h.len_eq
  have hfits := h.length_fits
  intro ⟨y, hy, hstored, _⟩
  have hylen : y.len = minus t.length count := by
    rw [removeCount, hlen, if_neg (by omega), if_neg (by omega), if_neg (by omega)] at hy
    obtain ⟨_, -, hy⟩ := bind_eq_ok.mp hy
    obtain ⟨_, -, hy⟩ := bind_eq_ok.mp hy
    obtain ⟨_, -, hy⟩ := bind_eq_ok.mp hy
    rw [← Except.ok.inj hy]
  have hwant := hstored.len_eq
  rw [List.drop_eq_nil_of_le (by omega), List.append_nil, List.length_take_of_le hi.le, hylen,
    minus] at hwant
  omega

theorem remove_eq (s : WString) (index : Nat) :
    s.remove index = s.removeCount index (minus s.len index) := by
  unfold remove
  split
  · next h => rw [removeCount, if_pos h]
  · rfl

/-- A String loses the bytes it should, and a call never leaves the buffer, exactly where the
sum of the arguments does not wrap and no NUL among the bytes to move has others behind it. -/
theorem removes_iff (h : Stored s t) (index count : UInt32) :
    Removes s t index.toNat count.toNat ↔ t.length ≤ index.toNat ∨ count.toNat = 0 ∨
      index.toNat + count.toNat < 2^32 ∧ NulsLast (t.drop (index.toNat + count.toNat)) := by
  have hcount := count.toNat_lt
  rw [Removes, and_iff_left (remove_eq s _)]
  generalize index.toNat = index
  generalize count.toNat = count at hcount
  have hlen := h.len_eq
  by_cases hi : t.length ≤ index
  · apply iff_of_true _ (.inl hi)
    refine ⟨s, if_pos (by omega), ?_, le_rfl, fun _ => rfl⟩
    rwa [List.take_of_length_le hi, List.drop_eq_nil_of_le (by omega), List.append_nil]
  by_cases hc : count = 0
  · apply iff_of_true _ (.inr (.inl hc))
    refine ⟨s, ?_, ?_, le_rfl, fun _ => rfl⟩
    · rw [removeCount, if_neg (by omega), if_pos hc]
    · rwa [hc, Nat.add_zero, List.take_append_drop]
  by_cases hsum : index + count < 2^32
  · obtain ⟨rest, hs⟩ := h.resolve_left (fun h => by simp [h.2.2] at hi)
    obtain ⟨y, rest', hy, hys⟩ := removeCount_eq hs (by omega) hc hsum
    have hylen := hys.len
    rw [List.length_append, length_padded, List.length_take, List.length_drop] at hylen
    simp only [hi, hc, hsum, false_or, true_and, ← padded_eq_iff]
    constructor
    · intro ⟨z, hz, hstored, _⟩
      rw [hy] at hz
      obtain rfl : y = z := Except.ok.inj hz
      have hchars := (Stored.chars (.inr ⟨rest', hys⟩)).symm.trans hstored.chars
      exact List.append_cancel_left hchars
    · intro hpad
      rw [hpad] at hys
      refine ⟨y, hy, .inr ⟨rest', hys⟩, by omega, fun h => ?_⟩
      omega
  · apply iff_of_false (not_removed_of_wrap h (by omega) hcount (by omega))
    omega

/-- remove(1, 1) on "abc". -/
theorem removes_iff_middle : Removes ⟨.block [97, 98, 99, 0], 3, 3⟩ [97, 98, 99] 1 1 :=
  (removes_iff (.inr ⟨[], rfl, rfl, rfl, by decide⟩) 1 1).mpr (.inr (.inr ⟨by decide, by
    intro i j c hij hi hc
    have hlt : j < 1 := (List.getElem?_eq_some_iff.mp hc).1
    omega⟩))

/-- remove(1, 0xFFFFFFFF) on "abc", in a buffer with room to spare: "aaaa". -/
theorem remove_wraps : ¬ ∀ s t (index count : UInt32), Stored s t →
    Removes s t index.toNat count.toNat := by
  intro h
  obtain ⟨⟨y, hy, -, hle, -⟩, -⟩ := h ⟨.block [97, 98, 99, 0, 0, 0], 5, 3⟩ [97, 98, 99] 1 0xFFFFFFFF
    (.inr ⟨[0, 0], rfl, rfl, rfl, by decide⟩)
  have he : removeCount ⟨.block [97, 98, 99, 0, 0, 0], 5, 3⟩ 1 0xFFFFFFFF =
      .ok ⟨.block [97, 97, 97, 97, 0, 0], 5, 4⟩ := by decide
  obtain rfl : _ = y := Except.ok.inj (he.symm.trans hy)
  exact absurd hle (by decide)

end RasPiArduino.WString
