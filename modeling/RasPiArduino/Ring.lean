import Mathlib.Data.List.Rotate

/-! Lists read as rings: the arc of `n` elements from a position on, and what a block
stored behind an arc makes of it. -/
namespace RasPiArduino.Ring
variable {α : Type*}

def arc (xs : List α) (p n : Nat) : List α := (xs.rotate p).take n

def overwrite (xs : List α) (p : Nat) (ys : List α) : List α :=
  xs.take p ++ ys ++ xs.drop (p + ys.length)

@[simp] theorem length_arc {xs : List α} {p n : Nat} (hn : n ≤ xs.length) :
    (arc xs p n).length = n := by
  simp [arc, hn]

@[simp] theorem arc_zero (xs : List α) (p : Nat) : arc xs p 0 = [] := by simp [arc]

theorem arc_mod (xs : List α) (p n : Nat) : arc xs (p % xs.length) n = arc xs p n := by
  rw [arc, List.rotate_mod, arc]

theorem arc_add {xs : List α} {p m n : Nat} (h : m + n ≤ xs.length) :
    arc xs p (m + n) = arc xs p m ++ arc xs (p + m) n := by
  have hm : m ≤ (xs.rotate p).length := by simp; omega
  rw [arc, arc, arc, ← List.rotate_rotate, List.rotate_eq_drop_append_take hm, List.take_add,
    List.take_append_of_le_length (by simp; omega)]

theorem take_arc {xs : List α} {p m n : Nat} (h : m ≤ n) :
    (arc xs p n).take m = arc xs p m := by
  simp [arc, List.take_take, h]

theorem drop_arc {xs : List α} {p m n : Nat} (hm : m ≤ n) (hn : n ≤ xs.length) :
    (arc xs p n).drop m = arc xs (p + m) (n - m) := by
  obtain ⟨d, rfl⟩ := Nat.exists_eq_add_of_le hm
  rw [arc_add hn, List.drop_left' (length_arc (by omega)), Nat.add_sub_cancel_left]

theorem arc_block {xs : List α} {p n : Nat} (h : p + n ≤ xs.length) :
    arc xs p n = (xs.drop p).take n := by
  rw [arc, List.rotate_eq_drop_append_take (by omega),
    List.take_append_of_le_length (by simp; omega)]

theorem length_overwrite {xs ys : List α} {p : Nat} (h : p + ys.length ≤ xs.length) :
    (overwrite xs p ys).length = xs.length := by
  simp [overwrite]
  omega

theorem getElem?_overwrite_of_le {xs ys : List α} {p i : Nat} (h : p ≤ xs.length) :
    (overwrite xs p ys)[i]? = if p ≤ i ∧ i < p + ys.length then ys[i-p]? else xs[i]? := by
  have hp : (xs.take p).length = p := by simp; omega
  unfold overwrite
  by_cases h₁ : i < p
  · rw [List.append_assoc, List.getElem?_append_left (by omega), List.getElem?_take_of_lt h₁,
      if_neg (by omega)]
  · by_cases h₂ : i < p + ys.length
    · rw [List.append_assoc, List.getElem?_append_right (by omega), hp,
        List.getElem?_append_left (by omega), if_pos (by omega)]
    · rw [List.getElem?_append_right (by simp; omega), if_neg (by omega), List.getElem?_drop]
      congr 1
      simp
      omega

theorem getElem?_overwrite {xs ys : List α} {p i : Nat} (h : p + ys.length ≤ xs.length) :
    (overwrite xs p ys)[i]? = if p ≤ i ∧ i < p + ys.length then ys[i-p]? else xs[i]? :=
  getElem?_overwrite_of_le (by omega)

theorem length_overwrite_of_le {xs ys : List α} {p : Nat} (h : p ≤ xs.length) :
    (overwrite xs p ys).length = max xs.length (p + ys.length) := by
  simp [overwrite]
  omega

theorem overwrite_overwrite {xs ys zs : List α} {p : Nat} (h : p ≤ xs.length) :
    overwrite (overwrite xs p ys) (p + ys.length) zs = overwrite xs p (ys ++ zs) := by
  have hlen : (xs.take p ++ ys).length = p + ys.length := by simp; omega
  unfold overwrite
  rw [List.take_left' hlen, List.drop_append, hlen, List.drop_eq_nil_of_le (by omega),
    List.drop_drop, List.length_append, List.nil_append, List.append_assoc (xs.take p)]
  congr 2
  omega

theorem getElem?_arc {xs : List α} {p n i : Nat} (hi : i < n) (hn : n ≤ xs.length) :
    (arc xs p n)[i]? = xs[(i+p) % xs.length]? := by
  rw [arc, List.getElem?_take_of_lt hi, List.getElem?_rotate (by omega)]

theorem mod_cases {a n : Nat} (h : a < 2 * n) :
    a < n ∧ a % n = a ∨ n ≤ a ∧ a % n = a - n := by
  rcases Nat.lt_or_ge a n with hlt | hge
  · exact .inl ⟨hlt, Nat.mod_eq_of_lt hlt⟩
  · exact .inr ⟨hge, by rw [Nat.mod_eq_sub_mod hge, Nat.mod_eq_of_lt (by omega)]⟩

/-- A block stored right behind an arc, in the room that the arc leaves, extends it. -/
theorem arc_overwrite {xs ys : List α} {p n : Nat} (hp : p < xs.length)
    (hroom : n + ys.length ≤ xs.length) (hend : (p + n) % xs.length + ys.length ≤ xs.length) :
    arc (overwrite xs ((p + n) % xs.length) ys) p (n + ys.length) = arc xs p n ++ ys := by
  have hlen := length_overwrite hend
  apply List.ext_getElem?
  intro i
  by_cases hi : i < n + ys.length
  · have hpn := mod_cases (a := p + n) (n := xs.length) (by omega)
    have hip := mod_cases (a := i + p) (n := xs.length) (by omega)
    rw [getElem?_arc hi (by omega), hlen, getElem?_overwrite hend]
    by_cases hin : i < n
    · rw [if_neg (by omega), List.getElem?_append_left (by rw [length_arc (by omega)]; exact hin),
        getElem?_arc hin (by omega)]
    · rw [if_pos (by omega), List.getElem?_append_right (by rw [length_arc (by omega)]; omega),
        length_arc (by omega)]
      congr 1
      omega
  · rw [List.getElem?_eq_none (by rw [length_arc (by omega)]; omega),
      List.getElem?_eq_none (by rw [List.length_append, length_arc (by omega)]; omega)]

end RasPiArduino.Ring
