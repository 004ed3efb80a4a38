import Mathlib.Data.List.Basic

/-! Lists read as tables: a row is found by its number, appended or replaced. -/
namespace RasPiArduino.Table
variable {α β : Type*}

theorem row_append {xs : List α} {i : Nat} {a b : α} :
    (xs ++ [a])[i]? = some b ↔ xs[i]? = some b ∨ (i = xs.length ∧ a = b) := by
  rcases Nat.lt_trichotomy i xs.length with h | h | h
  · rw [List.getElem?_append_left h]
    exact ⟨.inl, fun hr => hr.resolve_right fun he => Nat.ne_of_lt h he.1⟩
  · subst h
    simp
  · have hx : xs[i]? = none := List.getElem?_eq_none (Nat.le_of_lt h)
    have hn : (xs ++ [a])[i]? = none := List.getElem?_eq_none (by simp; omega)
    simp [hx, hn, Nat.ne_of_gt h]

theorem row_append_left {xs : List α} {i : Nat} {a b : α} (h : xs[i]? = some b) :
    (xs ++ [a])[i]? = some b := row_append.mpr (.inl h)

theorem row_append_last (xs : List α) (a : α) : (xs ++ [a])[xs.length]? = some a :=
  row_append.mpr (.inr ⟨rfl, rfl⟩)

theorem row_lt {xs : List α} {i : Nat} {a : α} (h : xs[i]? = some a) : i < xs.length :=
  (List.getElem?_eq_some_iff.mp h).1

theorem row_set {xs : List α} {i j : Nat} {x a b : α} (hx : xs[i]? = some x) :
    (xs.set i a)[j]? = some b ↔ (j = i ∧ a = b) ∨ (j ≠ i ∧ xs[j]? = some b) := by
  by_cases hj : j = i
  · subst hj
    simp [List.getElem?_set_self (row_lt hx)]
  · simp [hj, Ne.symm hj]

theorem row_set_self {xs : List α} {i : Nat} {x a : α} (hx : xs[i]? = some x) :
    (xs.set i a)[i]? = some a := List.getElem?_set_self (row_lt hx)

theorem map_set_eq {f : α → β} {xs : List α} {i : Nat} {x y : α}
    (hx : xs[i]? = some x) (hf : f y = f x) : (xs.set i y).map f = xs.map f := by
  apply List.ext_getElem?
  intro j
  by_cases hj : i = j
  · subst hj
    obtain ⟨hlt, rfl⟩ := List.getElem?_eq_some_iff.mp hx
    simp [hlt, hf]
  · simp [hj]

end RasPiArduino.Table
