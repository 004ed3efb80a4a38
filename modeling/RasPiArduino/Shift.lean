import Mathlib.Data.List.Basic

/-! Loops that move the elements of an array down by a fixed distance. -/
namespace RasPiArduino.Shift
variable {α : Type*} {d n : Nat} {xs ys : List α}

/-- `n` turns of the loop `b[i] = b[i+d]`, from i = 0 on; `none` once a turn reads outside
the array. -/
def shiftDown (d : Nat) : Nat → List α → Option (List α)
  | 0, xs => some xs
  | n+1, xs => (shiftDown d n xs).bind fun ys => (ys[n+d]?).map fun x => ys.set n x

theorem shiftDown_succ_some : shiftDown d (n+1) xs = some ys ↔
    ∃ zs x, shiftDown d n xs = some zs ∧ zs[n+d]? = some x ∧ zs.set n x = ys := by
  simp [shiftDown, Option.bind_eq_some_iff]

theorem shiftDown_spec (h : shiftDown d n xs = some ys) : ys.length = xs.length ∧
    ∀ j, ys[j]? = if j < n then xs[j+d]? else xs[j]? := by
  induction n generalizing ys with
  | zero =>
    obtain rfl : xs = ys := by simpa [shiftDown] using h
    simp
  | succ n ih =>
    obtain ⟨zs, x, hz, hx, rfl⟩ := shiftDown_succ_some.mp h
    obtain ⟨hlen, hget⟩ := ih hz
    refine ⟨by simp [hlen], fun j => ?_⟩
    have hxs : xs[n+d]? = some x := by
      rw [hget, if_neg (by omega)] at hx
      exact hx
    by_cases hj : j = n
    · subst hj
      have hlt : j + d < xs.length := (List.getElem?_eq_some_iff.mp hxs).1
      rw [if_pos (by omega), hxs, List.getElem?_set_self (by omega)]
    · rw [List.getElem?_set_ne (fun he => hj he.symm), hget]
      by_cases hjn : j < n
      · rw [if_pos hjn, if_pos (by omega)]
      · rw [if_neg hjn, if_neg (by omega)]

theorem shiftDown_some_iff : (∃ ys, shiftDown d n xs = some ys) ↔ n = 0 ∨ n + d ≤ xs.length := by
  induction n with
  | zero => simp [shiftDown]
  | succ n ih =>
    constructor
    · rintro ⟨ys, h⟩
      obtain ⟨zs, x, hz, hx, -⟩ := shiftDown_succ_some.mp h
      obtain ⟨hlen, -⟩ := shiftDown_spec hz
      have hlt : n + d < zs.length := (List.getElem?_eq_some_iff.mp hx).1
      omega
    · intro h
      obtain ⟨zs, hz⟩ := ih.mpr (by omega)
      obtain ⟨hlen, -⟩ := shiftDown_spec hz
      exact ⟨_, shiftDown_succ_some.mpr
        ⟨zs, _, hz, List.getElem?_eq_getElem (by omega), rfl⟩⟩

/-- The first `m` elements are the right ones exactly if those beyond the loop's reach
were so before. -/
theorem take_shiftDown_iff (h : shiftDown d n xs = some ys) (m : Nat) :
    ys.take m = (xs.take (m + d)).drop d ↔
      ∀ j, n ≤ j → j < m → xs[j]? = xs[j+d]? := by
  obtain ⟨-, hget⟩ := shiftDown_spec h
  have hdrop (j : Nat) (hj : j < m) : ((xs.take (m + d)).drop d)[j]? = xs[j+d]? := by
    rw [List.getElem?_drop, List.getElem?_take_of_lt (by omega), Nat.add_comm]
  constructor
  · intro he j hn hm
    have hj : (ys.take m)[j]? = xs[j+d]? := by rw [he, hdrop j hm]
    rw [← hj, List.getElem?_take_of_lt hm, hget, if_neg (by omega)]
  · intro hall
    apply List.ext_getElem?
    intro j
    by_cases hm : j < m
    · rw [hdrop j hm, List.getElem?_take_of_lt hm, hget]
      split
      · rfl
      · exact hall j (by omega) hm
    · rw [List.getElem?_take_eq_none (by omega), List.getElem?_eq_none (by simp; omega)]

theorem take_shiftDown (h : shiftDown d n xs = some ys) {m : Nat} (hm : m ≤ n) :
    ys.take m = (xs.take (m + d)).drop d :=
  (take_shiftDown_iff h m).mpr fun _ hj hlt => absurd hlt (by omega)

end RasPiArduino.Shift
