import Mathlib.Data.Nat.Digits.Lemmas

/-! The numeral of a number in a base: its digits from the first to the last, without leading
zeros. -/
namespace RasPiArduino.Numerals

/-- The digits from the last to the first, as a loop with its test at the end makes them. -/
def backwards (b n : Nat) : List Nat := if n = 0 then [0] else b.digits n

def numeral (b n : Nat) : List Nat := (backwards b n).reverse

def value (b : Nat) (ds : List Nat) : Nat := ds.foldl (fun v d => v * b + d) 0

/-- Digits of the base, none of them a leading zero, with the value `n`. -/
structure IsNumeral (b n : Nat) (ds : List Nat) : Prop where
  ne : ds ≠ []
  digit : ∀ d ∈ ds, d < b
  head : ds.head? = some 0 → ds = [0]
  value : value b ds = n

variable {b n k : Nat} {ds : List Nat}

theorem backwards_of_lt (h : n < b) : backwards b n = [n] := by
  rw [backwards]
  split
  · next h0 => rw [h0]
  · next h0 => exact Nat.digits_of_lt b n h0 h

theorem backwards_of_ge (hb : 2 ≤ b) (h : b ≤ n) :
    backwards b n = n % b :: backwards b (n / b) := by
  have hdiv : n / b ≠ 0 := Nat.ne_of_gt (Nat.div_pos h (by omega))
  rw [backwards, backwards, if_neg (by omega), if_neg hdiv]
  exact Nat.digits_of_two_le_of_pos hb (by omega)

theorem backwards_eq (hb : 2 ≤ b) (n : Nat) :
    backwards b n = n % b :: if n / b = 0 then [] else backwards b (n / b) := by
  by_cases h : n < b
  · rw [backwards_of_lt h, Nat.mod_eq_of_lt h, if_pos (Nat.div_eq_of_lt h)]
  · rw [backwards_of_ge hb (by omega), if_neg]
    exact Nat.ne_of_gt (Nat.div_pos (by omega) (by omega))

theorem backwards_ne_nil (hb : 2 ≤ b) (n : Nat) : backwards b n ≠ [] := by
  rw [backwards_eq hb]
  exact List.cons_ne_nil _ _

theorem lt_of_mem_backwards (hb : 2 ≤ b) {d : Nat} (h : d ∈ backwards b n) : d < b := by
  rw [backwards] at h
  split at h
  · obtain rfl := List.mem_singleton.mp h
    omega
  · exact Nat.digits_lt_base hb h

theorem length_backwards_le (hb : 2 ≤ b) (hk : 0 < k) (h : n < b^k) :
    (backwards b n).length ≤ k := by
  rw [backwards]
  split
  · exact hk
  · exact (Nat.digits_length_le_iff hb n).mpr h

theorem length_numeral_le (hb : 2 ≤ b) (hk : 0 < k) (h : n < b^k) : (numeral b n).length ≤ k := by
  rw [numeral, List.length_reverse]
  exact length_backwards_le hb hk h

theorem value_reverse (b : Nat) (ds : List Nat) : value b ds.reverse = Nat.ofDigits b ds := by
  rw [value, List.foldl_reverse, Nat.ofDigits_eq_foldr]
  simp only [Nat.cast_id, Nat.mul_comm, Nat.add_comm]

theorem value_append (b : Nat) (ds : List Nat) (d : Nat) :
    value b (ds ++ [d]) = value b ds * b + d := by
  rw [value, List.foldl_append]
  rfl

theorem value_numeral (b n : Nat) : value b (numeral b n) = n := by
  rw [numeral, value_reverse, backwards]
  split
  · next h => simp [h]
  · exact Nat.ofDigits_digits b n

theorem isNumeral_numeral (hb : 2 ≤ b) (n : Nat) : IsNumeral b n (numeral b n) where
  ne := by
    rw [numeral, ne_eq, List.reverse_eq_nil_iff]
    exact backwards_ne_nil hb n
  digit := by
    intro d hd
    exact lt_of_mem_backwards hb (List.mem_reverse.mp hd)
  head := by
    rw [numeral, List.head?_reverse, backwards]
    split
    · simp
    · next h =>
      intro hlast
      have hne : b.digits n ≠ [] := Nat.digits_ne_nil_iff_ne_zero.mpr h
      rw [List.getLast?_eq_some_getLast hne] at hlast
      exact absurd (Option.some.inj hlast) (Nat.getLast_digit_ne_zero b h)
  value := value_numeral b n

theorem IsNumeral.unique (hb : 2 ≤ b) (h : IsNumeral b n ds) : ds = numeral b n := by
  have hvalue := h.value
  rw [← List.reverse_reverse ds, value_reverse] at hvalue
  by_cases hhead : ds.head? = some 0
  · have hzero := h.head hhead
    subst hzero
    subst hvalue
    simp [numeral, backwards]
  · have hdigits := Nat.digits_ofDigits b hb ds.reverse
      (fun d hd => h.digit d (List.mem_reverse.mp hd)) (by
        intro hne hlast
        apply hhead
        rw [← List.getLast?_reverse, List.getLast?_eq_some_getLast hne, hlast])
    rw [hvalue] at hdigits
    have hn : n ≠ 0 := by
      intro h0
      subst h0
      rw [Nat.digits_zero] at hdigits
      exact h.ne (List.reverse_eq_nil_iff.mp hdigits.symm)
    rw [numeral, backwards, if_neg hn, hdigits, List.reverse_reverse]

end RasPiArduino.Numerals
