import Mathlib.Data.Nat.Digits.Lemmas
import Mathlib.Data.Nat.ModEq

/-! Memories of `N` bytes: what stands from a place on, what writing there changes, and the
little-endian numbers that stand in them. -/
namespace RasPiArduino.LittleEndian

abbrev Bytes (N : Nat) := Fin N → UInt8

section
variable {N : Nat} [NeZero N]

def slice (b : Bytes N) (i n : Nat) : List UInt8 :=
  (List.range n).map fun k => b (Fin.ofNat N (i + k))

def splice (b : Bytes N) (i : Nat) (xs : List UInt8) : Bytes N :=
  fun j => if i ≤ j.val then (xs[j.val - i]?).getD (b j) else b j

end

def bytesOf (n v : Nat) : List UInt8 := (List.range n).map fun k => UInt8.ofNat (v / 256^k)

def number (xs : List UInt8) : Nat := Nat.ofDigits 256 (xs.map UInt8.toNat)

@[simp] theorem length_bytesOf (n v : Nat) : (bytesOf n v).length = n := by simp [bytesOf]

theorem bytesOf_succ (n v : Nat) :
    bytesOf (n + 1) v = UInt8.ofNat v :: bytesOf n (v / 256) := by
  unfold bytesOf
  rw [List.range_succ_eq_map, List.map_cons, List.map_map, Nat.pow_zero, Nat.div_one]
  congr 1
  refine List.map_congr_left fun k _ => ?_
  simp only [Function.comp_apply, Nat.div_div_eq_div_mul, Nat.pow_succ']

theorem number_cons (x : UInt8) (xs : List UInt8) :
    number (x :: xs) = x.toNat + 256 * number xs := by
  simp [number, Nat.ofDigits_cons]

/-- A number is read back modulo what its bytes can hold. -/
theorem number_bytesOf (n v : Nat) : number (bytesOf n v) = v % 256^n := by
  induction n generalizing v with
  | zero => simp [bytesOf, number, Nat.mod_one]
  | succ n ih =>
    have hmod : v % 256^(n + 1) = v % 256 + 256 * (v / 256 % 256^n) := by
      rw [Nat.pow_succ', Nat.mod_mul]
    rw [bytesOf_succ, number_cons, ih, UInt8.toNat_ofNat', hmod]

theorem number_lt (xs : List UInt8) : number xs < 256^xs.length := by
  induction xs with
  | nil => simp [number]
  | cons x xs ih =>
    have hx := x.toNat_lt
    rw [number_cons, List.length_cons, Nat.pow_succ']
    omega

section
variable {N : Nat} [NeZero N] {b : Bytes N} {i j n : Nat} {xs : List UInt8}

@[simp] theorem length_slice (b : Bytes N) (i n : Nat) : (slice b i n).length = n := by
  simp [slice]

theorem getElem?_slice {k : Nat} (hk : k < n) :
    (slice b i n)[k]? = some (b (Fin.ofNat N (i + k))) := by
  simp [slice, hk]

theorem take_drop_slice {m l : Nat} (h : m + l ≤ n) :
    ((slice b i n).drop m).take l = slice b (i + m) l := by
  refine List.ext_getElem? fun k => ?_
  obtain hk | hk := Nat.lt_or_ge k l
  · rw [List.getElem?_take_of_lt hk, List.getElem?_drop, getElem?_slice (by omega),
      getElem?_slice hk, Nat.add_assoc]
  · rw [List.getElem?_eq_none (by simp; omega), List.getElem?_eq_none (by simp; omega)]

omit [NeZero N] in
theorem splice_of_lt {p : Fin N} (h : p.val < i) : splice b i xs p = b p := by
  simp [splice, Nat.not_le.mpr h]

omit [NeZero N] in
theorem splice_of_ge {p : Fin N} (h : i + xs.length ≤ p.val) : splice b i xs p = b p := by
  have hnone : xs[p.val - i]? = none := List.getElem?_eq_none (by omega)
  simp [splice, hnone]

theorem splice_of_mem {k : Nat} {x : UInt8} (hx : xs[k]? = some x) (hN : i + k < N) :
    splice b i xs (Fin.ofNat N (i + k)) = x := by
  simp [splice, Nat.mod_eq_of_lt hN, hx]

omit [NeZero N] in
theorem splice_all (h : xs.length = N) (b c : Bytes N) : splice b 0 xs = splice c 0 xs := by
  funext p
  have hp : p.val - 0 < xs.length := by omega
  simp only [splice, List.getElem?_eq_getElem hp, Nat.zero_le, if_true, Option.getD_some]

theorem slice_splice_self (h : i + xs.length ≤ N) : slice (splice b i xs) i xs.length = xs := by
  refine List.ext_getElem? fun k => ?_
  obtain hk | hk := Nat.lt_or_ge k xs.length
  · rw [getElem?_slice hk, splice_of_mem (List.getElem?_eq_getElem hk) (by omega),
      List.getElem?_eq_getElem hk]
  · rw [List.getElem?_eq_none (by simpa using hk), List.getElem?_eq_none hk]

theorem slice_splice_of_disjoint (hN : j + n ≤ N) (h : j + n ≤ i ∨ i + xs.length ≤ j) :
    slice (splice b i xs) j n = slice b j n := by
  refine List.map_congr_left fun k hk => ?_
  have hk := List.mem_range.mp hk
  have hval : (Fin.ofNat N (j + k)).val = j + k := Nat.mod_eq_of_lt (by omega)
  obtain h | h := h
  · exact splice_of_lt (by omega)
  · exact splice_of_ge (by omega)

end
end RasPiArduino.LittleEndian
