import RasPiArduino.CMemory
import RasPiArduino.Numerals

/-! stdlib_noniso.cpp: itoa and its siblings. An int and a long have 32 bits. -/
namespace RasPiArduino.NonIso
open CMemory Numerals

def digitTable : List UInt8 :=
  [48, 49, 50, 51, 52, 53, 54, 55, 56, 57, 97, 98, 99, 100, 101, 102]

def digit (i : Int) : Except Fault UInt8 :=
  if 0 ≤ i then get digitTable i.toNat else .error .outside

/-- The absolute value in an int: the most negative number has itself. -/
def abs (value : Int) : Int := Int.bmod value.natAbs (2^32)

def reverseLoop : Nat → List UInt8 → Nat → Nat → Except Fault (List UInt8)
  | 0, b, _, _ => .ok b
  | n+1, b, is, ie =>
    if is < ie then do
      let tmp ← get b ie
      let c ← get b is
      let b ← put b ie c
      let b ← put b is tmp
      reverseLoop n b (is + 1) (ie - 1)
    else .ok b

def reverse (b : List UInt8) (first last : Nat) : Except Fault (List UInt8) :=
  reverseLoop (last - first) b first (last - 1)

def digitLoop (base : Int) : Nat → List UInt8 → Nat → Int → Except Fault (List UInt8 × Nat)
  | 0, _, _, _ => .error .outside
  | n+1, b, out, quotient => do
    let tmp := quotient.tdiv base
    let c ← digit (quotient - tmp * base)
    let b ← put b out c
    if tmp ≠ 0 then digitLoop base n b (out + 1) tmp else .ok (b, out + 1)

def signed (value : Int) (result : List UInt8) (base : Int) : Except Fault (List UInt8) :=
  if base < 2 ∨ base > 16 then put result 0 0
  else do
    let (b, out) ← digitLoop base (result.length + 1) result 0 (abs value)
    let (b, out) ← if value < 0 then do
        let b ← put b out 45
        .ok (b, out + 1)
      else .ok (b, out)
    let b ← reverse b 0 out
    put b out 0

def unsigned (value : Nat) (result : List UInt8) (base : Int) : Except Fault (List UInt8) :=
  if base < 2 ∨ base > 16 then put result 0 0
  else do
    let (b, out) ← digitLoop base (result.length + 1) result 0 value
    let b ← reverse b 0 out
    put b out 0

def itoa (value : Int) (result : List UInt8) (base : Int) : Except Fault (List UInt8) :=
  signed value result base

def ltoa (value : Int) (result : List UInt8) (base : Int) : Except Fault (List UInt8) :=
  signed value result base

def utoa (value : Nat) (result : List UInt8) (base : Int) : Except Fault (List UInt8) :=
  unsigned value result base

def ultoa (value : Nat) (result : List UInt8) (base : Int) : Except Fault (List UInt8) :=
  unsigned value result base

def digitChar (d : Nat) : UInt8 := digitTable.getD d 0

def sign (n : Int) : List UInt8 := if n < 0 then [45] else []

def text (base : Nat) (n : Int) : List UInt8 := sign n ++ (numeral base n.natAbs).map digitChar

variable {p q m d r : List UInt8} {base k n : Nat} {x y : UInt8}

theorem digit_eq (hd : n < 16) : digit n = .ok (digitChar n) := by
  rw [digit, if_pos (by omega), Int.toNat_natCast, digitChar]
  apply get_eq
  rw [List.getD_eq_getElem?_getD, List.getElem?_eq_getElem hd, Option.getD_some]

theorem reverseLoop_spec (hn : m.length ≤ n) (p q : List UInt8) :
    reverseLoop n (p ++ m ++ q) p.length (p.length + m.length - 1) =
      .ok (p ++ m.reverse ++ q) := by
  induction n generalizing p m q with
  | zero =>
    obtain rfl := List.eq_nil_of_length_eq_zero (Nat.le_zero.mp hn)
    rfl
  | succ n ih =>
    cases m with
    | nil => rw [reverseLoop, if_neg (by simp), List.reverse_nil]
    | cons x m =>
      cases List.eq_nil_or_concat m with
      | inl hnil =>
        subst hnil
        rw [reverseLoop, if_neg (by simp), List.reverse_singleton]
      | inr hlast =>
        -- the ends change places, and the bytes between them are left to do
        obtain ⟨m, y, rfl⟩ := hlast
        rw [List.length_cons, List.length_concat] at hn
        rw [List.concat_eq_append]
        have hie : p.length + (x :: (m ++ [y])).length - 1 = p.length + (m.length + 1) := by
          simp
        have hblock : p ++ x :: (m ++ [y]) ++ q = p ++ (x :: m ++ y :: q) := by simp
        have hgety : get (p ++ (x :: m ++ y :: q)) (p.length + (m.length + 1)) = .ok y := by
          apply get_append
          rw [← List.length_cons (a := x), List.getElem?_append_right le_rfl, Nat.sub_self]
          rfl
        have hgetx : get (p ++ (x :: m ++ y :: q)) p.length = .ok x :=
          get_append (k := 0) rfl p
        have hputx : put (p ++ (x :: m ++ y :: q)) (p.length + (m.length + 1)) x =
            .ok (p ++ x :: (m ++ x :: q)) := by
          have hput := put_append (p ++ x :: m) q y x
          rw [List.length_append, List.length_cons] at hput
          simpa using hput
        have hrest := ih (m := m) (by omega) (p ++ [y]) (x :: q)
        rw [List.length_append, List.length_singleton] at hrest
        rw [reverseLoop, hie, hblock, if_pos (by omega), hgety, ok_bind, hgetx, ok_bind, hputx,
          ok_bind, put_append, ok_bind]
        have hnext : p.length + (m.length + 1) - 1 = p.length + 1 + m.length - 1 := by omega
        rw [hnext]
        simpa using hrest

theorem reverse_front (m q : List UInt8) :
    reverse (m ++ q) 0 m.length = .ok (m.reverse ++ q) := by
  have h := reverseLoop_spec (le_refl m.length) [] q
  simpa [reverse] using h

theorem sub_div_mul (k base : Nat) : (k : Int) - (k / base : Nat) * base = (k % base : Nat) := by
  have hsplit : ((k / base : Nat) : Int) * base + (k % base : Nat) = k := by
    exact_mod_cast Nat.div_add_mod' k base
  linarith

/-- The digits come into the block from the last one on. -/
theorem digitLoop_spec (hb : 2 ≤ base) (hb' : base ≤ 16)
    (hr : (backwards base k).length ≤ r.length) (hn : (backwards base k).length ≤ n)
    (d : List UInt8) :
    digitLoop base n (d ++ r) d.length k =
      .ok (d ++ (backwards base k).map digitChar ++ r.drop (backwards base k).length,
        (d ++ (backwards base k).map digitChar).length) := by
  induction n generalizing k d r with
  | zero =>
    have hpos := List.length_pos_iff.mpr (backwards_ne_nil hb k)
    omega
  | succ n ih =>
    have hdiv : (k : Int).tdiv base = (k / base : Nat) := (Int.ofNat_tdiv k base).symm
    have hrem := sub_div_mul k base
    have hlt : k % base < 16 := (Nat.mod_lt k (by omega)).trans_le hb'
    cases r with
    | nil =>
      have hnil := List.eq_nil_of_length_eq_zero (Nat.le_zero.mp hr)
      exact absurd hnil (backwards_ne_nil hb k)
    | cons y r =>
      simp only [digitLoop, hdiv, hrem, digit_eq hlt, ok_bind, put_append]
      rw [backwards_eq hb] at hr hn ⊢
      by_cases hlast : k / base = 0
      · rw [if_pos hlast, if_neg (by omega)]
        simp
      · rw [if_neg hlast, List.length_cons, List.length_cons] at hr
        rw [if_neg hlast, List.length_cons] at hn
        have hrest := ih (k := k / base) (r := r) (by omega) (by omega) (d ++ [digitChar (k % base)])
        rw [if_neg hlast, if_pos (by omega)]
        simpa using hrest

/-- A quotient below 0 keeps its sign, so that one of the digits has an index below 0. -/
theorem digitLoop_negative (hb : 2 ≤ base) (hk : 0 < k) (b : List UInt8) (out : Nat)
    (z : List UInt8 × Nat) : digitLoop base n b out (-k) ≠ .ok z := by
  induction n generalizing k b out with
  | zero => exact fun h => by cases h
  | succ n ih =>
    intro h
    have hdiv : (-k : Int).tdiv base = -(k / base : Nat) := by
      rw [Int.neg_tdiv]
      exact congrArg Neg.neg (Int.ofNat_tdiv k base).symm
    have hrem : (-k : Int) - -(k / base : Nat) * base = -(k % base : Nat) := by
      rw [← sub_div_mul]
      ring
    rw [digitLoop] at h
    simp only [hdiv, hrem] at h
    obtain ⟨c, hc, h⟩ := bind_eq_ok.mp h
    obtain ⟨b', -, h⟩ := bind_eq_ok.mp h
    rw [digit] at hc
    split at hc
    · next hzero =>
      have hpos : 0 < k / base := by
        apply Nat.div_pos _ (by omega)
        exact Nat.le_of_dvd hk (Nat.dvd_of_mod_eq_zero (by omega))
      rw [if_pos (by omega)] at h
      exact ih hpos _ _ h
    · cases hc

theorem abs_eq {v : Int} (hlow : -2^31 < v) (hhigh : v < 2^31) : abs v = v.natAbs := by
  unfold abs
  apply Int.bmod_eq_of_le
  · omega
  · omega

theorem abs_min : abs (-2^31) = -(2^31 : Nat) := by decide

@[simp] theorem length_text (base : Nat) (v : Int) :
    (text base v).length = (sign v).length + (numeral base v.natAbs).length := by
  simp [text]

theorem length_sign_le (v : Int) : (sign v).length ≤ 1 := by
  rw [sign]
  split <;> simp

theorem length_text_le {v : Int} (hb : 2 ≤ base) (hk : 0 < k) (h : v.natAbs < base^k) :
    (text base v).length ≤ k + 1 := by
  have hsign := length_sign_le v
  have hnumeral := length_numeral_le hb hk h
  rw [length_text]
  omega

theorem length_text_natCast_le {u : Nat} (hb : 2 ≤ base) (hk : 0 < k) (h : u < base^k) :
    (text base u).length ≤ k := by
  have hsign : sign u = [] := if_neg (by omega)
  rw [length_text, hsign, List.length_nil, Nat.zero_add]
  exact length_numeral_le hb hk h

theorem digitChar_ne_zero {d : Nat} (hd : d < 16) : digitChar d ≠ 0 := by
  have hall : ∀ d < 16, digitChar d ≠ 0 := by decide
  exact hall d hd

theorem nul_not_mem_text (hb : 2 ≤ base) (hb' : base ≤ 16) (v : Int) : 0 ∉ text base v := by
  intro hmem
  cases List.mem_append.mp hmem with
  | inl hsign =>
    rw [sign] at hsign
    split at hsign <;> simp at hsign
  | inr hdigit =>
    obtain ⟨d, hd, h0⟩ := List.mem_map.mp hdigit
    have hlt := (isNumeral_numeral hb v.natAbs).digit d hd
    exact digitChar_ne_zero (by omega) h0

theorem map_numeral (base k : Nat) :
    (numeral base k).map digitChar = ((backwards base k).map digitChar).reverse := by
  rw [numeral, List.map_reverse]

theorem finish_eq (ds sg r : List UInt8) (hr : r ≠ []) :
    (do
      let b ← reverse (ds ++ sg ++ r) 0 (ds ++ sg).length
      put b (ds ++ sg).length 0) = .ok (sg.reverse ++ ds.reverse ++ 0 :: r.tail) := by
  cases r with
  | nil => exact absurd rfl hr
  | cons y r =>
    have hput := put_append (ds ++ sg).reverse r y 0
    rw [List.length_reverse] at hput
    rw [reverse_front, ok_bind, hput, List.reverse_append]
    rfl

theorem signed_eq {v : Int} (hb : 2 ≤ base) (hb' : base ≤ 16) (hlow : -2^31 < v) (hhigh : v < 2^31)
    {b : List UInt8} (hroom : (text base v).length < b.length) :
    ∃ rest, signed v b base = .ok (text base v ++ 0 :: rest) := by
  rw [length_text, numeral, List.length_reverse] at hroom
  have hloop := digitLoop_spec hb hb' (k := v.natAbs) (r := b) (n := b.length + 1)
    (by omega) (by omega) []
  simp only [List.nil_append, List.length_nil] at hloop
  simp only [signed, abs_eq hlow hhigh, hloop, ok_bind]
  rw [if_neg (by omega)]
  obtain ⟨ds, hds⟩ : ∃ ds, ds = (backwards base v.natAbs).map digitChar := ⟨_, rfl⟩
  have hlen : ds.length = (backwards base v.natAbs).length := by rw [hds, List.length_map]
  rw [← hlen] at hroom ⊢
  rw [text, map_numeral, ← hds]
  by_cases hneg : v < 0
  · have hsign : sign v = [45] := if_pos hneg
    rw [hsign, List.length_singleton] at hroom
    obtain ⟨y, r, hr⟩ := List.exists_cons_of_length_pos (l := b.drop ds.length) (by
      rw [List.length_drop]
      omega)
    have hrlen := congrArg List.length hr
    rw [List.length_drop, List.length_cons] at hrlen
    have hfinish := finish_eq ds [45] r (List.ne_nil_of_length_pos (by omega))
    rw [List.length_append, List.length_singleton, List.append_assoc] at hfinish
    rw [if_pos hneg, hr, put_append, ok_bind]
    rw [hsign]
    exact ⟨r.tail, hfinish⟩
  · have hsign : sign v = [] := if_neg hneg
    rw [hsign, List.length_nil, Nat.zero_add] at hroom
    have hfinish := finish_eq ds [] (b.drop ds.length) (List.ne_nil_of_length_pos (by
      rw [List.length_drop]
      omega))
    rw [List.append_nil] at hfinish
    rw [if_neg hneg, hsign]
    exact ⟨_, hfinish⟩

theorem unsigned_eq {u : Nat} (hb : 2 ≤ base) (hb' : base ≤ 16) {b : List UInt8}
    (hroom : (text base u).length < b.length) :
    ∃ rest, unsigned u b base = .ok (text base u ++ 0 :: rest) := by
  have hsign : sign u = [] := if_neg (by omega)
  rw [length_text, numeral, List.length_reverse, hsign, List.length_nil, Nat.zero_add,
    Int.natAbs_natCast] at hroom
  have hloop := digitLoop_spec hb hb' (k := u) (r := b) (n := b.length + 1) (by omega) (by omega) []
  simp only [List.nil_append, List.length_nil] at hloop
  simp only [unsigned, hloop, ok_bind]
  rw [if_neg (by omega)]
  have hfinish := finish_eq ((backwards base u).map digitChar) []
    (b.drop (backwards base u).length) (List.ne_nil_of_length_pos (by
      rw [List.length_drop]
      omega))
  rw [List.append_nil] at hfinish
  rw [text, hsign, Int.natAbs_natCast, map_numeral]
  exact ⟨_, hfinish⟩

theorem signed_min (hb : 2 ≤ base) (hb' : base ≤ 16) (b z : List UInt8) :
    signed (-2^31) b base ≠ .ok z := by
  intro h
  rw [signed, if_neg (by omega)] at h
  obtain ⟨x, hx, -⟩ := bind_eq_ok.mp h
  rw [abs_min] at hx
  exact digitLoop_negative hb (by norm_num) _ _ _ hx

end RasPiArduino.NonIso
