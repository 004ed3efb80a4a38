import RasPiArduino.NonIso
import RasPiArduino.WStringSpec

/-! Strings of numbers: the buffers of the conversions, and toInt(). -/
namespace RasPiArduino.WString
open CMemory Numerals NonIso

def withText {α : Type} (buf : Except Fault (List UInt8)) (f : List UInt8 → Except Fault α) :
    Except Fault α := do
  let b ← buf
  let t ← cstring b
  f t

/-- String(int, base); `junk` is what the buffer holds before. -/
def ofInt (value : Int) (base : Nat) (junk : List UInt8) (a : Option Alloc) : Except Fault WString :=
  withText (itoa value (resize [] junk (2 + 8 * 4)) base) fun t => ofNumber t a

def ofLong (value : Int) (base : Nat) (junk : List UInt8) (a : Option Alloc) :
    Except Fault WString :=
  withText (ltoa value (resize [] junk (2 + 8 * 4)) base) fun t => ofNumber t a

def ofUnsignedInt (value base : Nat) (junk : List UInt8) (a : Option Alloc) : Except Fault WString :=
  withText (utoa value (resize [] junk (1 + 8 * 4)) base) fun t => ofNumber t a

def ofUnsignedLong (value base : Nat) (junk : List UInt8) (a : Option Alloc) :
    Except Fault WString :=
  withText (ultoa value (resize [] junk (1 + 8 * 4)) base) fun t => ofNumber t a

def concatInt (s : WString) (num : Int) (junk : List UInt8) (a : Option Alloc) :
    Except Fault (Bool × WString) :=
  withText (itoa num (resize [] junk (2 + 3 * 4)) 10) fun t => s.concatNumber t a

def concatLong (s : WString) (num : Int) (junk : List UInt8) (a : Option Alloc) :
    Except Fault (Bool × WString) :=
  withText (ltoa num (resize [] junk (2 + 3 * 4)) 10) fun t => s.concatNumber t a

def concatUnsignedInt (s : WString) (num : Nat) (junk : List UInt8) (a : Option Alloc) :
    Except Fault (Bool × WString) :=
  withText (utoa num (resize [] junk (1 + 3 * 4)) 10) fun t => s.concatNumber t a

def concatUnsignedLong (s : WString) (num : Nat) (junk : List UInt8) (a : Option Alloc) :
    Except Fault (Bool × WString) :=
  withText (ultoa num (resize [] junk (1 + 3 * 4)) 10) fun t => s.concatNumber t a

/-- atol: spaces, a sign and digits; a value that is no long becomes the next one. -/
def atol (t : List UInt8) : Int :=
  let t := t.dropWhile isspace
  if t.head? = some 45 then max (-2^31) (-(decimal (t.tail.takeWhile (IsDigit ·)) : Int))
  else
    let t := if t.head? = some 43 then t.tail else t
    min (2^31 - 1) (decimal (t.takeWhile (IsDigit ·)))

def toInt (s : WString) : Except Fault Int :=
  if s.buffer = .null then .ok 0
  else do
    let b ← s.buffer.bytes
    let t ← cstring b
    .ok (atol t)

def IsText (base : Nat) (n : Int) (t : List UInt8) : Prop :=
  ∃ ds, IsNumeral base n.natAbs ds ∧ t = sign n ++ ds.map digitChar

/-- The conversion leaves it in its buffer, with a NUL behind it. -/
def Writes (x : Except Fault (List UInt8)) (base : Nat) (n : Int) : Prop :=
  ∃ t rest, IsText base n t ∧ x = .ok (t ++ 0 :: rest)

structure Converts (n : Int) (u base : Nat) (junk : List UInt8) (a : Option Alloc) : Prop where
  signed : Writes (itoa n (resize [] junk (2 + 8 * 4)) base) base n ∧
    Writes (ltoa n (resize [] junk (2 + 8 * 4)) base) base n
  unsigned : Writes (utoa u (resize [] junk (1 + 8 * 4)) base) base u ∧
    Writes (ultoa u (resize [] junk (1 + 8 * 4)) base) base u
  string : ∃ t, IsText base n t ∧ ofInt n base junk a = ofNumber t a ∧
    ofLong n base junk a = ofNumber t a
  concat : ∃ t, IsText 10 n t ∧ ∀ s, concatInt s n junk a = s.concatNumber t a ∧
    concatLong s n junk a = s.concatNumber t a
  unsignedString : ∃ t, IsText base u t ∧ ofUnsignedInt u base junk a = ofNumber t a ∧
    ofUnsignedLong u base junk a = ofNumber t a
  unsignedConcat : ∃ t, IsText 10 u t ∧ ∀ s, concatUnsignedInt s u junk a = s.concatNumber t a ∧
    concatUnsignedLong s u junk a = s.concatNumber t a
  toInt : ∃ s, ofInt n 10 junk a = .ok s ∧ s.toInt = .ok n

variable {n : Int} {u base k size : Nat} {t junk : List UInt8} {a : Option Alloc}
  {x : Except Fault (List UInt8)}

theorem isText_text (hb : 2 ≤ base) (n : Int) : IsText base n (text base n) :=
  ⟨_, isNumeral_numeral hb n.natAbs, rfl⟩

theorem withText_eq {α : Type} (hb : 2 ≤ base) (hb' : base ≤ 16)
    (h : ∃ rest, x = .ok (text base n ++ 0 :: rest)) (f : List UInt8 → Except Fault α) :
    withText x f = f (text base n) := by
  obtain ⟨rest, rfl⟩ := h
  rw [withText, ok_bind, cstring_append (nul_not_mem_text hb hb' n), ok_bind]

theorem writes_of_eq (hb : 2 ≤ base) (h : ∃ rest, x = .ok (text base n ++ 0 :: rest)) :
    Writes x base n := by
  obtain ⟨rest, h⟩ := h
  exact ⟨_, rest, isText_text hb n, h⟩

theorem signed_fits (hb : 2 ≤ base) (hb' : base ≤ 16) (hlow : -2^31 < n) (hhigh : n < 2^31)
    (junk : List UInt8) :
    ∃ rest, signed n (resize [] junk (2 + 8 * 4)) base = .ok (text base n ++ 0 :: rest) := by
  have hpow : 2^31 ≤ base^31 := Nat.pow_le_pow_left hb 31
  have hlen := length_text_le hb (v := n) (k := 31) (by norm_num) (by omega)
  apply signed_eq hb hb' hlow hhigh
  rw [length_resize]
  omega

theorem signed_fits_decimal (hlow : -2^31 < n) (hhigh : n < 2^31) (junk : List UInt8) :
    ∃ rest, signed n (resize [] junk (2 + 3 * 4)) 10 = .ok (text 10 n ++ 0 :: rest) := by
  have hlen := length_text_le (show 2 ≤ 10 by norm_num) (v := n) (k := 10) (by norm_num) (by omega)
  apply signed_eq (show 2 ≤ 10 by norm_num) (by norm_num) hlow hhigh
  rw [length_resize]
  omega

theorem unsigned_fits (hb : 2 ≤ base) (hb' : base ≤ 16) (hu : u < 2^32) (junk : List UInt8) :
    ∃ rest, unsigned u (resize [] junk (1 + 8 * 4)) base = .ok (text base u ++ 0 :: rest) := by
  have hpow : 2^32 ≤ base^32 := Nat.pow_le_pow_left hb 32
  have hlen := length_text_natCast_le hb (u := u) (k := 32) (by norm_num) (by omega)
  apply unsigned_eq hb hb'
  rw [length_resize]
  omega

theorem unsigned_fits_decimal (hu : u < 2^32) (junk : List UInt8) :
    ∃ rest, unsigned u (resize [] junk (1 + 3 * 4)) 10 = .ok (text 10 u ++ 0 :: rest) := by
  have hlen := length_text_natCast_le (show 2 ≤ 10 by norm_num) (u := u) (k := 10) (by norm_num)
    (by omega)
  apply unsigned_eq (show 2 ≤ 10 by norm_num) (by norm_num)
  rw [length_resize]
  omega

/-! The way back. -/

theorem digitChar_decimal {d : Nat} (hd : d < 10) :
    IsDigit (digitChar d) ∧ (digitChar d).toNat - 48 = d := by
  have hall : ∀ d < 10, IsDigit (digitChar d) ∧ (digitChar d).toNat - 48 = d := by decide
  exact hall d hd

theorem isspace_of_isDigit {c : UInt8} (h : IsDigit c) : isspace c = false ∧ c ≠ 45 ∧ c ≠ 43 := by
  refine ⟨?_, ?_, ?_⟩
  · simp only [IsDigit, isspace, Bool.or_eq_false_iff, Bool.and_eq_false_iff,
      decide_eq_false_iff_not, UInt8.le_iff_toNat_le, beq_eq_false_iff_ne, ← UInt8.toNat_inj,
      UInt8.reduceToNat, ne_eq] at h ⊢
    omega
  · rintro rfl
    exact absurd h (by decide)
  · rintro rfl
    exact absurd h (by decide)

theorem takeWhile_isDigit (k : Nat) :
    ((numeral 10 k).map digitChar).takeWhile (IsDigit ·) = (numeral 10 k).map digitChar := by
  rw [List.takeWhile_eq_self_iff]
  intro c hc
  obtain ⟨d, hd, rfl⟩ := List.mem_map.mp hc
  exact decide_eq_true (digitChar_decimal ((isNumeral_numeral (by norm_num) k).digit d hd)).1

theorem decimal_numeral (k : Nat) : decimal ((numeral 10 k).map digitChar) = k := by
  have hback : ∀ d ∈ numeral 10 k, (digitChar d).toNat - 48 = d := fun d hd =>
    (digitChar_decimal ((isNumeral_numeral (by norm_num) k).digit d hd)).2
  rw [decimal_map hback, value_numeral]

theorem exists_digit (k : Nat) :
    ∃ c w, (numeral 10 k).map digitChar = c :: w ∧ IsDigit c := by
  have hn := isNumeral_numeral (show 2 ≤ 10 by norm_num) k
  obtain ⟨d, ds, hds⟩ := List.exists_cons_of_ne_nil hn.ne
  refine ⟨digitChar d, ds.map digitChar, by rw [hds]; rfl, ?_⟩
  exact (digitChar_decimal (hn.digit d (hds ▸ List.mem_cons_self))).1

theorem atol_text (hlow : -2^31 ≤ n) (hhigh : n < 2^31) : atol (text 10 n) = n := by
  obtain ⟨c, w, hcw, hc⟩ := exists_digit n.natAbs
  obtain ⟨hspace, hminus, hplus⟩ := isspace_of_isDigit hc
  have hvalue := decimal_numeral n.natAbs
  have hdigits := takeWhile_isDigit n.natAbs
  rw [hcw] at hvalue hdigits
  rw [atol, text, hcw, sign]
  split
  · next hneg =>
    have hskip : ([45] ++ c :: w).dropWhile isspace = 45 :: c :: w := rfl
    simp only [hskip, List.head?_cons, if_true, List.tail_cons, hdigits, hvalue]
    omega
  · next hpos =>
    have hskip : ([] ++ c :: w).dropWhile isspace = c :: w := by
      simp [hspace]
    simp only [hskip, List.head?_cons, Option.some.injEq, if_neg hminus, if_neg hplus, hdigits,
      hvalue]
    omega

theorem toInt_ofNumber (hlow : -2^31 < n) (hhigh : n < 2^31) (a : Option Alloc) :
    ∃ s, ofNumber (text 10 n) a = .ok s ∧ s.toInt = .ok (if a = none then 0 else n) := by
  have hnul := nul_not_mem_text (show 2 ≤ 10 by norm_num) (by norm_num) n
  have hlen := length_text_le (show 2 ≤ 10 by norm_num) (v := n) (k := 10) (by norm_num) (by omega)
  rw [ofNumber, assignCstr, Nat.mod_eq_of_lt (by omega)]
  cases a with
  | none => exact ⟨init, copy_refused init_contents ⟨rfl, .inl rfl⟩ (by omega), rfl⟩
  | some al =>
    obtain ⟨s, v, hs, hv, hkept⟩ := copy_contents (a := some al) init_contents hnul (by omega)
    obtain ⟨rfl, hb⟩ := hkept (by simp [Refused])
    obtain ⟨rest, hh⟩ := hv.holds hb
    refine ⟨s, hs, ?_⟩
    rw [toInt, if_neg hb, hh.buffer, Buffer.bytes, ok_bind, cstring_append hnul, ok_bind,
      atol_text hlow.le hhigh]
    rfl

theorem converts (hb : 2 ≤ base) (hb' : base ≤ 16) (hlow : -2^31 < n) (hhigh : n < 2^31)
    (hu : u < 2^32) (junk : List UInt8) (ha : a ≠ none ∨ n = 0) : Converts n u base junk a where
  signed := by
    have h := writes_of_eq hb (signed_fits hb hb' hlow hhigh junk)
    exact ⟨h, h⟩
  unsigned := by
    have h := writes_of_eq hb (unsigned_fits hb hb' hu junk)
    exact ⟨h, h⟩
  string := by
    have h := withText_eq hb hb' (signed_fits hb hb' hlow hhigh junk) fun t => ofNumber t a
    exact ⟨_, isText_text hb n, h, h⟩
  concat := by
    refine ⟨_, isText_text (by norm_num) n, fun s => ?_⟩
    have h := withText_eq (by norm_num) (by norm_num) (signed_fits_decimal hlow hhigh junk)
      fun t => s.concatNumber t a
    exact ⟨h, h⟩
  unsignedString := by
    have h := withText_eq hb hb' (unsigned_fits hb hb' hu junk) fun t => ofNumber t a
    exact ⟨_, isText_text hb u, h, h⟩
  unsignedConcat := by
    refine ⟨_, isText_text (by norm_num) u, fun s => ?_⟩
    have h := withText_eq (by norm_num) (by norm_num) (unsigned_fits_decimal hu junk)
      fun t => s.concatNumber t a
    exact ⟨h, h⟩
  toInt := by
    have hten : (2 ≤ 10) := by norm_num
    have h := withText_eq hten (by norm_num) (signed_fits hten (by norm_num) hlow hhigh junk)
      fun t => ofNumber t a
    obtain ⟨s, hs, hvalue⟩ := toInt_ofNumber hlow hhigh a
    refine ⟨s, h.trans hs, ?_⟩
    rw [hvalue]
    split
    · next hnone => rw [ha.resolve_left (not_not.mpr hnone)]
    · rfl

/-- Exactly the most negative number is not converted; to be read back from a String, a number
needs the memory for it. -/
theorem converts_iff (hb : 2 ≤ base) (hb' : base ≤ 16) (hlow : -2^31 ≤ n) (hhigh : n < 2^31)
    (hu : u < 2^32) (junk : List UInt8) (a : Option Alloc) :
    Converts n u base junk a ↔ n ≠ -2^31 ∧ (a ≠ none ∨ n = 0) := by
  constructor
  · intro h
    have hmin : n ≠ -2^31 := by
      rintro rfl
      obtain ⟨t, rest, -, ht⟩ := h.signed.1
      exact signed_min hb hb' _ _ ht
    refine ⟨hmin, ?_⟩
    by_contra hnot
    obtain ⟨hnone, hzero⟩ := not_or.mp hnot
    have hten : (2 ≤ 10) := by norm_num
    have hstring := withText_eq hten (by norm_num)
      (signed_fits hten (by norm_num) (by omega) hhigh junk) fun t => ofNumber t a
    obtain ⟨s, hs, hvalue⟩ := toInt_ofNumber (n := n) (by omega) hhigh a
    obtain ⟨s', hs', hvalue'⟩ := h.toInt
    obtain rfl := Except.ok.inj ((hstring.trans hs).symm.trans hs')
    rw [hvalue, if_pos (not_not.mp hnone)] at hvalue'
    exact hzero (Except.ok.inj hvalue').symm
  · intro h
    exact converts hb hb' (by omega) hhigh hu junk h.2

/-- -255 in base 16, and 7. -/
theorem converts_iff_hex : Converts (-255) 7 16 [] (some ⟨[], false⟩) :=
  (converts_iff (by norm_num) (by norm_num) (by norm_num) (by norm_num) (by norm_num) []
    (some ⟨[], false⟩)).mpr ⟨by norm_num, .inl (by simp)⟩

/-- String(-2147483648) reads in front of the digits. -/
theorem int_min_not_converted :
    ofInt (-2^31) 10 [] (some ⟨[], false⟩) = .error .outside ∧
      ¬ Converts (-2^31) 0 10 [] (some ⟨[], false⟩) := by
  refine ⟨by decide, fun h => ?_⟩
  obtain ⟨t, rest, -, ht⟩ := h.signed.1
  exact signed_min (by norm_num) (by norm_num) _ _ ht

end RasPiArduino.WString
