import RasPiArduino.CMemory
import RasPiArduino.Numerals

/-! Print.cpp: the integers that print() writes. An int and a long have 32 bits. -/
namespace RasPiArduino.Print
open CMemory Numerals
variable {σ : Type}

/-- write(byte) of a class that is a Print: the state after it, and what it returns. -/
structure Sink (σ : Type) where
  write : σ → UInt8 → σ × Nat

def writeLoop (w : Sink σ) : List UInt8 → σ → Nat → σ × Nat
  | [], s, n => (s, n)
  | c :: buffer, s, n =>
    let (s, k) := w.write s c
    writeLoop w buffer s (n + k)

def write (w : Sink σ) (s : σ) (buffer : List UInt8) : σ × Nat := writeLoop w buffer s 0

def printChar (w : Sink σ) (s : σ) (c : UInt8) : σ × Nat := w.write s c

def digit (c : Nat) : UInt8 := if c < 10 then .ofNat (c + 48) else .ofNat (c + 65 - 10)

def numberLoop (base : Nat) : Nat → List UInt8 → Nat → Except Fault (List UInt8 × Nat)
  | 0, _, _ => .error .outside
  | str+1, buf, m => do
    let n := m / base
    let c := m - base * n
    let buf ← put buf str (digit c)
    if n ≠ 0 then numberLoop base str buf n else .ok (buf, str)

def printNumber (w : Sink σ) (s : σ) (n base : Nat) (junk : List UInt8) : Except Fault (σ × Nat) := do
  let buf ← put (resize [] junk (8 * 4 + 1)) (8 * 4) 0
  let base := if base % 256 < 2 then 10 else base % 256
  let (buf, str) ← numberLoop base (8 * 4) buf n
  let t ← cstring (buf.drop str)
  .ok (write w s t)

/-- The conversion of a long to unsigned. -/
def toUnsigned (n : Int) : Nat := (n % 2^32).toNat

def printUnsignedLong (w : Sink σ) (s : σ) (n base : Nat) (junk : List UInt8) :
    Except Fault (σ × Nat) :=
  if base = 0 then .ok (w.write s (.ofNat n)) else printNumber w s n base junk

def printLong (w : Sink σ) (s : σ) (n : Int) (base : Nat) (junk : List UInt8) :
    Except Fault (σ × Nat) :=
  if base = 0 then .ok (w.write s (.ofNat (toUnsigned n)))
  else if base = 10 then
    if n < 0 then do
      let (s, t) := printChar w s 45
      let n := Int.bmod (-n) (2^32)
      let (s, k) ← printNumber w s (toUnsigned n) 10 junk
      .ok (s, k + t)
    else printNumber w s (toUnsigned n) 10 junk
  else printNumber w s (toUnsigned n) base junk

def printUnsignedInt (w : Sink σ) (s : σ) (n base : Nat) (junk : List UInt8) :
    Except Fault (σ × Nat) :=
  printUnsignedLong w s n base junk

def printInt (w : Sink σ) (s : σ) (n : Int) (base : Nat) (junk : List UInt8) :
    Except Fault (σ × Nat) :=
  printLong w s n base junk

def written (w : Sink σ) (s : σ) (t : List UInt8) : σ := t.foldl (fun s c => (w.write s c).1) s

def Accepts (w : Sink σ) : σ → List UInt8 → Prop
  | _, [] => True
  | s, c :: t => (w.write s c).2 = 1 ∧ Accepts w (w.write s c).1 t

/-- The call writes the bytes, and returns their number if each write succeeds. -/
def Prints (w : Sink σ) (s : σ) (t : List UInt8) (x : Except Fault (σ × Nat)) : Prop :=
  ∃ k, x = .ok (written w s t, k) ∧ (Accepts w s t → k = t.length)

def log : Sink (List UInt8) where
  write s c := (s ++ [c], 1)

def text (base : Nat) (n : Int) : List UInt8 :=
  (if n < 0 then [45] else []) ++ (numeral base n.natAbs).map digit

variable {w : Sink σ} {s : σ} {t p q : List UInt8} {base n k : Nat}

theorem writeLoop_eq (w : Sink σ) (s : σ) (t : List UInt8) (n : Nat) :
    ∃ k, writeLoop w t s n = (written w s t, n + k) ∧ (Accepts w s t → k = t.length) := by
  induction t generalizing s n with
  | nil => exact ⟨0, rfl, fun _ => rfl⟩
  | cons c t ih =>
    obtain ⟨k, hk, hcount⟩ := ih (w.write s c).1 (n + (w.write s c).2)
    refine ⟨(w.write s c).2 + k, ?_, fun h => ?_⟩
    · rw [Nat.add_assoc] at hk
      exact hk
    · rw [h.1, hcount h.2, List.length_cons, Nat.add_comm]

theorem write_prints (w : Sink σ) (s : σ) (t : List UInt8) : Prints w s t (.ok (write w s t)) := by
  obtain ⟨k, hk, hcount⟩ := writeLoop_eq w s t 0
  rw [Nat.zero_add] at hk
  exact ⟨k, congrArg Except.ok hk, hcount⟩

theorem written_log (s t : List UInt8) : written log s t = s ++ t := by
  induction t generalizing s with
  | nil => rw [List.append_nil]; rfl
  | cons x t ih =>
    have hrest := ih (s ++ [x])
    rw [List.append_assoc, List.singleton_append] at hrest
    exact hrest

theorem sub_mul_div (m base : Nat) : m - base * (m / base) = m % base := by
  have h := Nat.div_add_mod m base
  omega

theorem numberLoop_spec (hb : 2 ≤ base) (h : (backwards base n).length ≤ p.length)
    (q : List UInt8) :
    numberLoop base p.length (p ++ q) n =
      .ok (p.take (p.length - (backwards base n).length) ++ ((numeral base n).map digit ++ q),
        p.length - (backwards base n).length) := by
  induction p using List.reverseRecOn generalizing n q with
  | nil =>
    have hnil := List.eq_nil_of_length_eq_zero (Nat.le_zero.mp h)
    exact absurd hnil (backwards_ne_nil hb n)
  | append_singleton p x ih =>
    rw [List.length_append, List.length_singleton] at h ⊢
    rw [numeral, backwards_eq hb] at *
    simp only [numberLoop, sub_mul_div, List.append_assoc, List.singleton_append, put_append,
      ok_bind]
    by_cases hlast : n / base = 0
    · simp [hlast]
    · rw [if_neg hlast, List.length_cons] at h
      have hrest := ih (n := n / base) (by omega) (digit (n % base) :: q)
      have hplace : p.length + 1 - ((backwards base (n / base)).length + 1) =
        p.length - (backwards base (n / base)).length := by omega
      rw [if_neg hlast, if_pos hlast, hrest, List.length_cons, hplace,
        List.take_append_of_le_length (by omega)]
      simp [numeral]

theorem digit_ne_zero {c : Nat} (hc : c < 36) : digit c ≠ 0 := by
  have hall : ∀ c < 36, digit c ≠ 0 := by decide
  exact hall c hc

theorem nul_not_mem_map (hb : 2 ≤ base) (hb' : base ≤ 36) (n : Nat) :
    0 ∉ (numeral base n).map digit := by
  intro hmem
  obtain ⟨c, hc, h0⟩ := List.mem_map.mp hmem
  have hlt := (isNumeral_numeral hb n).digit c hc
  exact digit_ne_zero (by omega) h0

theorem digit_toNat {k : Nat} (hk : k < 10) : (digit k).toNat = k + 48 := by
  have hall : ∀ k < 10, (digit k).toNat = k + 48 := by decide
  exact hall k hk

theorem isDigit_digit {k : Nat} (hk : k < 10) : IsDigit (digit k) := by
  rw [IsDigit, digit_toNat hk]
  omega

theorem isDigit_numeral (k : Nat) : ∀ x ∈ (numeral 10 k).map digit, IsDigit x := by
  intro x hx
  obtain ⟨j, hj, rfl⟩ := List.mem_map.mp hx
  exact isDigit_digit ((isNumeral_numeral (show 2 ≤ 10 by omega) k).digit j hj)

/-- The numeral of 32 bits has at most 32 digits, and the NUL stays behind it. -/
theorem printNumber_prints (w : Sink σ) (s : σ) (hb : 2 ≤ base) (hb' : base ≤ 36) (hn : n < 2^32)
    (junk : List UInt8) :
    Prints w s ((numeral base n).map digit) (printNumber w s n base junk) := by
  have hpow : 2^32 ≤ base^32 := Nat.pow_le_pow_left hb 32
  have hlen := length_backwards_le hb (n := n) (k := 32) (by norm_num) (by omega)
  obtain ⟨p, x, hp, hpx⟩ : ∃ p x, p.length = 32 ∧ resize [] junk (8 * 4 + 1) = p ++ [x] := by
    cases List.eq_nil_or_concat (resize [] junk (8 * 4 + 1)) with
    | inl hnil =>
      have h0 := congrArg List.length hnil
      rw [length_resize] at h0
      cases h0
    | inr hlast =>
      obtain ⟨p, x, hpx⟩ := hlast
      have h0 := congrArg List.length hpx
      rw [length_resize, List.length_concat] at h0
      rw [List.concat_eq_append] at hpx
      exact ⟨p, x, by omega, hpx⟩
  have hput : put (p ++ [x]) (8 * 4) 0 = .ok (p ++ [0]) := by
    have h := put_append p [] x 0
    rwa [hp] at h
  have hloop := numberLoop_spec hb (n := n) (p := p) (by omega) [0]
  rw [hp] at hloop
  obtain ⟨g, hg⟩ : ∃ g, g = p.take (32 - (backwards base n).length) := ⟨_, rfl⟩
  have hglen : 32 - (backwards base n).length = g.length := by
    rw [hg, List.length_take]
    omega
  rw [← hg, hglen] at hloop
  have hbase : (if base % 256 < 2 then 10 else base % 256) = base := by
    rw [Nat.mod_eq_of_lt (by omega), if_neg (by omega)]
  simp only [printNumber, hpx, hput, hbase, ok_bind, hloop, List.drop_left,
    cstring_append (nul_not_mem_map hb hb' n)]
  exact write_prints w s _

theorem printUnsignedLong_prints (w : Sink σ) (s : σ) (hb : 2 ≤ base) (hb' : base ≤ 36)
    (hn : n < 2^32) (junk : List UInt8) :
    Prints w s ((numeral base n).map digit) (printUnsignedLong w s n base junk) := by
  rw [printUnsignedLong, if_neg (by omega)]
  exact printNumber_prints w s hb hb' hn junk

theorem toUnsigned_neg {v : Int} (hlow : -2^31 ≤ v) (hneg : v < 0) :
    toUnsigned (Int.bmod (-v) (2^32)) = v.natAbs := by
  rw [toUnsigned, Int.bmod_eq_emod]
  split <;> omega

theorem printLong_prints (w : Sink σ) (s : σ) {v : Int} (hlow : -2^31 ≤ v) (hhigh : v < 2^31)
    (junk : List UInt8) : Prints w s (text 10 v) (printLong w s v 10 junk) := by
  rw [printLong, if_neg (by norm_num), if_pos rfl, text]
  split
  · next hneg =>
    obtain ⟨k, hk, hcount⟩ := printNumber_prints w (printChar w s 45).1 (show 2 ≤ 10 by norm_num)
      (by norm_num) (show v.natAbs < 2^32 by omega) junk
    refine ⟨k + (w.write s 45).2, ?_, fun h => ?_⟩
    · simp only [toUnsigned_neg hlow hneg, hk, ok_bind]
      rfl
    · rw [h.1, hcount h.2]
      simp
  · next hpos =>
    have hn : toUnsigned v = v.natAbs := by
      rw [toUnsigned]
      omega
    rw [hn, List.nil_append]
    exact printNumber_prints w s (by norm_num) (by norm_num) (by omega) junk

def IsText (base : Nat) (n : Int) (t : List UInt8) : Prop :=
  ∃ ds, IsNumeral base n.natAbs ds ∧ t = (if n < 0 then [45] else []) ++ ds.map digit

structure PrintsNumbers (w : Sink σ) (s : σ) (n base : Nat) (v : Int) (junk : List UInt8) :
    Prop where
  unsigned : ∃ t, IsText base n t ∧ Prints w s t (printUnsignedLong w s n base junk) ∧
    Prints w s t (printUnsignedInt w s n base junk)
  signed : ∃ t, IsText 10 v t ∧ Prints w s t (printLong w s v 10 junk) ∧
    Prints w s t (printInt w s v 10 junk)

theorem prints_numbers (w : Sink σ) (s : σ) (hb : 2 ≤ base) (hb' : base ≤ 36) (hn : n < 2^32)
    {v : Int} (hlow : -2^31 ≤ v) (hhigh : v < 2^31) (junk : List UInt8) :
    PrintsNumbers w s n base v junk where
  unsigned := by
    have h := printUnsignedLong_prints w s hb hb' hn junk
    refine ⟨_, ⟨_, isNumeral_numeral hb n, ?_⟩, h, h⟩
    rw [if_neg (by omega), List.nil_append]
  signed := by
    have h := printLong_prints w s hlow hhigh junk
    exact ⟨_, ⟨_, isNumeral_numeral (by norm_num) v.natAbs, rfl⟩, h, h⟩

theorem prints_numbers_min : PrintsNumbers log [] 4294967295 2 (-2^31) [] :=
  prints_numbers log [] (by norm_num) (by norm_num) (by norm_num) (by norm_num) (by norm_num) []

end RasPiArduino.Print
