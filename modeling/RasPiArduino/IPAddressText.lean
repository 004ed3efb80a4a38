import RasPiArduino.IPAddress
import RasPiArduino.Print

/-! The text of an address: what printTo() writes, and that fromString() reads it back. -/
namespace RasPiArduino.IPAddress
open CMemory Numerals Print
variable {σ : Type}

def byte (ip : IPAddress) (i : Fin 4) : UInt8 := ip.bytes.get i

/-- _address.dword, on a machine with the low byte first. -/
def dword (ip : IPAddress) : Nat :=
  (ip.byte 0).toNat + 2^8 * (ip.byte 1).toNat + 2^16 * (ip.byte 2).toNat +
    2^24 * (ip.byte 3).toNat

def eq (ip addr : IPAddress) : Bool := ip.dword == addr.dword

def printUnsignedChar (w : Sink σ) (s : σ) (b : UInt8) (base : Nat) (junk : List UInt8) :
    Except Fault (σ × Nat) :=
  printUnsignedLong w s b.toNat base junk

def printLoop (w : Sink σ) (junk : List UInt8) : List UInt8 → σ → Nat → Except Fault (σ × Nat)
  | [], s, n => .ok (s, n)
  | b :: bs, s, n => do
    let (s, k) ← printUnsignedChar w s b 10 junk
    let (s, m) := printChar w s 46
    printLoop w junk bs s (n + k + m)

def printTo (w : Sink σ) (s : σ) (ip : IPAddress) (junk : List UInt8) : Except Fault (σ × Nat) := do
  let (s, n) ← printLoop w junk [ip.byte 0, ip.byte 1, ip.byte 2] s 0
  let (s, k) ← printUnsignedChar w s (ip.byte 3) 10 junk
  .ok (s, n + k)

def octet (b : UInt8) : List UInt8 := (numeral 10 b.toNat).map digit

def text (ip : IPAddress) : List UInt8 := [46].intercalate (ip.bytes.toList.map octet)

def Plain (f : List UInt8) : Prop := f ≠ [] ∧ (f.head? = some 48 → f = [48])

variable {w : Sink σ} {s : σ} {t u a f : List UInt8} {b : UInt8} {k : Nat} {ip x y : IPAddress}

theorem octet_field (b : UInt8) : Field (octet b) ∧ decimal (octet b) = b.toNat := by
  have hnum := isNumeral_numeral (show 2 ≤ 10 by omega) b.toNat
  have hback : ∀ d ∈ numeral 10 b.toNat, (digit d).toNat - 48 = d := by
    intro d hd
    rw [digit_toNat (hnum.digit d hd), Nat.add_sub_cancel]
  have hvalue : decimal (octet b) = b.toNat := by
    rw [octet, decimal_map hback, value_numeral]
  have hlt := b.toNat_lt
  exact ⟨⟨isDigit_numeral b.toNat, by omega⟩, hvalue⟩

theorem isDigit_ne_dot (h : ∀ c ∈ f, IsDigit c) : 46 ∉ f :=
  fun hmem => absurd (h 46 hmem) (by decide)

theorem fields_text (ip : IPAddress) : fields (text ip) = ip.bytes.toList.map octet := by
  rw [fields, text, List.splitOn_intercalate]
  · intro f hf
    obtain ⟨b, -, rfl⟩ := List.mem_map.mp hf
    exact isDigit_ne_dot (octet_field b).1.1
  · intro hnil
    have hlen := congrArg List.length hnil
    simp at hlen

theorem Plain.eq_octet (hp : Plain f) (hf : Field f) (hb : decimal f = b.toNat) : f = octet b := by
  have hdigit : ∀ c ∈ f, c.toNat - 48 < 10 ∧ digit (c.toNat - 48) = c := by
    intro c hc
    obtain ⟨hlow, hhigh⟩ := hf.1 c hc
    refine ⟨by omega, UInt8.toNat_inj.mp ?_⟩
    rw [digit_toNat (by omega)]
    omega
  have hnum : IsNumeral 10 b.toNat (f.map fun c => c.toNat - 48) := by
    refine ⟨by simpa using hp.1, ?_, ?_, ?_⟩
    · intro d hd
      obtain ⟨c, hc, rfl⟩ := List.mem_map.mp hd
      exact (hdigit c hc).1
    · intro hhead
      cases f with
      | nil => exact absurd rfl hp.1
      | cons c f =>
        have hzero : c.toNat - 48 = 0 := by simpa using hhead
        have hc : c = 48 := by
          rw [← (hdigit c List.mem_cons_self).2, hzero]
          rfl
        rw [hp.2 (by rw [hc]; rfl)]
        rfl
    · rw [← decimal_eq_value, hb]
  rw [octet, ← hnum.unique (by omega), List.map_map]
  exact ((List.map_congr_left fun c hc => (hdigit c hc).2).trans (List.map_id f)).symm

/-! What is written. -/

theorem written_append (w : Sink σ) (s : σ) (t u : List UInt8) :
    written w s (t ++ u) = written w (written w s t) u := List.foldl_append

theorem accepts_append (w : Sink σ) (s : σ) (t u : List UInt8) :
    Accepts w s (t ++ u) ↔ Accepts w s t ∧ Accepts w (written w s t) u := by
  induction t generalizing s with
  | nil => exact (and_iff_right trivial).symm
  | cons c t ih => exact (and_congr_right' (ih _)).trans and_assoc.symm

theorem printUnsignedChar_prints (w : Sink σ) (s : σ) (b : UInt8) (junk : List UInt8) :
    Prints w s (octet b) (printUnsignedChar w s b 10 junk) := by
  have hlt := b.toNat_lt
  exact printUnsignedLong_prints w s (by omega) (by omega) (by omega) junk

theorem printLoop_prints (w : Sink σ) (junk bs : List UInt8) (s : σ) (n : Nat) :
    ∃ k, printLoop w junk bs s n =
        .ok (written w s (bs.flatMap fun b => octet b ++ [46]), n + k) ∧
      (Accepts w s (bs.flatMap fun b => octet b ++ [46]) →
        k = (bs.flatMap fun b => octet b ++ [46]).length) := by
  induction bs generalizing s n with
  | nil => exact ⟨0, rfl, fun _ => rfl⟩
  | cons b bs ih =>
    obtain ⟨k, hk, hcount⟩ := printUnsignedChar_prints w s b junk
    obtain ⟨l, hl, hrest⟩ := ih (printChar w (written w s (octet b)) 46).1
      (n + k + (printChar w (written w s (octet b)) 46).2)
    have hdot : written w s (octet b ++ [46]) = (printChar w (written w s (octet b)) 46).1 :=
      written_append w s (octet b) [46]
    rw [List.flatMap_cons, accepts_append, accepts_append, written_append, hdot]
    refine ⟨k + (printChar w (written w s (octet b)) 46).2 + l, ?_, ?_⟩
    · rw [printLoop, hk, ok_bind]
      dsimp only
      rw [hl, Nat.add_assoc, Nat.add_assoc, Nat.add_assoc]
    · rintro ⟨⟨hb, hone, -⟩, hbs⟩
      have h46 : (printChar w (written w s (octet b)) 46).2 = 1 := hone
      rw [hcount hb, h46, hrest hbs, List.length_append, List.length_append]
      rfl

theorem toList_bytes (ip : IPAddress) :
    ip.bytes.toList = [ip.byte 0, ip.byte 1, ip.byte 2, ip.byte 3] :=
  match ip with
  | ⟨⟨⟨[_, _, _, _]⟩, _⟩⟩ => rfl

theorem text_eq (ip : IPAddress) : text ip =
    [ip.byte 0, ip.byte 1, ip.byte 2].flatMap (fun b => octet b ++ [46]) ++
      octet (ip.byte 3) := by
  rw [text, toList_bytes]
  simp

theorem printTo_prints (w : Sink σ) (s : σ) (ip : IPAddress) (junk : List UInt8) :
    Prints w s (text ip) (printTo w s ip junk) := by
  obtain ⟨n, hn, hcount⟩ := printLoop_prints w junk
    [ip.byte 0, ip.byte 1, ip.byte 2] s 0
  generalize hu : [ip.byte 0, ip.byte 1, ip.byte 2].flatMap (fun b => octet b ++ [46]) = u
    at hn hcount
  obtain ⟨k, hk, hlast⟩ := printUnsignedChar_prints w (written w s u) (ip.byte 3) junk
  rw [text_eq, hu]
  refine ⟨n + k, ?_, ?_⟩
  · rw [printTo, hn, ok_bind]
    dsimp only
    rw [hk, ok_bind, written_append, Nat.zero_add]
  · rw [accepts_append]
    rintro ⟨h₁, h₂⟩
    rw [hcount h₁, hlast h₂, List.length_append]

/-! What is read back. -/

theorem eq_of_bytes (h : x.bytes = y.bytes) : x = y := by
  cases x
  cases y
  exact congrArg mk h

theorem dword_injective (h : x.dword = y.dword) : x = y := by
  have hx (i : Fin 4) : (x.byte i).toNat < 2^8 := (x.byte i).toNat_lt
  have hy (i : Fin 4) : (y.byte i).toNat < 2^8 := (y.byte i).toNat_lt
  have h0 := hx 0
  have h1 := hx 1
  have h2 := hx 2
  have k0 := hy 0
  have k1 := hy 1
  have k2 := hy 2
  rw [dword, dword] at h
  have hbytes : ∀ i : Fin 4, (x.byte i).toNat = (y.byte i).toNat
    | 0 => by omega
    | 1 => by omega
    | 2 => by omega
    | 3 => by omega
  exact eq_of_bytes (Vector.ext fun i hi => UInt8.toNat_inj.mp (hbytes ⟨i, hi⟩))

theorem eq_iff : x.eq y = true ↔ x = y := by
  rw [eq, beq_iff_eq]
  exact ⟨dword_injective, fun h => by rw [h]⟩

theorem getD_octets (ip : IPAddress) {i : Nat} (hi : i < 4) :
    (ip.bytes.toList.map octet).getD i [] = octet ip.bytes[i] := by
  rw [List.getD_eq_getElem _ _ (by simpa using hi), List.getElem_map]
  simp

theorem quad_text (ip : IPAddress) : Quad (text ip) := by
  rw [Quad, fields_text]
  refine ⟨by simp, fun f hf => ?_⟩
  obtain ⟨b, -, rfl⟩ := List.mem_map.mp hf
  exact (octet_field b).1

theorem fromString_text (x y : IPAddress) : y.fromString (text x) = .ok (true, x) := by
  obtain ⟨b, y', hrun, h⟩ := fromString_scanned y (text x)
  obtain rfl : b = true := h.accepted.mpr (quad_text x)
  have hsame : y' = x := by
    apply eq_of_bytes
    ext i hi
    rw [h.bytes i hi, if_pos ⟨Nat.zero_le i, .inl rfl⟩, Nat.sub_zero, fields_text,
      getD_octets x hi, (octet_field x.bytes[i]).2, UInt8.ofNat_toNat]
  rw [hrun, hsame]

theorem text_of_fromString (h : x.fromString a = .ok (true, y)) (hp : ∀ f ∈ fields a, Plain f) :
    text y = a := by
  obtain ⟨b, y', hrun, hs⟩ := fromString_scanned x a
  obtain ⟨rfl, rfl⟩ := Prod.mk.inj (Except.ok.inj (hrun.symm.trans h))
  obtain ⟨hlen, hall⟩ : Quad a := hs.accepted.mp rfl
  have hfields : y'.bytes.toList.map octet = fields a := by
    apply List.ext_getElem
    · rw [List.length_map, Vector.length_toList, hlen]
    · intro i h₁ h₂
      have hi : i < 4 := by rw [hlen] at h₂; exact h₂
      have hmem := List.getElem_mem h₂
      have hbyte := hs.bytes i hi
      rw [if_pos ⟨Nat.zero_le i, .inl rfl⟩, Nat.sub_zero, List.getD_eq_getElem _ _ h₂] at hbyte
      have hvalue : decimal (fields a)[i] = y'.bytes[i].toNat := by
        rw [hbyte, decimal_byte (hall _ hmem)]
      rw [(hp _ hmem).eq_octet (hall _ hmem) hvalue]
      simp
  rw [text, hfields, fields, List.intercalate_splitOn]

structure RoundTrip (x y : IPAddress) (a junk : List UInt8) : Prop where
  parsed : ∃ t, (∀ {σ : Type} (w : Sink σ) (s : σ), Prints w s t (x.printTo w s junk)) ∧
    ∃ y', y.fromString t = .ok (true, y') ∧ y'.eq x = true
  printed : ∀ x', x.fromString a = .ok (true, x') → (∀ f ∈ fields a, Plain f) →
    ∀ {σ : Type} (w : Sink σ) (s : σ), Prints w s a (x'.printTo w s junk)

theorem round_trip (x y : IPAddress) (a junk : List UInt8) : RoundTrip x y a junk where
  parsed := ⟨text x, fun w s => printTo_prints w s x junk, x, fromString_text x y,
    eq_iff.mpr rfl⟩
  printed x' h hp _ w s := by
    rw [← text_of_fromString h hp]
    exact printTo_prints w s x' junk

end RasPiArduino.IPAddress
