import RasPiArduino.CMemory

/-! IPAddress::fromString(): which strings it accepts, and which bytes it stores before it
gives a string up. -/
namespace RasPiArduino
open CMemory

structure IPAddress where
  bytes : Vector UInt8 4
  deriving DecidableEq, Repr

namespace IPAddress

def store (ip : IPAddress) (i : Nat) (v : UInt8) : Except Fault IPAddress :=
  if h : i < 4 then .ok ⟨ip.bytes.set i v⟩ else .error .outside

structure Scan where
  acc : Nat
  dots : Nat
  ip : IPAddress
  deriving DecidableEq, Repr

def body (c : UInt8) (s : Scan) : Except Fault (Option Scan) :=
  if IsDigit c then
    let acc := (s.acc * 10 + (c.toNat - 48)) % 2^16
    if acc > 255 then .ok none else .ok (some { s with acc })
  else if c = 46 then
    if s.dots = 3 then .ok none
    else do
      let ip ← s.ip.store s.dots (UInt8.ofNat s.acc)
      .ok (some ⟨0, s.dots+1, ip⟩)
  else .ok none

def scan : List UInt8 → Scan → Except Fault (Bool × IPAddress)
  | [], s =>
    if s.dots ≠ 3 then .ok (false, s.ip)
    else do
      let ip ← s.ip.store 3 (UInt8.ofNat s.acc)
      .ok (true, ip)
  | c :: a, s => do
    match ← body c s with
    | none => .ok (false, s.ip)
    | some s => scan a s

def fromString (ip : IPAddress) (a : List UInt8) : Except Fault (Bool × IPAddress) :=
  scan a ⟨0, 0, ip⟩

inductive Reaches (ip : IPAddress) : List UInt8 → Scan → Prop
  | start : Reaches ip [] ⟨0, 0, ip⟩
  | next {p : List UInt8} {c : UInt8} {s s' : Scan} (h : Reaches ip p s)
      (hstep : body c s = .ok (some s')) : Reaches ip (p ++ [c]) s'

/-- What the loop computes fits in 16 bits at every digit. -/
def NeverWraps (ip : IPAddress) (a : List UInt8) : Prop :=
  ∀ p s c, p ++ [c] <+: a → Reaches ip p s → IsDigit c → s.acc * 10 + (c.toNat - 48) < 2^16

def fields (a : List UInt8) : List (List UInt8) := a.splitOn 46

/-- Decimal digits, if any, with value at most 255. -/
def Field (f : List UInt8) : Prop := (∀ c ∈ f, IsDigit c) ∧ decimal f ≤ 255

instance (f : List UInt8) : Decidable (Field f) :=
  inferInstanceAs (Decidable ((∀ c ∈ f, IsDigit c) ∧ decimal f ≤ 255))

def Quad (a : List UInt8) : Prop := (fields a).length = 4 ∧ ∀ f ∈ fields a, Field f

instance (a : List UInt8) : Decidable (Quad a) := inferInstanceAs (Decidable (_ ∧ _))

def Dotted (a : List UInt8) : Prop := Quad a ∧ ∀ f ∈ fields a, f ≠ []

/-- The first fields up to the one with number `i`, and a dot behind each of them. -/
def Complete (fs : List (List UInt8)) (i : Nat) : Prop :=
  i + 1 < fs.length ∧ ∀ f ∈ fs.take (i+1), Field f

instance (fs : List (List UInt8)) (i : Nat) : Decidable (Complete fs i) :=
  inferInstanceAs (Decidable (_ ∧ _))

/-- fromString() takes the dotted strings, stores their numbers, and never wraps. -/
def Reads (ip : IPAddress) (a : List UInt8) : Prop :=
  ∃ b ip', fromString ip a = .ok (b, ip') ∧ (b = true ↔ Dotted a) ∧
    (b = true → ∀ i (h : i < 4), (ip'.bytes[i]).toNat = decimal ((fields a).getD i [])) ∧
    NeverWraps ip a

/-- The numbers at the beginning of a string that is given up stay behind, as far as they end
with a dot. -/
def LeftBehind (ip : IPAddress) (a : List UInt8) (ip' : IPAddress) : Prop :=
  ∀ i (h : i < 4),
    (i < 3 ∧ Complete (fields a) i → (ip'.bytes[i]).toNat = decimal ((fields a).getD i [])) ∧
    (¬ (i < 3 ∧ Complete (fields a) i) → ip'.bytes[i] = ip.bytes[i])

variable {ip ip' : IPAddress} {a f p r : List UInt8} {fs : List (List UInt8)} {c : UInt8}
  {i k v : Nat} {s s' : Scan} {b : Bool}

theorem store_ok (h : i < 4) (v : UInt8) : ip.store i v = .ok ⟨ip.bytes.set i v⟩ := by
  rw [store, dif_pos h]

/-- What the digits `f` make of the accumulator. -/
def accumulate (f : List UInt8) (v : Nat) : Nat := f.foldl (fun v c => v * 10 + (c.toNat - 48)) v

theorem le_accumulate (f : List UInt8) (v : Nat) : v ≤ accumulate f v := by
  induction f generalizing v with
  | nil => exact le_rfl
  | cons c f ih =>
    calc
      v ≤ v * 10 + (c.toNat - 48) := by omega
      _ ≤ accumulate f (v * 10 + (c.toNat - 48)) := ih _

theorem digit_fits (hc : IsDigit c) (hv : v ≤ 255) : v * 10 + (c.toNat - 48) < 2^16 := by
  unfold IsDigit at hc
  omega

theorem body_digit (hc : IsDigit c) (hacc : s.acc ≤ 255) : body c s =
    if s.acc * 10 + (c.toNat - 48) ≤ 255 then
      .ok (some { s with acc := s.acc * 10 + (c.toNat - 48) })
    else .ok none := by
  rw [body, if_pos hc, Nat.mod_eq_of_lt (digit_fits hc hacc)]
  by_cases hle : s.acc * 10 + (c.toNat - 48) ≤ 255
  · simp only [if_pos hle, if_neg (Nat.not_lt.mpr hle)]
  · simp only [if_neg hle, if_pos (Nat.not_le.mp hle)]

theorem body_dot (hdots : s.dots < 3) : body 46 s =
    .ok (some ⟨0, s.dots + 1, ⟨s.ip.bytes.set s.dots (UInt8.ofNat s.acc)⟩⟩) := by
  rw [body, if_neg (by decide), if_pos rfl, if_neg (by omega), store_ok (by omega)]
  rfl

theorem body_fourth_dot (hdots : s.dots = 3) : body 46 s = .ok none := by
  rw [body, if_neg (by decide), if_pos rfl, if_pos hdots]

theorem body_other (hc : ¬ IsDigit c) (hdot : c ≠ 46) : body c s = .ok none := by
  rw [body, if_neg hc, if_neg hdot]

theorem scan_next (h : body c s = .ok (some s')) : scan (c :: a) s = scan a s' := by
  rw [scan, h]
  rfl

theorem scan_stop (h : body c s = .ok none) : scan (c :: a) s = .ok (false, s.ip) := by
  rw [scan, h]
  rfl

theorem scan_field (hdot : 46 ∉ f) (hv : v ≤ 255) :
    scan (f ++ r) ⟨v, k, ip⟩ =
      if (∀ c ∈ f, IsDigit c) ∧ accumulate f v ≤ 255 then scan r ⟨accumulate f v, k, ip⟩
      else .ok (false, ip) := by
  induction f generalizing v with
  | nil =>
    rw [if_pos ⟨by simp, hv⟩]
    rfl
  | cons c f ih =>
    obtain ⟨hc46, hdot⟩ := List.ne_and_not_mem_of_not_mem_cons hdot
    rw [List.cons_append]
    by_cases hc : IsDigit c
    · have hbody := body_digit (s := ⟨v, k, ip⟩) hc hv
      have hacc : accumulate (c :: f) v = accumulate f (v * 10 + (c.toNat - 48)) := rfl
      rw [hacc]
      by_cases hle : v * 10 + (c.toNat - 48) ≤ 255
      · rw [if_pos hle] at hbody
        rw [scan_next hbody, ih hdot hle]
        simp only [List.forall_mem_cons, hc, true_and]
      · have hgrows := le_accumulate f (v * 10 + (c.toNat - 48))
        rw [if_neg hle] at hbody
        rw [scan_stop hbody, if_neg fun h => hle (hgrows.trans h.2)]
    · rw [scan_stop (body_other hc (Ne.symm hc46)), if_neg fun h => hc (h.1 c List.mem_cons_self)]

theorem scan_field_zero (ip : IPAddress) (k : Nat) (r : List UInt8) (hdot : 46 ∉ f) :
    scan (f ++ r) ⟨0, k, ip⟩ =
      if Field f then scan r ⟨decimal f, k, ip⟩ else .ok (false, ip) :=
  scan_field hdot (Nat.zero_le 255)

theorem decimal_byte (hf : Field f) : (UInt8.ofNat (decimal f)).toNat = decimal f := by
  have hle := hf.2
  rw [UInt8.toNat_ofNat', Nat.mod_eq_of_lt (by omega)]

/-- What `scan` makes of the fields `fs`, when `k` are behind it already. -/
structure Scanned (fs : List (List UInt8)) (k : Nat) (ip : IPAddress) (b : Bool)
    (ip' : IPAddress) : Prop where
  accepted : b = true ↔ fs.length + k = 4 ∧ ∀ f ∈ fs, Field f
  bytes : ∀ i (h : i < 4), ip'.bytes[i] =
    if k ≤ i ∧ (b = true ∨ i < 3 ∧ Complete fs (i-k)) then
      UInt8.ofNat (decimal (fs.getD (i-k) []))
    else ip.bytes[i]

theorem complete_zero {g : List UInt8} (hf : Field f) : Complete (f :: g :: fs) 0 :=
  ⟨by simp, by simpa using hf⟩

theorem complete_succ (hf : Field f) : Complete (f :: fs) (i+1) ↔ Complete fs i := by
  simp only [Complete, List.length_cons, List.take_succ_cons, List.forall_mem_cons, hf, true_and,
    Nat.add_lt_add_iff_right]

theorem Complete.field (h : Complete fs i) : Field (fs.getD i []) := by
  have hi : i < fs.length := by have := h.1; omega
  rw [List.getD_eq_getElem fs [] hi]
  exact h.2 _ (List.mem_take_iff_getElem.mpr ⟨i, by omega, rfl⟩)

theorem scanned_given_up (hno : ¬ (fs.length + k = 4 ∧ ∀ f ∈ fs, Field f))
    (hnone : ∀ i, k + i < 3 → ¬ Complete fs i) : Scanned fs k ip false ip where
  accepted := by simpa using hno
  bytes i h := by
    rw [if_neg]
    rintro ⟨hki, hb | ⟨hi, hc⟩⟩
    · cases hb
    · exact hnone (i-k) (by omega) hc

theorem scanned_last (hf : Field f) :
    Scanned [f] 3 ip true ⟨ip.bytes.set 3 (UInt8.ofNat (decimal f))⟩ where
  accepted := by simpa using hf
  bytes i h := by
    rw [Vector.getElem_set]
    by_cases hi : i = 3
    · subst hi
      rfl
    · rw [if_neg (Ne.symm hi), if_neg (by omega)]

theorem scanned_dot {g : List UInt8} (hk : k < 3) (hf : Field f)
    (h : Scanned (g :: fs) (k+1) ⟨ip.bytes.set k (UInt8.ofNat (decimal f))⟩ b ip') :
    Scanned (f :: g :: fs) k ip b ip' where
  accepted := by
    rw [h.accepted, List.length_cons (a := f), List.forall_mem_cons (a := f)]
    simp only [hf, true_and]
    constructor <;> rintro ⟨hlen, hall⟩ <;> exact ⟨by omega, hall⟩
  bytes i hi := by
    rw [h.bytes i hi, Vector.getElem_set]
    rcases Nat.lt_trichotomy i k with hik | rfl | hik
    · rw [if_neg (by omega), if_neg (by omega), if_neg (by omega)]
    · have hc : Complete (f :: g :: fs) (i - i) := by
        rw [Nat.sub_self]
        exact complete_zero hf
      rw [if_neg (by omega), if_pos rfl, if_pos ⟨le_rfl, .inr ⟨hk, hc⟩⟩, Nat.sub_self]
      rfl
    · obtain ⟨j, rfl⟩ := Nat.exists_eq_add_of_lt hik
      have hj : k + j + 1 - (k + 1) = j := by omega
      have hj' : k + j + 1 - k = j + 1 := by omega
      have hle : k + 1 ≤ k + j + 1 ∧ k ≤ k + j + 1 := by omega
      rw [hj, hj', if_neg (show ¬ k = k + j + 1 by omega)]
      simp only [complete_succ hf, List.getD_cons_succ, hle, true_and]

theorem scan_last (ip : IPAddress) (k : Nat) (hdot : 46 ∉ f) :
    ∃ b ip', scan f ⟨0, k, ip⟩ = .ok (b, ip') ∧ Scanned [f] k ip b ip' := by
  have hscan := scan_field_zero ip k [] hdot
  rw [List.append_nil] at hscan
  have hnone : ∀ i, k + i < 3 → ¬ Complete [f] i := fun i _ hc => by simpa using hc.1
  rw [hscan]
  by_cases hf : Field f
  · rw [if_pos hf, scan]
    by_cases hk : k = 3
    · subst hk
      rw [if_neg (not_not.mpr rfl), store_ok (by decide)]
      exact ⟨_, _, rfl, scanned_last hf⟩
    · rw [if_pos hk]
      refine ⟨_, _, rfl, scanned_given_up (fun h => hk ?_) hnone⟩
      have hlen := h.1
      rw [List.length_singleton] at hlen
      omega
  · rw [if_neg hf]
    exact ⟨_, _, rfl, scanned_given_up (fun h => hf (h.2 f List.mem_cons_self)) hnone⟩

theorem scan_fields (ip : IPAddress) (hfs : fs ≠ []) (hdot : ∀ f ∈ fs, 46 ∉ f) (hk : k ≤ 3) :
    ∃ b ip', scan ([46].intercalate fs) ⟨0, k, ip⟩ = .ok (b, ip') ∧ Scanned fs k ip b ip' := by
  induction fs generalizing k ip with
  | nil => exact absurd rfl hfs
  | cons f fs ih =>
    have hdotf := hdot f List.mem_cons_self
    cases fs with
    | nil =>
      rw [List.intercalate_singleton]
      exact scan_last ip k hdotf
    | cons g fs =>
      have hscan := scan_field_zero ip k (46 :: [46].intercalate (g :: fs)) hdotf
      rw [List.intercalate_cons_cons, List.append_assoc, List.singleton_append, hscan]
      by_cases hf : Field f
      · rw [if_pos hf]
        by_cases hk3 : k = 3
        · rw [scan_stop (body_fourth_dot hk3)]
          refine ⟨_, _, rfl, scanned_given_up (fun h => ?_) fun i hi _ => by omega⟩
          have hlen := h.1
          simp only [List.length_cons] at hlen
          omega
        · have hk' : k < 3 := by omega
          rw [scan_next (body_dot hk')]
          obtain ⟨b, ip', hrest, h⟩ := ih (k := k+1)
            ⟨ip.bytes.set k (UInt8.ofNat (decimal f))⟩ (List.cons_ne_nil g fs)
            (fun f hf => hdot f (List.mem_cons_of_mem _ hf)) (by omega)
          exact ⟨b, ip', hrest, scanned_dot hk' hf h⟩
      · rw [if_neg hf]
        refine ⟨_, _, rfl, scanned_given_up (fun h => hf ?_) fun i _ hc => hf ?_⟩
        · exact h.2 f List.mem_cons_self
        · exact hc.2 f (by simp)

theorem dot_not_mem_fields (a : List UInt8) : ∀ f ∈ fields a, 46 ∉ f := by
  induction a with
  | nil => simp [fields]
  | cons c a ih =>
    rw [fields] at ih ⊢
    rw [List.splitOn_cons_eq_if_modifyHead]
    cases hsplit : a.splitOn 46 with
    | nil => exact absurd hsplit (List.splitOn_ne_nil 46 a)
    | cons g fs =>
      rw [hsplit, List.forall_mem_cons] at ih
      by_cases hc : c = 46
      · simpa [hc] using ih
      · simpa [hc, Ne.symm hc] using ih

theorem fromString_scanned (ip : IPAddress) (a : List UInt8) :
    ∃ b ip', fromString ip a = .ok (b, ip') ∧ Scanned (fields a) 0 ip b ip' := by
  have h := scan_fields (k := 0) ip (List.splitOn_ne_nil 46 a) (dot_not_mem_fields a)
    (Nat.zero_le 3)
  rwa [List.intercalate_splitOn] at h

theorem body_acc (hacc : s.acc ≤ 255) (h : body c s = .ok (some s')) : s'.acc ≤ 255 := by
  by_cases hc : IsDigit c
  · rw [body_digit hc hacc] at h
    split at h
    · next hle =>
      cases h
      exact hle
    · cases h
  · by_cases hdot : c = 46
    · rw [body, if_neg hc, if_pos hdot] at h
      split at h
      · cases h
      · cases hstore : s.ip.store s.dots (UInt8.ofNat s.acc) with
        | error e => rw [hstore] at h; cases h
        | ok ip' =>
          rw [hstore] at h
          cases h
          exact Nat.zero_le 255
    · rw [body_other hc hdot] at h
      cases h

theorem Reaches.acc (h : Reaches ip p s) : s.acc ≤ 255 := by
  induction h with
  | start => exact Nat.zero_le 255
  | next _ hstep ih => exact body_acc ih hstep

theorem never_wraps (ip : IPAddress) (a : List UInt8) : NeverWraps ip a :=
  fun _ _ _ _ h hc => digit_fits hc h.acc

theorem misread_of_empty (ip : IPAddress) (hquad : Quad a) (hempty : [] ∈ fields a) :
    ¬ Reads ip a := by
  obtain ⟨b, ip', hrun, h⟩ := fromString_scanned ip a
  rintro ⟨b', ip'', hrun', hdotted, -⟩
  cases hrun.symm.trans hrun'
  exact (hdotted.mp (h.accepted.mpr hquad)).2 [] hempty rfl

/-- A dotted string is read, but a string with an empty field is taken for one. -/
theorem reads_iff (ip : IPAddress) (a : List UInt8) :
    Reads ip a ↔ ¬ (Quad a ∧ [] ∈ fields a) := by
  constructor
  · exact fun h hempty => misread_of_empty ip hempty.1 hempty.2 h
  · intro hno
    obtain ⟨b, ip', hrun, h⟩ := fromString_scanned ip a
    refine ⟨b, ip', hrun, ?_, fun hb i hi => ?_, never_wraps ip a⟩
    · rw [h.accepted]
      exact ⟨fun hq => ⟨hq, fun f hf he => hno ⟨hq, he ▸ hf⟩⟩, fun hd => hd.1⟩
    · have hq : Quad a := h.accepted.mp hb
      have hlen : i < (fields a).length := by rw [hq.1]; exact hi
      rw [h.bytes i hi, if_pos ⟨Nat.zero_le i, .inl hb⟩, Nat.sub_zero,
        List.getD_eq_getElem _ _ hlen]
      exact decimal_byte (hq.2 _ (List.getElem_mem hlen))

/-- The string "1..2.3" -/
theorem empty_field_accepted : ¬ Reads ⟨#v[9, 9, 9, 9]⟩ [49, 46, 46, 50, 46, 51] :=
  misread_of_empty _ (by decide +kernel) (by decide)

theorem fromString_false (h : fromString ip a = .ok (false, ip')) : LeftBehind ip a ip' := by
  obtain ⟨b, ip'', hrun, hscanned⟩ := fromString_scanned ip a
  cases hrun.symm.trans h
  intro i hi
  have hbyte := hscanned.bytes i hi
  simp only [Nat.zero_le, Nat.sub_zero, true_and, Bool.false_eq_true, false_or] at hbyte
  constructor
  · intro hc
    rw [hbyte, if_pos hc]
    exact decimal_byte hc.2.field
  · intro hc
    rw [hbyte, if_neg hc]

/-- "1.2x" overwrites the first byte only. -/
theorem fromString_false_halfway :
    LeftBehind ⟨#v[9, 9, 9, 9]⟩ [49, 46, 50, 120] ⟨#v[1, 9, 9, 9]⟩ :=
  fromString_false (by rfl)

theorem bytes_overwritten : ¬ ∀ ip a ip', fromString ip a = .ok (false, ip') → ip' = ip := by
  intro h
  have hsame := h ⟨#v[9, 9, 9, 9]⟩ [49, 46, 50, 120] ⟨#v[1, 9, 9, 9]⟩ (by rfl)
  exact absurd hsame (by decide)

end IPAddress
end RasPiArduino
