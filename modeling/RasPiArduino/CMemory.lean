import Mathlib
import RasPiArduino.Numerals

/-! Blocks of chars as realloc gives them, and the C strings in them. -/
namespace RasPiArduino.CMemory
open Numerals

/-- A null pointer is read or written, or a place that is in no block. -/
inductive Fault where
  | null
  | outside
  deriving DecidableEq, Repr

/-- What a char pointer of the allocator points to. -/
inductive Buffer where
  | null
  | block (bytes : List UInt8)
  | freed
  deriving DecidableEq, Repr

def Buffer.bytes : Buffer → Except Fault (List UInt8)
  | .null => .error .null
  | .block b => .ok b
  | .freed => .error .outside

/-- A successful allocation: what the new part of the block holds, and whether it moved. -/
structure Alloc where
  fresh : List UInt8
  moved : Bool
  deriving DecidableEq, Repr

def resize (b fresh : List UInt8) (n : Nat) : List UInt8 :=
  (b ++ fresh ++ List.replicate n 0).take n

/-- The pointer that realloc returns, and what the one it was given points to afterwards. -/
def realloc (p : Buffer) (n : Nat) (a : Option Alloc) : Except Fault (Buffer × Buffer) :=
  match p, a with
  | .freed, _ => .error .outside
  | .null, none => .ok (.null, .null)
  | .null, some a => .ok (.block (resize [] a.fresh n), .null)
  | .block b, a =>
    if n = 0 then .ok (.null, .freed)
    else match a with
      | none => .ok (.null, .block b)
      | some a =>
        let q := Buffer.block (resize b a.fresh n)
        .ok (q, if a.moved then .freed else q)

def get (b : List UInt8) (i : Nat) : Except Fault UInt8 :=
  match b[i]? with
  | some c => .ok c
  | none => .error .outside

def put (b : List UInt8) (i : Nat) (c : UInt8) : Except Fault (List UInt8) :=
  if i < b.length then .ok (b.set i c) else .error .outside

def cstring : List UInt8 → Except Fault (List UInt8)
  | [] => .error .outside
  | c :: cs => if c = 0 then .ok [] else (cstring cs).map (c :: ·)

def strcpy (b : List UInt8) (dst : Nat) : List UInt8 → Except Fault (List UInt8)
  | [] => put b dst 0
  | c :: t => do
    let b ← put b dst c
    strcpy b (dst+1) t

def strcpyWithin : Nat → List UInt8 → Nat → Nat → Except Fault (List UInt8)
  | 0, _, _, _ => .error .outside
  | n+1, b, dst, src => do
    let c ← get b src
    let b ← put b dst c
    if c = 0 then .ok b else strcpyWithin n b (dst+1) (src+1)

def memcpy (b : List UInt8) (dst : Nat) : List UInt8 → Except Fault (List UInt8)
  | [] => .ok b
  | c :: t => do
    let b ← put b dst c
    memcpy b (dst+1) t

def memcpyWithin : Nat → List UInt8 → Nat → Nat → Except Fault (List UInt8)
  | 0, b, _, _ => .ok b
  | n+1, b, dst, src => do
    let c ← get b src
    let b ← put b dst c
    memcpyWithin n b (dst+1) (src+1)

def memmove (b : List UInt8) (dst src n : Nat) : Except Fault (List UInt8) :=
  let t := (b.drop src).take n
  if t.length = n then memcpy b dst t else .error .outside

/-- The first `n` bytes of a block, as memcpy reads them; none are read through any pointer. -/
def readBytes (p : Buffer) (n : Nat) : Except Fault (List UInt8) :=
  if n = 0 then .ok []
  else do
    let b ← p.bytes
    if n ≤ b.length then .ok (b.take n) else .error .outside

/-- strncpy from one place of the block to another: behind a NUL it stores NULs. -/
def strncpyWithin : Nat → List UInt8 → Nat → Nat → Except Fault (List UInt8)
  | 0, b, _, _ => .ok b
  | n+1, b, dst, src => do
    let c ← get b src
    let b ← put b dst c
    if c = 0 then memcpy b (dst+1) (List.replicate n 0) else strncpyWithin n b (dst+1) (src+1)

def padded : Nat → List UInt8 → List UInt8
  | 0, _ => []
  | n+1, [] => List.replicate (n+1) 0
  | n+1, c :: w => if c = 0 then List.replicate (n+1) 0 else c :: padded n w

def mapString (f : UInt8 → UInt8) : List UInt8 → Except Fault (List UInt8)
  | [] => .error .outside
  | c :: cs => if c = 0 then .ok (c :: cs) else (mapString f cs).map (f c :: ·)

def strchr (t : List UInt8) (ch : UInt8) : Option Nat :=
  (List.range (t.length + 1)).find? fun i => (t ++ [0])[i]? = some ch

def strrchr (t : List UInt8) (ch : UInt8) : Option Nat :=
  (List.range (t.length + 1)).reverse.find? fun i => (t ++ [0])[i]? = some ch

def strstr (t needle : List UInt8) : Option Nat :=
  (List.range (t.length + 1)).find? fun i => needle.isPrefixOf (t.drop i)

def strncmp : Nat → List UInt8 → List UInt8 → Except Fault Int
  | 0, _, _ => .ok 0
  | n+1, x :: b, y :: d =>
    if x ≠ y then .ok (x.toNat - y.toNat)
    else if x = 0 then .ok 0
    else strncmp n b d
  | _, _, _ => .error .outside

def strcmp : List UInt8 → List UInt8 → Except Fault Int
  | x :: b, y :: d =>
    if x ≠ y then .ok (x.toNat - y.toNat)
    else if x = 0 then .ok 0
    else strcmp b d
  | _, _ => .error .outside

def Differs (b u : List UInt8) : Prop :=
  ∃ (i : Nat) (x y : UInt8), b[i]? = some x ∧ u[i]? = some y ∧ x ≠ y

/-- The places from `i` to `j` are in the block, and hold no NUL. -/
def Solid (b : List UInt8) (i j : Nat) : Prop := ∀ m, i ≤ m → m < j → ∃ c, b[m]? = some c ∧ c ≠ 0

def isspace (c : UInt8) : Bool := c == 32 || (9 ≤ c && c ≤ 13)

def IsDigit (c : UInt8) : Prop := 48 ≤ c.toNat ∧ c.toNat ≤ 57

instance (c : UInt8) : Decidable (IsDigit c) :=
  inferInstanceAs (Decidable (48 ≤ c.toNat ∧ c.toNat ≤ 57))

def decimal (t : List UInt8) : Nat := t.foldl (fun v c => v * 10 + (c.toNat - 48)) 0

def tolower (c : UInt8) : UInt8 := if 65 ≤ c ∧ c ≤ 90 then c + 32 else c

def toupper (c : UInt8) : UInt8 := if 97 ≤ c ∧ c ≤ 122 then c - 32 else c

variable {b d p q t u r w : List UInt8} {i k n : Nat} {c x y : UInt8}

@[simp] theorem ok_bind {α β : Type} (a : α) (f : α → Except Fault β) :
    (Except.ok a >>= f) = f a := rfl

@[simp] theorem error_bind {α β : Type} (e : Fault) (f : α → Except Fault β) :
    (Except.error e >>= f) = .error e := rfl

theorem decimal_eq_value (t : List UInt8) : decimal t = value 10 (t.map fun c => c.toNat - 48) := by
  rw [decimal, value, List.foldl_map]

theorem decimal_map {f : Nat → UInt8} {ds : List Nat} (h : ∀ d ∈ ds, (f d).toNat - 48 = d) :
    decimal (ds.map f) = value 10 ds := by
  rw [decimal_eq_value, List.map_map]
  exact congrArg (value 10) ((List.map_congr_left h).trans (List.map_id ds))

theorem bind_eq_ok {α β : Type} {x : Except Fault α} {f : α → Except Fault β} {b : β} :
    (x >>= f) = .ok b ↔ ∃ a, x = .ok a ∧ f a = .ok b := by
  cases x <;> simp

@[simp] theorem length_resize (b fresh : List UInt8) (n : Nat) : (resize b fresh n).length = n := by
  simp [resize]
  omega

theorem resize_append (h : t.length ≤ n) (r fresh : List UInt8) :
    ∃ r', resize (t ++ r) fresh n = t ++ r' := by
  refine ⟨(r ++ fresh ++ List.replicate n 0).take (n - t.length), ?_⟩
  rw [resize, List.append_assoc, List.append_assoc, List.take_append, List.take_of_length_le h,
    List.append_assoc]

theorem get_eq (h : b[i]? = some c) : get b i = .ok c := by
  rw [get, h]

theorem put_eq (h : i < b.length) (c : UInt8) : put b i c = .ok (b.set i c) := if_pos h

theorem cstring_append (ht : 0 ∉ t) (r : List UInt8) : cstring (t ++ 0 :: r) = .ok t := by
  induction t with
  | nil => rfl
  | cons c t ih =>
    obtain ⟨hc, ht⟩ := not_or.mp (List.mem_cons.not.mp ht)
    rw [List.cons_append, cstring, if_neg (Ne.symm hc), ih ht]
    rfl

theorem mapString_append (ht : 0 ∉ t) (f : UInt8 → UInt8) (r : List UInt8) :
    mapString f (t ++ 0 :: r) = .ok (t.map f ++ 0 :: r) := by
  induction t with
  | nil => rfl
  | cons c t ih =>
    obtain ⟨hc, ht⟩ := not_or.mp (List.mem_cons.not.mp ht)
    rw [List.cons_append, mapString, if_neg (Ne.symm hc), ih ht]
    rfl

theorem put_append (p q : List UInt8) (x c : UInt8) :
    put (p ++ x :: q) p.length c = .ok (p ++ c :: q) := by
  rw [put_eq (by simp), List.set_append_right _ _ le_rfl, Nat.sub_self, List.set_cons_zero]

theorem get_append (h : q[k]? = some c) (p : List UInt8) : get (p ++ q) (p.length + k) = .ok c := by
  apply get_eq
  rw [List.getElem?_append_right (Nat.le_add_right _ _), Nat.add_sub_cancel_left, h]

theorem memcpy_fits (h : t.length ≤ r.length) :
    memcpy (d ++ r) d.length t = .ok (d ++ (t ++ r.drop t.length)) := by
  induction t generalizing d r with
  | nil => rfl
  | cons c t ih =>
    cases r with
    | nil => simp at h
    | cons x r =>
      have hih := ih (d := d ++ [c]) (r := r) (by simpa using h)
      rw [memcpy, put_append, ok_bind]
      simpa using hih

theorem memcpy_outside (ht : t ≠ []) (h : b.length < i + t.length) :
    memcpy b i t = .error .outside := by
  induction t generalizing b i with
  | nil => exact absurd rfl ht
  | cons c t ih =>
    rw [List.length_cons] at h
    rw [memcpy, put]
    split
    · rw [ok_bind]
      apply ih
      · intro h0
        subst h0
        simp at h
        omega
      · rw [List.length_set]
        omega
    · rfl

theorem strcpy_eq_memcpy (b : List UInt8) (i : Nat) (t : List UInt8) :
    strcpy b i t = memcpy b i (t ++ [0]) := by
  induction t generalizing b i with
  | nil => cases h : put b i 0 <;> simp [strcpy, memcpy, h]
  | cons c t ih => simp only [strcpy, List.cons_append, memcpy, ih]

theorem strcpy_fits (h : t.length + 1 ≤ r.length) :
    strcpy (d ++ r) d.length t = .ok (d ++ (t ++ 0 :: r.drop (t.length + 1))) := by
  rw [strcpy_eq_memcpy, memcpy_fits (by simpa using h)]
  simp

theorem strcpy_outside (h : b.length ≤ i + t.length) : strcpy b i t = .error .outside := by
  rw [strcpy_eq_memcpy]
  apply memcpy_outside
  · simp
  · rw [List.length_append, List.length_singleton]
    omega

/-- A copy to a place behind its source never meets the NUL that it overwrites first. -/
theorem strcpyWithin_behind {src dst : Nat} (hlt : src < dst) (h : Solid b src dst) :
    strcpyWithin n b dst src = .error .outside := by
  induction n generalizing b src dst with
  | zero => rfl
  | succ n ih =>
    obtain ⟨c, hc, hne⟩ := h src le_rfl hlt
    rw [strcpyWithin, get_eq hc, ok_bind, put]
    simp only [if_neg hne]
    split
    · next hdst =>
      rw [ok_bind]
      refine ih (by omega) fun i hi hi' => ?_
      by_cases hid : i = dst
      · subst hid
        exact ⟨c, List.getElem?_set_self hdst, hne⟩
      · rw [List.getElem?_set_ne (Ne.symm hid)]
        exact h i (by omega) (by omega)
    · rfl

theorem Solid.set (h : Solid b i k) (hk : k < b.length) (hc : c ≠ 0) :
    Solid (b.set k c) i (k + 1) := by
  intro m hi hm
  by_cases hmk : m = k
  · subst hmk
    exact ⟨c, List.getElem?_set_self hk, hc⟩
  · rw [List.getElem?_set_ne (Ne.symm hmk)]
    exact h m hi (by omega)

theorem put_eq_ok (h : put b i c = .ok d) : i < b.length ∧ d = b.set i c := by
  rw [put] at h
  split at h
  · next hi => exact ⟨hi, (Except.ok.inj h).symm⟩
  · cases h

theorem length_memcpy (h : memcpy b i t = .ok d) : d.length = b.length := by
  induction t generalizing b i with
  | nil =>
    obtain rfl := Except.ok.inj h
    rfl
  | cons c t ih =>
    rw [memcpy] at h
    obtain ⟨b', hb', h⟩ := bind_eq_ok.mp h
    obtain ⟨hi, rfl⟩ := put_eq_ok hb'
    rw [ih h, List.length_set]

theorem memmove_eq_ok (h : memmove b i k n = .ok d) :
    d.length = b.length ∧ (n ≠ 0 → i + n ≤ b.length) := by
  rw [memmove] at h
  split at h
  · next hn =>
    refine ⟨length_memcpy h, fun h0 => ?_⟩
    by_contra hlt
    rw [memcpy_outside (by intro he; simp [he] at hn; omega) (by omega)] at h
    cases h
  · cases h

theorem memcpyWithin_solid {src dst : Nat} (hle : src ≤ dst) (h : Solid b src dst)
    (hd : memcpyWithin n b dst src = .ok d) : Solid d (src + n) (dst + n) := by
  induction n generalizing b src dst with
  | zero =>
    obtain rfl := Except.ok.inj hd
    exact h
  | succ n ih =>
    by_cases he : src = dst
    · intro m hi hm
      omega
    · obtain ⟨c, hc, hne⟩ := h src le_rfl (by omega)
      rw [memcpyWithin, get_eq hc, ok_bind] at hd
      obtain ⟨b', hb', hd⟩ := bind_eq_ok.mp hd
      obtain ⟨hdst, rfl⟩ := put_eq_ok hb'
      have hnext : Solid (b.set dst c) (src + 1) (dst + 1) :=
        fun m hi hm => h.set hdst hne m (by omega) hm
      have hrest := ih (by omega) hnext hd
      rwa [Nat.add_right_comm src, Nat.add_right_comm dst] at hrest

theorem memcpy_solid (ht : 0 ∉ t) (h : Solid b i k) (hd : memcpy b k t = .ok d) :
    Solid d i (k + t.length) := by
  induction t generalizing b k with
  | nil =>
    obtain rfl := Except.ok.inj hd
    exact h
  | cons c t ih =>
    obtain ⟨hc, ht⟩ := not_or.mp (List.mem_cons.not.mp ht)
    rw [memcpy] at hd
    obtain ⟨b', hb', hd⟩ := bind_eq_ok.mp hd
    obtain ⟨hk, rfl⟩ := put_eq_ok hb'
    have hrest := ih ht (h.set hk (Ne.symm hc)) hd
    rwa [Nat.add_right_comm] at hrest

theorem length_padded (n : Nat) (w : List UInt8) : (padded n w).length = n := by
  induction n generalizing w with
  | zero => rfl
  | succ n ih =>
    cases w with
    | nil => simp [padded]
    | cons c w =>
      rw [padded]
      split
      · simp
      · rw [List.length_cons, ih]

theorem drop_cons_eq (h : (x :: q)[k]? = some c) : (x :: q).drop k = c :: q.drop k := by
  obtain ⟨hlt, hc⟩ := List.getElem?_eq_some_iff.mp h
  rw [List.drop_eq_getElem_cons hlt, hc, List.drop_succ_cons]

theorem getElem?_of_drop_cons (h : (x :: q).drop k = c :: w) :
    (x :: q)[k]? = some c ∧ q.drop k = w := by
  have hk : (x :: q)[k]? = some c := by
    rw [← List.head?_drop, h]
    rfl
  rw [drop_cons_eq hk] at h
  exact ⟨hk, (List.cons.inj h).2⟩

/-- Copies to a place below, or to the same: each byte is read before it is written. -/
theorem memcpyWithin_below (h : k + n ≤ q.length) :
    memcpyWithin n (p ++ q) p.length (p.length + k) =
      .ok (p ++ ((q.drop k).take n ++ q.drop n)) := by
  induction n generalizing p q with
  | zero => simp [memcpyWithin]
  | succ n ih =>
    cases q with
    | nil => simp at h
    | cons x q =>
      obtain ⟨c, hc⟩ : ∃ c, (x :: q)[k]? = some c := ⟨_, List.getElem?_eq_getElem (by omega)⟩
      have hih := ih (p := p ++ [c]) (q := q) (by rw [List.length_cons] at h; omega)
      rw [memcpyWithin, get_append hc, ok_bind, put_append, ok_bind, drop_cons_eq hc]
      simpa [Nat.add_right_comm] using hih

theorem strncpyWithin_below (h : k + n ≤ q.length) :
    strncpyWithin n (p ++ q) p.length (p.length + k) =
      .ok (p ++ (padded n (q.drop k) ++ q.drop n)) := by
  induction n generalizing p q with
  | zero => simp [strncpyWithin, padded]
  | succ n ih =>
    cases q with
    | nil => simp at h
    | cons x q =>
      obtain ⟨c, hc⟩ : ∃ c, (x :: q)[k]? = some c := ⟨_, List.getElem?_eq_getElem (by omega)⟩
      have hih := ih (p := p ++ [c]) (q := q) (by rw [List.length_cons] at h; omega)
      have hzero := memcpy_fits (d := p ++ [c]) (t := List.replicate n 0) (r := q) (by
        rw [List.length_replicate]
        rw [List.length_cons] at h
        omega)
      rw [strncpyWithin, get_append hc, ok_bind, put_append, ok_bind, drop_cons_eq hc, padded]
      split
      · next h0 =>
        subst h0
        simpa [List.replicate_succ] using hzero
      · simpa [Nat.add_right_comm] using hih

theorem strcpyWithin_below (hu : 0 ∉ u) (hq : q.drop k = u ++ 0 :: w) (hn : u.length < n) :
    strcpyWithin n (p ++ q) p.length (p.length + k) =
      .ok (p ++ (u ++ 0 :: q.drop (u.length + 1))) := by
  induction n generalizing p q u with
  | zero => simp at hn
  | succ n ih =>
    cases q with
    | nil => simp at hq
    | cons x q =>
      cases u with
      | nil =>
        rw [strcpyWithin, get_append (getElem?_of_drop_cons hq).1, ok_bind, put_append, ok_bind,
          if_pos rfl]
        rfl
      | cons c u =>
        obtain ⟨hc, hu'⟩ := not_or.mp (List.mem_cons.not.mp hu)
        obtain ⟨hk, hq⟩ := getElem?_of_drop_cons hq
        have hih := ih (p := p ++ [c]) hu' hq (by simpa using hn)
        rw [strcpyWithin, get_append hk, ok_bind, put_append, ok_bind, if_neg (Ne.symm hc)]
        simpa [Nat.add_right_comm] using hih

theorem differs_cons : Differs (x :: b) (y :: u) ↔ x ≠ y ∨ Differs b u := by
  constructor
  · intro ⟨i, x', y', hx, hy, hne⟩
    cases i with
    | zero =>
      simp only [List.getElem?_cons_zero, Option.some.injEq] at hx hy
      exact .inl (hx ▸ hy ▸ hne)
    | succ i => exact .inr ⟨i, x', y', by simpa using hx, by simpa using hy, hne⟩
  · intro h
    cases h with
    | inl hne => exact ⟨0, x, y, rfl, rfl, hne⟩
    | inr h =>
      obtain ⟨i, x', y', hx, hy, hne⟩ := h
      exact ⟨i+1, x', y', by simpa using hx, by simpa using hy, hne⟩

theorem prefix_or_differs (b u : List UInt8) : u <+: b ∨ Differs b u ∨ b <+: u ∧ b ≠ u := by
  induction u generalizing b with
  | nil => exact .inl (List.nil_prefix)
  | cons y u ih =>
    cases b with
    | nil => exact .inr (.inr ⟨List.nil_prefix, by simp⟩)
    | cons x b =>
      by_cases hxy : x = y
      · subst hxy
        simpa [List.cons_prefix_cons, differs_cons] using ih b
      · exact .inr (.inl (differs_cons.mpr (.inl hxy)))

theorem toNat_sub_ne_zero (h : x ≠ y) : (x.toNat : Int) - y.toNat ≠ 0 := by
  intro h0
  exact h (UInt8.toNat_inj.mp (by omega))

theorem strncmp_prefix (hu : 0 ∉ u) (b d : List UInt8) :
    strncmp u.length (u ++ b) (u ++ d) = .ok 0 := by
  induction u with
  | nil => rfl
  | cons y u ih =>
    obtain ⟨hy, hu⟩ := not_or.mp (List.mem_cons.not.mp hu)
    simp only [List.length_cons, List.cons_append, strncmp, ne_eq, not_true_eq_false, if_false,
      if_neg (Ne.symm hy)]
    exact ih hu

theorem strncmp_differs (hu : 0 ∉ u) (h : Differs b u) (d : List UInt8) :
    ∃ r, strncmp u.length b (u ++ d) = .ok r ∧ r ≠ 0 := by
  induction u generalizing b with
  | nil =>
    obtain ⟨i, x, y, -, hy, -⟩ := h
    simp at hy
  | cons y u ih =>
    obtain ⟨hy, hu⟩ := not_or.mp (List.mem_cons.not.mp hu)
    cases b with
    | nil =>
      obtain ⟨i, x, y, hx, -⟩ := h
      simp at hx
    | cons x b =>
      simp only [List.length_cons, List.cons_append, strncmp]
      by_cases hxy : x = y
      · rw [if_neg (not_not.mpr hxy), if_neg (hxy ▸ Ne.symm hy)]
        exact ih hu ((differs_cons.mp h).resolve_left (not_not.mpr hxy))
      · rw [if_pos hxy]
        exact ⟨_, rfl, toNat_sub_ne_zero hxy⟩

theorem strncmp_outside (hu : 0 ∉ u) (h : b <+: u) (hne : b ≠ u) (d : List UInt8) :
    strncmp u.length b (u ++ d) = .error .outside := by
  induction u generalizing b with
  | nil => exact absurd (List.prefix_nil.mp h) hne
  | cons y u ih =>
    obtain ⟨hy, hu'⟩ := not_or.mp (List.mem_cons.not.mp hu)
    cases b with
    | nil => rfl
    | cons x b =>
      obtain ⟨rfl, h'⟩ := List.cons_prefix_cons.mp h
      simp only [List.length_cons, List.cons_append, strncmp, ne_eq, not_true_eq_false, if_false,
        if_neg (Ne.symm hy)]
      exact ih hu' h' (fun he => hne (by rw [he]))

theorem strcmp_eq (ht : 0 ∉ t) (hu : 0 ∉ u) (b d : List UInt8) :
    ∃ r, strcmp (t ++ 0 :: b) (u ++ 0 :: d) = .ok r ∧ (r = 0 ↔ t = u) := by
  induction t generalizing u with
  | nil =>
    cases u with
    | nil => exact ⟨0, by simp [strcmp], by simp⟩
    | cons y u =>
      have hy : (0 : UInt8) ≠ y := fun he => hu (he ▸ List.mem_cons_self)
      exact ⟨(0 : UInt8).toNat - y.toNat, by simp [strcmp, hy],
        iff_of_false (toNat_sub_ne_zero hy) (by simp)⟩
  | cons x t ih =>
    obtain ⟨hx, ht⟩ := not_or.mp (List.mem_cons.not.mp ht)
    cases u with
    | nil =>
      exact ⟨x.toNat - (0 : UInt8).toNat, by simp [strcmp, Ne.symm hx],
        iff_of_false (toNat_sub_ne_zero (Ne.symm hx)) (by simp)⟩
    | cons y u =>
      obtain ⟨-, hu'⟩ := not_or.mp (List.mem_cons.not.mp hu)
      by_cases hxy : x = y
      · subst hxy
        obtain ⟨r, hr, hiff⟩ := ih ht hu'
        exact ⟨r, by simpa [strcmp, Ne.symm hx] using hr, by simpa using hiff⟩
      · exact ⟨x.toNat - y.toNat, by simp [strcmp, hxy], by simp [toNat_sub_ne_zero hxy, hxy]⟩

end RasPiArduino.CMemory
