import RasPiArduino.WStringRemove

/-! substring(): which Strings it may be called on, and with which arguments. -/
namespace RasPiArduino.WString
open CMemory

def substring₁ (s : WString) (beginIndex : Nat) (a₁ a₂ : Option Alloc) :
    Except Fault (WString × WString) :=
  s.substring beginIndex s.len a₁ a₂

def between (t : List UInt8) (left right : Nat) : List UInt8 :=
  (t.take (max left right)).drop (min left right)

def Cuts (s : WString) (t : List UInt8) (left right : Nat) (a₁ a₂ : Option Alloc) : Prop :=
  ∃ out, s.substring left right a₁ a₂ = .ok (out, s) ∧ Stored out (between t left right)

def Substrings (s : WString) (t : List UInt8) (left right : Nat) (a₁ a₂ : Option Alloc) : Prop :=
  Cuts s t left right a₁ a₂ ∧ s.substring₁ left a₁ a₂ = s.substring left t.length a₁ a₂

variable {s out : WString} {t u v rest : List UInt8} {left right l r n : Nat}
  {a a₁ a₂ : Option Alloc}

theorem cstring_takeWhile (t r : List UInt8) :
    cstring (t ++ 0 :: r) = .ok (t.takeWhile (· ≠ 0)) := by
  induction t with
  | nil => rfl
  | cons c t ih =>
    rw [List.cons_append, cstring, ih]
    split
    · next h => simp [h]
    · next h => simp [h, Except.map]

theorem takeWhile_eq_iff : v.takeWhile (· ≠ 0) = v ↔ 0 ∉ v := by
  rw [List.takeWhile_eq_self_iff]
  constructor
  · intro h hmem
    simpa using h 0 hmem
  · intro h c hc
    have hne : c ≠ 0 := fun h0 => h (h0 ▸ hc)
    simpa using hne

theorem nul_not_mem_takeWhile (v : List UInt8) : 0 ∉ v.takeWhile (· ≠ 0) := by
  intro hmem
  simpa using List.mem_takeWhile_imp hmem

theorem Contents.stored (h : Contents s t) : Stored s t := by
  cases h with
  | inl h => exact .inl h
  | inr h =>
    obtain ⟨rest, h⟩ := h
    exact .inr ⟨rest, h.stores⟩

theorem Stored.eq (h : Stored s t) (h' : Stored s u) : t = u := h.chars.symm.trans h'.chars

theorem ofCstr_empty (a : Option Alloc) :
    ∃ out, ofCstr (some []) a = .ok out ∧ Contents out [] ∧ out.capacity = 0 := by
  cases a with
  | none => exact ⟨init, rfl, init_contents, rfl⟩
  | some a =>
    obtain ⟨c, hc⟩ : ∃ c, resize [] a.fresh 1 = [c] :=
      List.length_eq_one_iff.mp (length_resize [] a.fresh 1)
    refine ⟨⟨.block [0], 0, 0⟩, ?_, .inr ⟨[], rfl, rfl, rfl, List.not_mem_nil, by norm_num⟩, rfl⟩
    simp [ofCstr, copy, reserve, changeBuffer, init, realloc, hc, Buffer.bytes, strcpy, put]

/-- The assignment to it keeps the chars in front of the first NUL, if there is room. -/
theorem assign_stored_iff (h : Contents out []) (hcap : out.capacity = 0) (hn : v.length + 1 < 2^32)
    (a : Option Alloc) : ∃ y, out.assignCstr (some (v.takeWhile (· ≠ 0))) a = .ok y ∧
      (Stored y v ↔ 0 ∉ v ∧ (v ≠ [] → a ≠ none)) := by
  obtain ⟨w, hw⟩ : ∃ w, w = v.takeWhile (· ≠ 0) := ⟨_, rfl⟩
  have hwn : 0 ∉ w := hw ▸ nul_not_mem_takeWhile v
  have hwle : w.length ≤ v.length := hw ▸ (List.takeWhile_prefix _).length_le
  have hwv : w = v ↔ 0 ∉ v := hw ▸ takeWhile_eq_iff
  rw [← hw, assignCstr, Nat.mod_eq_of_lt (by omega)]
  by_cases hr : Refused out w.length a
  · refine ⟨init, copy_refused h hr (by omega), ?_⟩
    constructor
    · intro hv
      obtain rfl := init_contents.stored.eq hv
      exact ⟨List.not_mem_nil, fun hne => absurd rfl hne⟩
    · intro hv
      by_cases hnil : v = []
      · rw [hnil]
        exact init_contents.stored
      · exact absurd hr.1 (hv.2 hnil)
  · obtain ⟨y, x, hy, hx, hkept⟩ := copy_contents (a := a) h hwn (by omega)
    obtain rfl := (hkept hr).1
    refine ⟨y, hy, ?_⟩
    constructor
    · intro hv
      have hxv : x = v := hx.stored.eq hv
      refine ⟨hwv.mp hxv, fun hne ha => hr ⟨ha, .inr ?_⟩⟩
      rw [hcap, hxv]
      exact List.length_pos_iff.mpr hne
    · intro hv
      rw [← hwv.mpr hv.1]
      exact hx.stored

theorem substring_inside (h : Stores s t rest) (hlr : l ≤ r) (hr : r ≤ t.length)
    (h₀ : Contents out []) (hcap : out.capacity = 0) (a₂ : Option Alloc) :
    ∃ y, (do
      let b ← s.buffer.bytes
      let temp ← get b r
      let b ← put b r 0
      let t ← cstring (b.drop l)
      let out ← out.assignCstr (some t) a₂
      let b ← put b r temp
      .ok (out, { s with buffer := .block b })) = .ok (y, s) ∧
    (Stored y ((t.take r).drop l) ↔
      0 ∉ (t.take r).drop l ∧ ((t.take r).drop l ≠ [] → a₂ ≠ none)) := by
  obtain ⟨x, b, hget, hput, ⟨w, rfl⟩, hback⟩ := put_put_back hr rest
  have hlen : l ≤ (t.take r).length := by rw [List.length_take]; omega
  have hfits : ((t.take r).drop l).length + 1 < 2^32 := by
    have hcap := h.capacity
    have hfits := h.fits
    rw [List.length_drop, List.length_take]
    omega
  obtain ⟨y, hy, hiff⟩ := assign_stored_iff h₀ hcap hfits a₂
  refine ⟨y, ?_, hiff⟩
  simp only [h.buffer, Buffer.bytes, ok_bind, hget, hput, List.drop_append_of_le_length hlen,
    cstring_takeWhile, hy, hback]
  rw [← h.buffer]

theorem swapped_eq (left right : Nat) :
    (if left > right then (right, left) else (left, right)) = (min left right, max left right) := by
  split
  · rw [min_eq_right (by omega), max_eq_left (by omega)]
  · rw [min_eq_left (by omega), max_eq_right (by omega)]

theorem clipped_eq (t : List UInt8) (l r : Nat) :
    (t.take (if r > t.length then t.length else r)).drop l = (t.take r).drop l := by
  split
  · rw [List.take_of_length_le le_rfl, List.take_of_length_le (by omega)]
  · rfl

theorem cuts_iff (h : Stored s t) (left right : Nat) (a₁ a₂ : Option Alloc) :
    Cuts s t left right a₁ a₂ ↔ (s.buffer ≠ .null ∨ 0 < min left right) ∧
      0 ∉ between t left right ∧ (between t left right ≠ [] → a₂ ≠ none) := by
  obtain ⟨out, hout, h₀, hcap⟩ := ofCstr_empty a₁
  have hlen := h.len_eq
  have hle : min left right ≤ max left right := min_le_max
  rw [Cuts, between, substring, hout, swapped_eq]
  generalize min left right = l at hle
  generalize max left right = r at hle
  simp only [ok_bind]
  split
  · next hl =>
    have hnil : (t.take r).drop l = [] := by
      apply List.drop_eq_nil_of_le
      rw [List.length_take]
      omega
    rw [hnil]
    exact iff_of_true ⟨out, rfl, h₀.stored⟩
      ⟨.inr (by omega), List.not_mem_nil, fun hne => absurd rfl hne⟩
  · next hl =>
    cases h with
    | inl hnull =>
      rw [hnull.1]
      apply iff_of_false
      · rintro ⟨y, hy, -⟩
        cases hy
      · rintro ⟨hok, -⟩
        simp only [ne_eq, not_true_eq_false, false_or] at hok
        have hzero := hnull.2.1
        omega
    | inr hblock =>
      obtain ⟨rest, hs⟩ := hblock
      have hclip := clipped_eq t l r
      rw [← hlen] at hclip
      obtain ⟨y, hy, hiff⟩ := substring_inside hs (l := l) (r := if r > s.len then s.len else r)
        (by split <;> omega) (by split <;> omega) h₀ hcap a₂
      have hb : s.buffer ≠ .null := by simp [hs.buffer]
      rw [hclip] at hiff
      rw [and_iff_right (.inl hb), ← hiff]
      constructor
      · rintro ⟨z, hz, hstored⟩
        obtain rfl := (Prod.mk.inj (Except.ok.inj (hy.symm.trans hz))).1
        exact hstored
      · exact fun hstored => ⟨y, hy, hstored⟩

/-- The chars are what the call returns exactly if the String has a buffer, or the arguments
begin behind its end; if there is no NUL among them; and if they can be allocated. -/
theorem substrings_iff (h : Stored s t) (left right : Nat) (a₁ a₂ : Option Alloc) :
    Substrings s t left right a₁ a₂ ↔ (s.buffer ≠ .null ∨ 0 < min left right) ∧
      0 ∉ between t left right ∧ (between t left right ≠ [] → a₂ ≠ none) := by
  rw [Substrings, substring₁, h.len_eq, and_iff_left rfl, cuts_iff h]

/-- "aab", from its end to the place 1. -/
theorem substrings_iff_aab :
    Substrings ⟨.block [97, 97, 98, 0], 3, 3⟩ [97, 97, 98] 7 1 none (some ⟨[], true⟩) :=
  (substrings_iff (.inr ⟨[], rfl, rfl, rfl, by decide⟩) 7 1 none (some ⟨[], true⟩)).mpr
    ⟨by decide, by decide, by decide⟩

/-- String((const char *) NULL).substring(0, 0) reads at the null pointer. -/
theorem substring_of_invalid :
    Stored init [] ∧
      init.substring 0 0 (some ⟨[], false⟩) (some ⟨[], false⟩) = .error .null ∧
      ¬ Substrings init [] 0 0 (some ⟨[], false⟩) (some ⟨[], false⟩) := by
  have hnull : init.substring 0 0 (some ⟨[], false⟩) (some ⟨[], false⟩) = .error .null := by decide
  refine ⟨.inl ⟨rfl, rfl, rfl⟩, hnull, fun h => ?_⟩
  obtain ⟨out, hout, -⟩ := h.1
  rw [hnull] at hout
  cases hout

end RasPiArduino.WString
