import RasPiArduino.WStringSpec
import RasPiArduino.Transition

/-! Whether length() is strlen(c_str()), over all sequences of the operations. -/
namespace RasPiArduino.WString
open CMemory Transition

/-- The String has no buffer and no length, or a NUL behind `len` chars that are none. -/
def Valid (s : WString) : Prop :=
  (s.buffer = .null ∧ s.len = 0) ∨ ∃ b, s.buffer = .block b ∧ s.len ≤ s.capacity ∧
    b[s.len]? = some 0 ∧ ∀ i < s.len, b[i]? ≠ some 0

def Ok (s : WString) : Prop := ∃ t, Contents s t

def chars (s : WString) : List UInt8 :=
  match s.buffer with
  | .block b => b.take s.len
  | _ => []

variable {s : WString} {t u rest : List UInt8} {n i : Nat} {a : Option Alloc} {c : UInt8}

theorem Holds.chars (h : Holds s t rest) : s.chars = t := by
  rw [WString.chars, h.buffer, h.len]
  exact List.take_left

theorem Contents.chars (h : Contents s t) : s.chars = t := by
  obtain ⟨hb, -, rfl⟩ | ⟨rest, h⟩ := h
  · rw [WString.chars, hb]
  · exact h.chars

theorem Ok.valid (h : Ok s) : Valid s := by
  obtain ⟨t, ⟨hb, hlen, -⟩ | ⟨rest, h⟩⟩ := h
  · exact .inl ⟨hb, hlen⟩
  · refine .inr ⟨_, h.buffer, ?_, ?_, fun i hi hz => ?_⟩
    · rw [h.len, h.capacity]
      omega
    · rw [h.len]
      simp
    · rw [h.len] at hi
      rw [List.getElem?_append_left hi] at hz
      exact h.noNul (List.mem_of_getElem? hz)

theorem Valid.strlen (h : Valid s) {b : List UInt8} (hb : s.buffer = .block b) :
    ∃ t, cstring b = .ok t ∧ t.length = s.len := by
  obtain ⟨hb', -⟩ | ⟨b', hb', -, hnul, hall⟩ := h
  · simp [hb] at hb'
  obtain rfl : b = b' := by simpa [hb] using hb'
  obtain ⟨hlt, hget⟩ := List.getElem?_eq_some_iff.mp hnul
  have hsplit : b.take s.len ++ 0 :: b.drop (s.len + 1) = b := by
    rw [← hget, List.cons_getElem_drop_succ, List.take_append_drop]
  have hmem : 0 ∉ b.take s.len := fun hmem => by
    obtain ⟨i, hi, hz⟩ := List.getElem_of_mem hmem
    rw [List.length_take] at hi
    rw [List.getElem_take] at hz
    exact hall i (by omega) (List.getElem?_eq_some_iff.mpr ⟨by omega, hz⟩)
  refine ⟨b.take s.len, ?_, by rw [List.length_take]; omega⟩
  have hstr := cstring_append hmem (b.drop (s.len + 1))
  rwa [hsplit] at hstr

theorem not_valid_of_freed (h : s.buffer = .freed) : ¬ Valid s := by
  rintro (⟨hb, -⟩ | ⟨b, hb, -⟩)
  · simp [h] at hb
  · simp [h] at hb

theorem not_valid_of_nul {b : List UInt8} (hb : s.buffer = .block b) (hi : i < s.len)
    (hz : b[i]? = some 0) : ¬ Valid s := by
  rintro (⟨hb', -⟩ | ⟨b', hb', -, -, hall⟩)
  · simp [hb] at hb'
  · obtain rfl : b = b' := by simpa [hb] using hb'
    exact hall i hi hz

/-- Under `Q` a call answers with a String that is right, and else with none that is valid. -/
def Settles (r : Except Fault WString) (Q : Prop) : Prop :=
  (Q → ∃ y, r = .ok y ∧ Ok y) ∧ (¬ Q → ∀ y, r = .ok y → ¬ Valid y)

theorem settles_of_ok {r : Except Fault WString} {Q : Prop} {y : WString} (hq : Q) (hr : r = .ok y)
    (hy : Ok y) : Settles r Q :=
  ⟨fun _ => ⟨y, hr, hy⟩, fun h => absurd hq h⟩

theorem setCharAt_settles (h : Ok s) (i : Nat) (c : UInt8) :
    Settles (s.setCharAt i c) (i < s.len → c ≠ 0) := by
  obtain ⟨t, h⟩ := h
  by_cases hi : i < s.len
  · obtain ⟨rest, hs, heq⟩ := setCharAt_eq h hi c
    refine ⟨fun hc => ⟨_, heq, _, (hs.set i (hc hi)).contents⟩, fun hc y hy => ?_⟩
    obtain rfl : c = 0 := by simpa [hi] using hc
    rw [heq] at hy
    cases hy
    refine not_valid_of_nul rfl hi ?_
    have hlt : i < t.length := hs.len ▸ hi
    rw [List.getElem?_append_left (by simpa using hlt), List.getElem?_set_self hlt]
  · exact settles_of_ok (fun h => absurd h hi) (if_neg hi) ⟨t, h⟩

theorem setIndex_settles (h : Ok s) (i : Nat) (c : UInt8) :
    Settles (s.setIndex i c) (i < s.len → c ≠ 0) := by
  obtain ⟨t, ht⟩ := h
  by_cases hi : i < s.len
  · rw [setIndex_eq ht hi]
    exact setCharAt_settles ⟨t, ht⟩ i c
  · exact settles_of_ok (fun h => absurd h hi) (if_pos (.inl (by omega))) ⟨t, ht⟩

theorem replace_settles (h : Ok s) (find r : UInt8) :
    Settles (s.replace find r) (r = 0 → find ∉ s.chars) := by
  obtain ⟨t, h⟩ := h
  rw [h.chars]
  constructor
  · intro hq
    obtain ⟨y, hy, hc⟩ := mapBuffer_contents h (f := fun c => if c = find then r else c)
      fun c hc h0 => by
        split at h0
        · next he => exact hq h0 (he ▸ hc)
        · exact h.noNul (h0 ▸ hc)
    exact ⟨y, hy, _, hc⟩
  · intro hq y hy
    obtain ⟨rfl, hmem⟩ : r = 0 ∧ find ∈ t := by simpa using hq
    obtain ⟨rest, hs⟩ := h.holds fun hb => by
      obtain ⟨-, -, rfl⟩ | ⟨rest, hs⟩ := h
      · simp at hmem
      · simp [hs.buffer] at hb
    rw [replace, hs.mapBuffer] at hy
    cases hy
    obtain ⟨i, hi, hget⟩ := List.getElem_of_mem hmem
    refine not_valid_of_nul (i := i) rfl (by rw [hs.len]; exact hi) ?_
    rw [List.getElem?_append_left (by simpa using hi), List.getElem?_map,
      List.getElem?_eq_getElem hi, hget]
    simp

theorem toLowerCase_settles (h : Ok s) : Settles s.toLowerCase True := by
  obtain ⟨t, h⟩ := h
  obtain ⟨y, hy, hc⟩ := mapBuffer_contents h fun c hc => tolower_ne_zero fun h0 => h.noNul (h0 ▸ hc)
  exact settles_of_ok trivial hy ⟨_, hc⟩

theorem toUpperCase_settles (h : Ok s) : Settles s.toUpperCase True := by
  obtain ⟨t, h⟩ := h
  obtain ⟨y, hy, hc⟩ := mapBuffer_contents h fun c hc => toupper_ne_zero fun h0 => h.noNul (h0 ▸ hc)
  exact settles_of_ok trivial hy ⟨_, hc⟩

theorem trim_settles (h : Ok s) : Settles s.trim True := by
  obtain ⟨t, h⟩ := h
  obtain ⟨y, v, hy, hc⟩ := trim_contents h
  exact settles_of_ok trivial hy ⟨v, hc⟩

theorem reserve_wraps (h : Contents s t) (hn : n + 1 = 2^32) : s.reserve n a =
    if s.buffer = .null then if a = none then .ok (false, s) else .error .outside
    else .ok (false, { s with buffer := .freed }) := by
  have hfits := h.length_fits
  have hsmall : ¬ (s.buffer ≠ .null ∧ s.capacity ≥ n) := by
    rintro ⟨hb, hc⟩
    obtain ⟨rest, hs⟩ := h.holds hb
    have := hs.fits
    omega
  rw [reserve, if_neg hsmall, changeBuffer, hn, Nat.mod_self]
  obtain ⟨hb, hlen, -⟩ | ⟨rest, hs⟩ := h
  · cases a with
    | none =>
      simp only [hb, realloc, ok_bind, ne_eq, not_true_eq_false, if_false, Bool.false_eq_true,
        if_true]
      rw [← hb]
    | some al =>
      simp [hb, realloc, hlen, resize, Buffer.bytes, put]
  · simp [hs.buffer, realloc]

theorem reserve_settles (h : Ok s) (hn : n < 2^32) :
    Settles ((s.reserve n a).map Prod.snd) (n + 1 < 2^32 ∨ s.buffer = .null ∧ a = none) := by
  obtain ⟨t, h⟩ := h
  by_cases hfit : n + 1 < 2^32
  · obtain ⟨done, y, hy, hc⟩ := reserve_contents (a := a) h hfit
    exact settles_of_ok (.inl hfit) (by rw [hy]; rfl) ⟨t, hc⟩
  · rw [reserve_wraps h (by omega)]
    by_cases hb : s.buffer = .null
    · by_cases ha : a = none
      · rw [if_pos hb, if_pos ha]
        exact settles_of_ok (.inr ⟨hb, ha⟩) rfl ⟨t, h⟩
      · rw [if_pos hb, if_neg ha]
        exact ⟨fun hq => (hq.elim hfit fun hq => ha hq.2).elim, fun _ y hy => by cases hy⟩
    · rw [if_neg hb]
      refine ⟨fun hq => (hq.elim hfit fun hq => hb hq.1).elim, fun _ y hy => ?_⟩
      cases hy
      exact not_valid_of_freed rfl

/-- A concat leaves a String that is right under `Q`; else it leaves the blocks, or it ends
with a buffer that is freed. -/
def Joins (r : Except Fault (Bool × WString)) (Q : Prop) : Prop :=
  (Q → ∃ done y, r = .ok (done, y) ∧ Ok y) ∧
    (¬ Q → r = .error .outside ∨ ∃ y, r = .ok (false, y) ∧ y.buffer = .freed)

theorem Joins.settles {r : Except Fault (Bool × WString)} {Q : Prop} (h : Joins r Q) :
    Settles (r.map Prod.snd) Q := by
  constructor
  · intro hq
    obtain ⟨done, y, hr, hy⟩ := h.1 hq
    exact ⟨y, by rw [hr]; rfl, hy⟩
  · intro hq y hr
    obtain he | ⟨y', he, hf⟩ := h.2 hq
    · rw [he] at hr
      cases hr
    · rw [he] at hr
      cases hr
      exact not_valid_of_freed hf

theorem Joins.sum {r : Except Fault (Bool × WString)} {Q : Prop} (h : Joins r Q) :
    Settles (sum r) Q := by
  constructor
  · intro hq
    obtain ⟨done, y, rfl, t, hy⟩ := h.1 hq
    cases done with
    | true => exact ⟨y, rfl, t, hy⟩
    | false => exact ⟨init, hy.invalidate, [], init_contents⟩
  · intro hq y hr
    obtain rfl | ⟨y', rfl, hf⟩ := h.2 hq
    · cases hr
    · have hbad : y'.invalidate = .error .outside := if_pos hf
      rw [WString.sum, ok_bind] at hr
      simp [hbad] at hr

theorem strcpyFrom_own (ht : 0 ∉ t) (hne : t ≠ []) (dangling : Bool) :
    strcpyFrom (t ++ 0 :: rest) t.length dangling .own = .error .outside := by
  rw [strcpyFrom]
  split
  · rfl
  · refine strcpyWithin_behind (List.length_pos_iff.mpr hne) fun i _ hi => ?_
    exact ⟨t[i], by rw [List.getElem?_append_left hi, List.getElem?_eq_getElem hi],
      fun h0 => ht (h0 ▸ List.getElem_mem hi)⟩

/-- The length of the sum does not fit: the block is freed, or the copy leaves it. -/
theorem concat_oversize (h : Contents s u) {p : Pointer} (hp : p ≠ .null) (hn : n ≠ 0)
    (hn32 : n + 1 < 2^32) (hbig : 2^32 ≤ s.len + n + 1)
    (hcopy : 2^32 ≤ s.len + n → p = .own ∨ ∃ t, p = .text t ∧ t.length = n) :
    s.concat p n a = .error .outside ∨
      ∃ y, s.concat p n a = .ok (false, y) ∧ y.buffer = .freed := by
  have hfits := h.length_fits
  have hlen := h.len_eq
  obtain ⟨rest, hs⟩ := h.holds fun hb => by
    obtain ⟨-, hzero, -⟩ | ⟨rest, hs⟩ := h
    · omega
    · simp [hs.buffer] at hb
  have hne : s.buffer ≠ .null := by simp [hs.buffer]
  have hcap := hs.capacity
  by_cases hwrap : s.len + n < 2^32
  · right
    refine ⟨{ s with buffer := .freed }, ?_, rfl⟩
    rw [concat]
    simp only [if_neg hp, if_neg hn, Nat.mod_eq_of_lt hwrap,
      reserve_wraps (n := s.len + n) h (by omega), if_neg hne, ok_bind, Bool.false_eq_true,
      if_false]
  · left
    have hmod : (s.len + n) % 2^32 = s.len + n - 2^32 := by omega
    have hsmall : s.len + n - 2^32 ≤ s.capacity := by omega
    have hblen : (u ++ 0 :: rest).length = s.capacity + 1 := by simp; omega
    have hfit := hs.fits
    have hcopy' (dangling : Bool) :
        strcpyFrom (u ++ 0 :: rest) s.len dangling p = .error .outside := by
      obtain rfl | ⟨t, rfl, htn⟩ := hcopy (by omega)
      · rw [hlen]
        refine strcpyFrom_own hs.noNul (fun h0 => ?_) dangling
        rw [h0, List.length_nil] at hlen
        omega
      · exact strcpy_outside (by omega)
    rw [concat]
    simp only [if_neg hp, if_neg hn, hmod, reserve_enough hne hsmall, ok_bind, if_true, hs.buffer,
      Buffer.bytes, hcopy', error_bind]

theorem concat_joins (h : Ok s) (ht : 0 ∉ t) (htn : t.length = n ∨ t = [] ∧ n = 1)
    (hn32 : n + 1 < 2^32) : Joins (s.concat (.text t) n a) (n = 0 ∨ s.len + n + 1 < 2^32) := by
  obtain ⟨u, h⟩ := h
  have hlen := h.len_eq
  have hfits := h.length_fits
  by_cases hn : n = 0
  · refine ⟨fun _ => ⟨true, s, ?_, u, h⟩, fun hq => absurd (.inl hn) hq⟩
    simp [concat, hn]
  by_cases hfit : s.len + n + 1 < 2^32
  · refine ⟨fun _ => ?_, fun hq => absurd (.inr hfit) hq⟩
    by_cases hr : Refused s (s.len + n) a
    · exact ⟨_, _, concat_refused h (by simp) hn hfit hr, u, h⟩
    · obtain ⟨y, rest, hy, hs⟩ := concat_granted h ht
        (by obtain h | ⟨rfl, -⟩ := htn; exacts [h.le, Nat.zero_le n]) hn hfit hr
      exact ⟨_, _, hy, _, hs.contents⟩
  · refine ⟨fun hq => absurd hq (by omega), fun _ => ?_⟩
    refine concat_oversize h (by simp) hn hn32 (by omega) fun hbig => .inr ⟨t, rfl, ?_⟩
    obtain h | ⟨-, h1⟩ := htn
    · exact h
    · omega

theorem concatSelf_joins (h : Ok s) : Joins (s.concatSelf a)
    (s.len = 0 ∨ s.len + s.len + 1 < 2^32 ∧ Refused s (s.len + s.len) a) := by
  obtain ⟨u, h⟩ := h
  by_cases hzero : s.len = 0
  · refine ⟨fun _ => ?_, fun hq => absurd (.inl hzero) hq⟩
    by_cases hb : s.buffer = .null
    · exact ⟨false, s, by simp [concatSelf, concat, hb], u, h⟩
    · exact ⟨true, s, by simp [concatSelf, concat, hb, hzero], u, h⟩
  obtain ⟨rest, hs⟩ := h.holds fun hb => by
    obtain ⟨-, hlen, -⟩ | ⟨rest, hs⟩ := h
    · exact hzero hlen
    · simp [hs.buffer] at hb
  have hself : s.concatSelf a = s.concat .own s.len a := by
    rw [concatSelf, if_pos (by simp [hs.buffer])]
  have hlen := hs.len
  have hcap := hs.capacity
  have hfits := hs.fits
  rw [hself]
  by_cases hfit : s.len + s.len + 1 < 2^32
  · by_cases hr : Refused s (s.len + s.len) a
    · exact ⟨fun _ => ⟨_, _, concat_refused h (by simp) hzero hfit hr, u, h⟩,
        fun hq => absurd (.inr ⟨hfit, hr⟩) hq⟩
    · refine ⟨fun hq => (hq.elim hzero fun hq => hr hq.2).elim, fun _ => .inl ?_⟩
      obtain ⟨y, rest', hy, hys, -⟩ := reserve_granted h hr hfit
      have hne : u ≠ [] := fun h0 => hzero (by rw [hlen, h0]; rfl)
      rw [concat]
      simp only [reduceCtorEq, if_false, if_neg hzero,
        Nat.mod_eq_of_lt (show s.len + s.len < 2^32 by omega), hy, ok_bind, if_true, hys.buffer,
        Buffer.bytes, hys.len, strcpyFrom_own hs.noNul hne, error_bind]
  · refine ⟨fun hq => (hq.elim hzero fun hq => hfit hq.1).elim, fun _ => ?_⟩
    exact concat_oversize h (by simp) hzero (by omega) (by omega) fun _ => .inl rfl

end RasPiArduino.WString
