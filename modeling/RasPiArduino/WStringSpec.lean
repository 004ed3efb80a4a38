import RasPiArduino.WString

/-! What the operations of a String leave in its buffer. -/
namespace RasPiArduino.WString
open CMemory Shift

/-- The buffer holds the chars of `t`, a NUL and then `rest`. -/
structure Holds (s : WString) (t rest : List UInt8) : Prop where
  buffer : s.buffer = .block (t ++ 0 :: rest)
  len : s.len = t.length
  capacity : s.capacity = t.length + rest.length
  noNul : 0 ∉ t
  fits : s.capacity + 1 < 2^32

/-- The chars of a String; one without a buffer has none. -/
def Contents (s : WString) (t : List UInt8) : Prop :=
  (s.buffer = .null ∧ s.len = 0 ∧ t = []) ∨ ∃ rest, Holds s t rest

def Refused (s : WString) (size : Nat) (a : Option Alloc) : Prop :=
  a = none ∧ (s.buffer = .null ∨ s.capacity < size)

variable {s : WString} {t u rest : List UInt8} {n : Nat} {a : Option Alloc}

theorem Holds.contents (h : Holds s t rest) : Contents s t := .inr ⟨rest, h⟩

theorem init_contents : Contents init [] := .inl ⟨rfl, rfl, rfl⟩

theorem Contents.len_eq (h : Contents s t) : s.len = t.length := by
  obtain ⟨-, hlen, rfl⟩ | ⟨rest, h⟩ := h
  · exact hlen
  · exact h.len

theorem Contents.noNul (h : Contents s t) : 0 ∉ t := by
  obtain ⟨-, -, rfl⟩ | ⟨rest, h⟩ := h
  · exact List.not_mem_nil
  · exact h.noNul

theorem Contents.not_freed (h : Contents s t) : s.buffer ≠ .freed := by
  obtain ⟨hb, -⟩ | ⟨rest, h⟩ := h
  · simp [hb]
  · simp [h.buffer]

theorem Contents.invalidate (h : Contents s t) : s.invalidate = .ok init := if_neg h.not_freed

theorem Contents.holds (h : Contents s t) (hb : s.buffer ≠ .null) : ∃ rest, Holds s t rest :=
  h.resolve_left fun h => hb h.1

theorem Contents.holds_of_ne_nil (h : Contents s t) (ht : t ≠ []) : ∃ rest, Holds s t rest :=
  h.resolve_left fun h => ht h.2.2

theorem Contents.length_fits (h : Contents s t) : t.length + 1 < 2^32 := by
  obtain ⟨-, -, rfl⟩ | ⟨rest, h⟩ := h
  · simp
  · have := h.fits
    have := h.capacity
    omega

theorem reserve_enough (hb : s.buffer ≠ .null) (hc : n ≤ s.capacity) :
    s.reserve n a = .ok (true, s) := if_pos ⟨hb, hc⟩

theorem reserve_refused (h : Contents s t) (hr : Refused s n a) (hn : n + 1 < 2^32) :
    s.reserve n a = .ok (false, s) := by
  obtain ⟨rfl, hneed⟩ := hr
  have hpos : ¬ (s.buffer ≠ .null ∧ s.capacity ≥ n) := by
    rintro ⟨hb, hc⟩
    obtain hb' | hc' := hneed
    · exact hb hb'
    · omega
  rw [reserve, if_neg hpos, changeBuffer, Nat.mod_eq_of_lt hn]
  obtain ⟨hb, -⟩ | ⟨rest, h⟩ := h
  · simp only [hb, realloc, ok_bind, ne_eq, not_true_eq_false, if_false, Bool.false_eq_true]
    rw [← hb]
  · simp only [h.buffer, realloc, ok_bind, ne_eq, not_true_eq_false, if_false,
      Bool.false_eq_true, Nat.succ_ne_zero]
    rw [← h.buffer]

/-- Where no allocation is refused the chars stay, and there is room for `n`. -/
theorem reserve_granted (h : Contents s t) (hr : ¬ Refused s n a) (hn : n + 1 < 2^32) :
    ∃ s' rest, s.reserve n a = .ok (true, s') ∧ Holds s' t rest ∧ n ≤ s'.capacity := by
  by_cases henough : s.buffer ≠ .null ∧ s.capacity ≥ n
  · obtain ⟨rest, hs⟩ := h.holds henough.1
    exact ⟨s, rest, if_pos henough, hs, henough.2⟩
  obtain ⟨al, rfl⟩ : ∃ al, a = some al := by
    refine Option.ne_none_iff_exists'.mp fun ha => hr ⟨ha, ?_⟩
    by_cases hb : s.buffer = .null
    · exact .inl hb
    · exact .inr (by simpa [hb] using henough)
  rw [reserve, if_neg henough, changeBuffer, Nat.mod_eq_of_lt hn]
  obtain ⟨hb, hlen, rfl⟩ | ⟨rest, hs⟩ := h
  · obtain ⟨c, r, hcr⟩ := List.exists_cons_of_length_pos
      (show 0 < (resize [] al.fresh (n+1)).length by simp)
    have hrlen : r.length = n := by
      have hl := congrArg List.length hcr
      simpa using hl.symm
    simp only [hb, realloc, ok_bind, ne_eq, reduceCtorEq, not_false_eq_true, if_true, hlen, hcr,
      Buffer.bytes, put_eq (show 0 < (c :: r).length by simp)]
    exact ⟨_, r, rfl, ⟨rfl, rfl, by simp [hrlen], List.not_mem_nil, hn⟩, le_rfl⟩
  · have hlt : s.capacity < n := by
      have hne : s.buffer ≠ .null := by simp [hs.buffer]
      simpa [hne] using henough
    have hcap := hs.capacity
    obtain ⟨r, hr'⟩ := resize_append (t := t ++ [0]) (n := n+1) (by simp; omega) rest al.fresh
    have hrlen : r.length = n - t.length := by
      have hl := congrArg List.length hr'
      simp at hl
      omega
    rw [List.append_assoc, List.append_assoc, List.singleton_append, List.singleton_append] at hr'
    have hs' : Holds { s with buffer := .block (t ++ 0 :: r), capacity := n } t r :=
      ⟨rfl, hs.len, by simp only; omega, hs.noNul, hn⟩
    simp only [hs.buffer, realloc, Nat.succ_ne_zero, if_false, ok_bind, hr', ne_eq, reduceCtorEq,
      not_false_eq_true, if_true]
    split
    · next hzero =>
      obtain rfl : t = [] := List.eq_nil_of_length_eq_zero (hs.len.symm.trans hzero)
      rw [Buffer.bytes, ok_bind, put_eq (by simp), ok_bind]
      exact ⟨_, r, rfl, hs', le_rfl⟩
    · exact ⟨_, r, rfl, hs', le_rfl⟩

theorem reserve_contents (h : Contents s t) (hn : n + 1 < 2^32) :
    ∃ done s', s.reserve n a = .ok (done, s') ∧ Contents s' t := by
  by_cases hr : Refused s n a
  · exact ⟨_, _, reserve_refused h hr hn, h⟩
  · obtain ⟨s', rest, he, hs, -⟩ := reserve_granted h hr hn
    exact ⟨_, _, he, hs.contents⟩

theorem copy_contents (h : Contents s u) (ht : 0 ∉ t) (hn : t.length + 1 < 2^32) :
    ∃ s' v, s.copy t t.length a = .ok s' ∧ Contents s' v ∧
      (¬ Refused s t.length a → v = t ∧ s'.buffer ≠ .null) := by
  by_cases hr : Refused s t.length a
  · refine ⟨init, [], ?_, init_contents, fun h => absurd hr h⟩
    rw [copy, reserve_refused h hr hn, ok_bind]
    exact h.invalidate
  · obtain ⟨s', rest, he, hs, hcap⟩ := reserve_granted h hr hn
    have hroom : t.length + 1 ≤ (u ++ 0 :: rest).length := by
      have := hs.capacity
      simp
      omega
    have hcopy : strcpy (u ++ 0 :: rest) 0 t =
        .ok (t ++ 0 :: (u ++ 0 :: rest).drop (t.length + 1)) := strcpy_fits (d := []) hroom
    have hnew : Holds { s' with
        buffer := .block (t ++ 0 :: (u ++ 0 :: rest).drop (t.length + 1))
        len := t.length } t ((u ++ 0 :: rest).drop (t.length + 1)) := by
      refine ⟨rfl, rfl, ?_, ht, hs.fits⟩
      have := hs.capacity
      simp only [List.length_drop, List.length_append, List.length_cons]
      omega
    refine ⟨_, t, ?_, hnew.contents, fun _ => ⟨rfl, by simp⟩⟩
    rw [copy, he, ok_bind]
    simp only [if_true, hs.buffer, Buffer.bytes, ok_bind, hcopy]

theorem copy_refused (h : Contents s u) (hr : Refused s n a) (hn : n + 1 < 2^32) :
    s.copy t n a = .ok init := by
  rw [copy, reserve_refused h hr hn, ok_bind]
  exact h.invalidate

theorem concat_refused (h : Contents s u) {p : Pointer} (hp : p ≠ .null) (hn : n ≠ 0)
    (hfit : s.len + n + 1 < 2^32) (hr : Refused s (s.len + n) a) :
    s.concat p n a = .ok (false, s) := by
  rw [concat]
  simp only [if_neg hp, if_neg hn, Nat.mod_eq_of_lt (show s.len + n < 2^32 by omega),
    reserve_refused h hr hfit, ok_bind, Bool.false_eq_true, if_false]

theorem concat_granted (h : Contents s u) (ht : 0 ∉ t) (hlen : t.length ≤ n) (hn : n ≠ 0)
    (hfit : s.len + n + 1 < 2^32) (hr : ¬ Refused s (s.len + n) a) :
    ∃ s' rest, s.concat (.text t) n a = .ok (true, s') ∧ Holds s' (u ++ t) rest := by
  obtain ⟨s', rest, he, hs, hcap⟩ := reserve_granted h hr hfit
  have hsl := h.len_eq
  have hsc := hs.capacity
  have hroom : t.length + 1 ≤ (0 :: rest).length := by
    simp only [List.length_cons]
    omega
  have hnul : 0 ∉ u ++ t := by simp [hs.noNul, ht]
  have hcopy := strcpy_fits (d := u) hroom
  rw [List.drop_succ_cons, ← List.append_assoc] at hcopy
  refine ⟨{ s' with
    buffer := .block (u ++ t ++ 0 :: rest.drop t.length)
    len := (u ++ t).length }, rest.drop t.length, ?_, rfl, rfl, ?_, hnul, hs.fits⟩
  · rw [concat]
    simp only [if_neg hn, Nat.mod_eq_of_lt (show s.len + n < 2^32 by omega), he, ok_bind, if_true,
      hs.buffer, hs.len, Buffer.bytes, strcpyFrom, hcopy, cstring_append hnul, reduceCtorEq,
      if_false]
    rw [Nat.mod_eq_of_lt]
    have := hs.fits
    simp only [List.length_append]
    omega
  · simp only [List.length_append, List.length_drop, List.length_cons] at hroom ⊢
    omega

theorem Holds.overwrite (h : Holds s t rest) {i : Nat} (hi : i < s.len) (c : UInt8) :
    put (t ++ 0 :: rest) i c = .ok (t.set i c ++ 0 :: rest) := by
  have hlt : i < t.length := h.len ▸ hi
  rw [put_eq (by simp; omega), List.set_append_left _ _ hlt]

theorem Holds.set (h : Holds s t rest) (i : Nat) {c : UInt8} (hc : c ≠ 0) :
    Holds { s with buffer := .block (t.set i c ++ 0 :: rest) } (t.set i c) rest := by
  refine ⟨rfl, by simpa using h.len, by simpa using h.capacity, fun hmem => ?_, h.fits⟩
  obtain hmem | he := List.mem_or_eq_of_mem_set hmem
  · exact h.noNul hmem
  · exact hc he.symm

theorem setCharAt_eq (h : Contents s t) {i : Nat} (hi : i < s.len) (c : UInt8) :
    ∃ rest, Holds s t rest ∧
      s.setCharAt i c = .ok { s with buffer := .block (t.set i c ++ 0 :: rest) } := by
  obtain ⟨-, hlen, -⟩ | ⟨rest, h⟩ := h
  · omega
  · refine ⟨rest, h, ?_⟩
    rw [setCharAt, if_pos hi, h.buffer, Buffer.bytes, ok_bind, h.overwrite hi, ok_bind]

theorem setIndex_eq (h : Contents s t) {i : Nat} (hi : i < s.len) (c : UInt8) :
    s.setIndex i c = s.setCharAt i c := by
  have hb : s.buffer ≠ .null := by
    obtain ⟨-, hlen, -⟩ | ⟨rest, h⟩ := h
    · omega
    · simp [h.buffer]
  rw [setIndex, setCharAt, if_pos hi, if_neg (by simp [hb]; omega)]

theorem Holds.mapBuffer (h : Holds s t rest) (f : UInt8 → UInt8) :
    s.mapBuffer f = .ok { s with buffer := .block (t.map f ++ 0 :: rest) } := by
  rw [WString.mapBuffer, if_neg (by simp [h.buffer]), h.buffer, Buffer.bytes, ok_bind,
    mapString_append h.noNul, ok_bind]

theorem mapBuffer_null (hb : s.buffer = .null) (f : UInt8 → UInt8) : s.mapBuffer f = .ok s :=
  if_pos hb

theorem mapBuffer_contents (h : Contents s t) {f : UInt8 → UInt8} (hf : ∀ c ∈ t, f c ≠ 0) :
    ∃ s', s.mapBuffer f = .ok s' ∧ Contents s' (t.map f) := by
  obtain ⟨hb, hlen, rfl⟩ | ⟨rest, h⟩ := h
  · exact ⟨s, mapBuffer_null hb f, .inl ⟨hb, hlen, rfl⟩⟩
  · refine ⟨_, h.mapBuffer f, .inr ⟨rest, rfl, by simpa using h.len, by simpa using h.capacity,
      fun hmem => ?_, h.fits⟩⟩
    obtain ⟨c, hc, h0⟩ := List.mem_map.mp hmem
    exact hf c hc h0

theorem tolower_ne_zero {c : UInt8} (hc : c ≠ 0) : tolower c ≠ 0 := by
  unfold tolower
  split
  · next h =>
    intro h0
    have := congrArg UInt8.toNat h0
    have h1 := UInt8.le_iff_toNat_le.mp h.1
    have h2 := UInt8.le_iff_toNat_le.mp h.2
    simp [UInt8.toNat_add] at this h1 h2
    omega
  · exact hc

theorem toupper_ne_zero {c : UInt8} (hc : c ≠ 0) : toupper c ≠ 0 := by
  unfold toupper
  split
  · next h =>
    intro h0
    have := congrArg UInt8.toNat h0
    have h1 := UInt8.le_iff_toNat_le.mp h.1
    have h2 := UInt8.le_iff_toNat_le.mp h.2
    simp [UInt8.toNat_sub] at this h1 h2
    omega
  · exact hc

theorem trimEnd_spec {b : List UInt8} {first : Nat} :
    ∀ {e : Nat}, 0 < e → e ≤ b.length → first ≤ e →
      (first < e → ∃ c, b[first]? = some c ∧ isspace c = false) →
      ∃ last, trimEnd b first e = .ok last ∧ first ≤ last ∧ last ≤ e
  | 0, h, _, _, _ => absurd h (by omega)
  | e+1, _, hlen, hle, hstop => by
    obtain ⟨c, hc⟩ : ∃ c, b[e]? = some c := ⟨b[e], List.getElem?_eq_getElem (by omega)⟩
    rw [trimEnd, get_eq hc, ok_bind]
    split
    · next h =>
      have hfe : first ≠ e := by
        rintro rfl
        obtain ⟨c', hc', hs⟩ := hstop (by omega)
        obtain rfl : c = c' := by simpa [hc] using hc'
        simp [hs] at h
      obtain ⟨last, hl, h1, h2⟩ := trimEnd_spec (e := e) (by omega) (by omega) h.2
        fun _ => hstop (by omega)
      exact ⟨last, hl, h1, by omega⟩
    · exact ⟨e+1, rfl, hle, le_rfl⟩

theorem takeWhile_isspace (t rest : List UInt8) :
    (t ++ 0 :: rest).takeWhile isspace = t.takeWhile isspace := by
  induction t with
  | nil => rfl
  | cons c t ih => simp only [List.cons_append, List.takeWhile_cons, ih]

theorem getElem?_length_takeWhile {l : List UInt8} {p : UInt8 → Bool}
    (h : (l.takeWhile p).length < l.length) :
    ∃ c, l[(l.takeWhile p).length]? = some c ∧ p c = false := by
  induction l with
  | nil => simp at h
  | cons c l ih =>
    cases hc : p c with
    | true =>
      simp only [List.takeWhile_cons, hc, if_true, List.length_cons] at h ⊢
      simpa using ih (by omega)
    | false =>
      simp only [List.takeWhile_cons, hc, Bool.false_eq_true, if_false, List.length_nil]
      exact ⟨c, rfl, hc⟩

theorem holds_of_take {b v : List UInt8} {k : Nat} (hk : k < b.length) (hv : b.take k = v)
    (hnul : 0 ∉ v) (hcap : b.length = s.capacity + 1) (hfits : s.capacity + 1 < 2^32) :
    Holds { s with buffer := .block (b.set k 0), len := k } v (b.drop (k+1)) := by
  have hlen : v.length = k := by rw [← hv, List.length_take]; omega
  refine ⟨?_, hlen.symm, ?_, hnul, hfits⟩
  · rw [List.set_eq_take_append_cons_drop, if_pos hk, hv]
  · simp only [List.length_drop]
    omega

/-- trim leaves chars of the String, in one piece. -/
theorem trim_contents (h : Contents s t) : ∃ s' v, s.trim = .ok s' ∧ Contents s' v := by
  by_cases hskip : s.buffer = .null ∨ s.len = 0
  · exact ⟨s, t, if_pos hskip, h⟩
  obtain ⟨hb, hne⟩ := not_or.mp hskip
  obtain ⟨rest, hs⟩ := h.holds hb
  rw [trim, if_neg hskip, hs.buffer, Buffer.bytes, ok_bind, takeWhile_isspace, hs.len]
  generalize hfirst : (t.takeWhile isspace).length = first
  have hle : first ≤ t.length := hfirst ▸ (List.takeWhile_prefix isspace).length_le
  have hblen : (t ++ 0 :: rest).length = s.capacity + 1 := by
    have := hs.capacity
    simp
    omega
  have hbig : t.length < (t ++ 0 :: rest).length := by simp
  have hget : get (t ++ 0 :: rest) first = .ok (t ++ 0 :: rest)[first] :=
    get_eq (List.getElem?_eq_getElem (by omega))
  have hstop : first < t.length → ∃ c, (t ++ 0 :: rest)[first]? = some c ∧ isspace c = false := by
    intro hlt
    subst hfirst
    obtain ⟨c, hc, hsp⟩ := getElem?_length_takeWhile hlt
    exact ⟨c, by rw [List.getElem?_append_left hlt, hc], hsp⟩
  obtain ⟨last, hlast, hfl, hlt⟩ :=
    trimEnd_spec (e := t.length) (by have := hs.len; omega) hbig.le hle hstop
  have htake : ((t ++ 0 :: rest).take (last - first + first)).drop first =
      (t.take last).drop first := by
    rw [Nat.sub_add_cancel hfl, List.take_append_of_le_length hlt]
  have hnul : 0 ∉ (t.take last).drop first := fun hmem =>
    hs.noNul (List.mem_of_mem_take (List.mem_of_mem_drop hmem))
  simp only [hget, ok_bind, hlast]
  by_cases hzero : 0 < first
  · obtain ⟨ys, hys⟩ : ∃ ys, shiftDown first (last - first) (t ++ 0 :: rest) = some ys :=
      shiftDown_some_iff.mpr (.inr (by omega))
    have hlen := (shiftDown_spec hys).1
    have hk : last - first < ys.length := by omega
    have hv := (take_shiftDown hys le_rfl).trans htake
    simp only [if_pos hzero, memcpyDown, hys, ok_bind, put_eq hk]
    exact ⟨_, _, rfl, (holds_of_take hk hv hnul (hlen.trans hblen) hs.fits).contents⟩
  · obtain rfl : first = 0 := by omega
    simp only [lt_self_iff_false, if_false, ok_bind, Nat.sub_zero, put_eq (hlt.trans_lt hbig)]
    have hv : (t ++ 0 :: rest).take last = t.take last := List.take_append_of_le_length hlt
    exact ⟨_, _, rfl, (holds_of_take (hlt.trans_lt hbig) hv (by simpa using hnul) hblen
      hs.fits).contents⟩

theorem cstring_drop (ht : 0 ∉ t) {i : Nat} (hi : i ≤ t.length) (rest : List UInt8) :
    cstring ((t ++ 0 :: rest).drop i) = .ok (t.drop i) := by
  rw [List.drop_append_of_le_length hi]
  exact cstring_append (fun hmem => ht (List.mem_of_mem_drop hmem)) rest

theorem put_put_back {i : Nat} (hi : i ≤ t.length) (rest : List UInt8) : ∃ c b,
    get (t ++ 0 :: rest) i = .ok c ∧ put (t ++ 0 :: rest) i 0 = .ok b ∧
      (∃ r, b = t.take i ++ 0 :: r) ∧ put b i c = .ok (t ++ 0 :: rest) := by
  have hlt : i < (t ++ 0 :: rest).length := by simp; omega
  refine ⟨(t ++ 0 :: rest)[i], (t ++ 0 :: rest).set i 0, get_eq (List.getElem?_eq_getElem hlt),
    put_eq hlt 0, ?_, ?_⟩
  · rw [List.set_eq_take_append_cons_drop, if_pos hlt, List.take_append_of_le_length hi]
    exact ⟨_, rfl⟩
  · rw [put_eq (by simpa using hlt), List.set_set, List.set_getElem_self]

theorem lastIndexOf_eq (h : Contents s t) (ch : UInt8) (i : Nat) :
    ∃ r, s.lastIndexOf ch i = .ok (r, s) := by
  rw [lastIndexOf]
  split
  · exact ⟨-1, rfl⟩
  · next hi =>
    have hlen := h.len_eq
    obtain ⟨-, hzero, -⟩ | ⟨rest, hs⟩ := h
    · omega
    · obtain ⟨c, b, hget, hput, ⟨r, rfl⟩, hback⟩ :=
        put_put_back (show i + 1 ≤ t.length by omega) rest
      have hnul : 0 ∉ t.take (i+1) := fun hmem => hs.noNul (List.mem_of_mem_take hmem)
      rw [hs.buffer, Buffer.bytes, ok_bind, hget, ok_bind, hput, ok_bind,
        cstring_append hnul, ok_bind, hback, ok_bind, ← hs.buffer]
      exact ⟨_, rfl⟩

/-- substring leaves the String as it was; a String without a buffer may be read at 0. -/
theorem substring_eq (h : Contents s t) (left right : Nat) (a₁ a₂ : Option Alloc) :
    s.substring left right a₁ a₂ = .error .null ∨
      ∃ out v, s.substring left right a₁ a₂ = .ok (out, s) ∧ Contents out v := by
  obtain ⟨out, u, hout, hu, -⟩ := copy_contents (a := a₁) init_contents (List.not_mem_nil (a := 0))
    (by simp)
  have hof : ofCstr (some []) a₁ = .ok out := hout
  obtain ⟨l, r₀, hp, hlr⟩ : ∃ l r, (if left > right then (right, left) else (left, right)) = (l, r)
      ∧ l ≤ r := by
    split
    · exact ⟨_, _, rfl, by omega⟩
    · exact ⟨_, _, rfl, by omega⟩
  rw [substring, hof, hp]
  simp only [ok_bind]
  split
  · exact .inr ⟨out, u, rfl, hu⟩
  · next hleft =>
    have hlen := h.len_eq
    obtain ⟨hb, -⟩ | ⟨rest, hs⟩ := h
    · left
      rw [hb]
      rfl
    · right
      generalize hr : (if r₀ > s.len then s.len else r₀) = r
      have hrl : l ≤ r ∧ r ≤ t.length := by
        rw [← hr]
        split <;> omega
      obtain ⟨c, b, hget, hput, ⟨r', rfl⟩, hback⟩ := put_put_back hrl.2 rest
      have hnul : 0 ∉ t.take r := fun hmem => hs.noNul (List.mem_of_mem_take hmem)
      have hnul' : 0 ∉ (t.take r).drop l := fun hmem => hnul (List.mem_of_mem_drop hmem)
      have hfits : ((t.take r).drop l).length + 1 < 2^32 := by
        have hsl := hs.contents.length_fits
        simp only [List.length_drop, List.length_take]
        omega
      obtain ⟨out', v, hcopy, hv, -⟩ := copy_contents (a := a₂) hu hnul' hfits
      have hassign : out.assignCstr (some ((t.take r).drop l)) a₂ = .ok out' := by
        rw [assignCstr, Nat.mod_eq_of_lt (by omega), hcopy]
      simp only [hs.buffer, Buffer.bytes, ok_bind, hget, hput,
        cstring_drop hnul (show l ≤ (t.take r).length by rw [List.length_take]; omega), hassign,
        hback]
      rw [← hs.buffer]
      exact ⟨out', v, rfl, hv⟩

theorem indexOf_defined (h : Contents s t) (ch : UInt8) (i : Nat) :
    ∃ r, s.indexOf ch i = .ok r := by
  rw [indexOf]
  split
  · exact ⟨-1, rfl⟩
  · next hi =>
    have hlen := h.len_eq
    obtain ⟨-, hzero, -⟩ | ⟨rest, hs⟩ := h
    · omega
    · rw [hs.buffer, Buffer.bytes, ok_bind, cstring_drop hs.noNul (by omega), ok_bind]
      exact ⟨_, rfl⟩

theorem indexOfString_defined {s2 : WString} (h : Contents s t) (h2 : Contents s2 u) (i : Nat) :
    s.indexOfString s2 i = .error .null ∨ ∃ r, s.indexOfString s2 i = .ok r := by
  rw [indexOfString]
  split
  · exact .inr ⟨-1, rfl⟩
  · next hi =>
    have hlen := h.len_eq
    obtain ⟨-, hzero, -⟩ | ⟨rest, hs⟩ := h
    · omega
    · rw [hs.buffer, Buffer.bytes, ok_bind, cstring_drop hs.noNul (by omega), ok_bind]
      obtain ⟨hb, -⟩ | ⟨rest2, hs2⟩ := h2
      · rw [hb]
        exact .inl rfl
      · rw [hs2.buffer, Buffer.bytes, ok_bind, cstring_append hs2.noNul, ok_bind]
        exact .inr ⟨_, rfl⟩

theorem lastIndexLoop_defined (ht : 0 ∉ t) {i : Nat} (hi : i ≤ t.length) (needle : List UInt8) :
    ∀ (n p : Nat) (found : Int), ∃ r, lastIndexLoop (t ++ 0 :: rest) needle i n p found = .ok r
  | 0, _, found => ⟨found, rfl⟩
  | n+1, p, found => by
    rw [lastIndexLoop]
    split
    · next hp =>
      rw [cstring_drop ht (by omega), ok_bind]
      split
      · exact ⟨found, rfl⟩
      · exact lastIndexLoop_defined ht hi needle n _ _
    · exact ⟨found, rfl⟩

theorem lastIndexOfString_defined {s2 : WString} (h : Contents s t) (h2 : Contents s2 u) (i : Nat) :
    ∃ r, s.lastIndexOfString s2 i = .ok r := by
  rw [lastIndexOfString]
  split
  · exact ⟨-1, rfl⟩
  · next hskip =>
    obtain ⟨h2len, hlen, -⟩ : s2.len ≠ 0 ∧ s.len ≠ 0 ∧ ¬ s2.len > s.len := by
      simpa [not_or] using hskip
    obtain ⟨-, hzero, -⟩ | ⟨rest, hs⟩ := h
    · exact absurd hzero hlen
    obtain ⟨-, hzero, -⟩ | ⟨rest2, hs2⟩ := h2
    · exact absurd hzero h2len
    simp only [hs.buffer, hs2.buffer, Buffer.bytes, ok_bind, cstring_append hs2.noNul]
    refine lastIndexLoop_defined hs.noNul ?_ _ _ _ _
    have := hs.len
    split <;> omega

/-! Differences of unsigned ints, and as ints. -/

theorem minus_of_le {m : Nat} (h : n ≤ m) (hm : m < 2^32) : minus m n = m - n := by
  unfold minus
  omega

theorem minus_of_lt {m : Nat} (h : m < n) (hn : n < 2^32) : minus m n = m + 2^32 - n := by
  unfold minus
  omega

theorem bmod_of_lt {m : Int} (hlow : -2^31 ≤ m) (hhigh : m < 2^31) : Int.bmod m (2^32) = m := by
  apply Int.bmod_eq_of_le
  · omega
  · omega

theorem bmod_of_ge {m : Int} (hlow : 2^31 ≤ m) (hhigh : m < 2^32) :
    Int.bmod m (2^32) = m - 2^32 := by
  rw [Int.bmod_eq_emod, Int.emod_eq_of_lt (by omega) (by omega), if_pos (by omega)]
  rfl

theorem bmod_of_le {m : Int} (hlow : -2^32 ≤ m) (hhigh : m < -2^31) :
    Int.bmod m (2^32) = m + 2^32 := by
  rw [← Int.add_bmod_right]
  apply bmod_of_lt
  · omega
  · omega

end RasPiArduino.WString
