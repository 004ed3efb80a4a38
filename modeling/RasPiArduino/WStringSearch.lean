import RasPiArduino.Occurrence
import RasPiArduino.WStringGrow

/-! The searches indexOf() and lastIndexOf(): which place they find, and that the String is
afterwards what it was. -/
namespace RasPiArduino.WString
open CMemory Rewriting Occurrence

def indexOf₁ (s : WString) (ch : UInt8) : Except Fault Int := s.indexOf ch 0

def indexOfString₁ (s s2 : WString) : Except Fault Int := s.indexOfString s2 0

def lastIndexOf₁ (s : WString) (theChar : UInt8) : Except Fault (Int × WString) :=
  s.lastIndexOf theChar (minus s.len 1)

def lastIndexOfString₁ (s s2 : WString) : Except Fault Int :=
  s.lastIndexOfString s2 (minus s.len s2.len)

/-- A place as an int: from 2^31 on it is below 0. -/
def asInt : Option Nat → Int
  | none => -1
  | some i => if i < 2^31 then i else i - 2^32

def ReturnsLeast (P : Nat → Prop) (x : Except Fault Int) : Prop :=
  ∃ r, Least P r ∧ x = .ok (asInt r)

def ReturnsGreatest (P : Nat → Prop) (x : Except Fault Int) : Prop :=
  ∃ r, Greatest P r ∧ x = .ok (asInt r)

def ReturnsGreatestKeeping (P : Nat → Prop) (s : WString) (x : Except Fault (Int × WString)) :
    Prop :=
  ∃ r, Greatest P r ∧ x = .ok (asInt r, s)

variable {s p : WString} {t u rest : List UInt8} {c : UInt8} {i : Nat} {r : Option Nat}
  {P : Nat → Prop}

theorem position_some (h : i < 2^32) : position (some i) = asInt (some i) := by
  unfold position asInt
  dsimp only
  split
  · exact bmod_of_lt (by omega) (by omega)
  · exact bmod_of_ge (by omega) (by omega)

theorem position_eq_asInt (h : ∀ k ∈ r, k < 2^32) : position r = asInt r := by
  cases r with
  | none => rfl
  | some k => exact position_some (h k rfl)

/-! The searches of the C library. -/

theorem getElem?_terminated (hc : c ≠ 0) {k : Nat} :
    k < t.length + 1 ∧ decide ((t ++ [0])[k]? = some c) = true ↔ Occurs [c] t k := by
  rw [occurs_singleton, decide_eq_true_eq]
  by_cases hk : k < t.length
  · rw [List.getElem?_append_left hk]
    exact and_iff_right (by omega)
  · rw [List.getElem?_append_right (by omega), List.getElem?_eq_none (by omega : t.length ≤ k)]
    refine iff_of_false (fun h => ?_) (by simp)
    obtain ⟨hle, h⟩ := h
    rw [show k - t.length = 0 by omega] at h
    exact hc (Option.some.inj h).symm

theorem strchr_least (hc : c ≠ 0) (t : List UInt8) : Least (Occurs [c] t) (strchr t c) :=
  (least_congr fun _ => getElem?_terminated hc).mp (least_find _ _)

theorem strrchr_greatest (hc : c ≠ 0) (t : List UInt8) : Greatest (Occurs [c] t) (strrchr t c) :=
  (greatest_congr fun _ => getElem?_terminated hc).mp (greatest_find _ _)

theorem strstr_least (hu : u ≠ []) (t : List UInt8) : Least (Occurs u t) (strstr t u) := by
  refine (least_congr fun k => ?_).mp (least_find _ _)
  rw [List.isPrefixOf_iff_prefix, Occurs]
  by_cases hk : k < t.length
  · simp [hk, Nat.lt_succ_of_lt hk]
  · rw [List.drop_eq_nil_of_le (by omega), List.prefix_nil]
    simp [hu]

/-! The searches of a String. -/

theorem occurs_len (h : Contents s t) {k : Nat} (hk : Occurs u t k) : k < s.len := by
  rw [h.len_eq]
  exact hk.1

theorem returnsLeast_none (h : Contents s t) (hi : s.len ≤ i) :
    ReturnsLeast (fun k => i ≤ k ∧ Occurs u t k) (.ok (-1)) :=
  ⟨none, fun k hk => by have := occurs_len h hk.2; omega, rfl⟩

theorem returnsLeast_from (h : Contents s t) (hi : i ≤ t.length)
    (hr : Least (Occurs u (t.drop i)) r) :
    ReturnsLeast (fun k => i ≤ k ∧ Occurs u t k) (.ok (position (r.map (· + i)))) := by
  have hleast := ((least_congr fun k => occurs_drop hi).mp hr).add
  refine ⟨_, hleast, congrArg Except.ok (position_eq_asInt (hleast.lt fun k hk => ?_))⟩
  have hk := hk.2.1
  have hlen := h.length_fits
  omega

theorem indexOf_least (h : Contents s t) (hc : c ≠ 0) (i : Nat) :
    ReturnsLeast (fun k => i ≤ k ∧ Occurs [c] t k) (s.indexOf c i) := by
  rw [indexOf]
  split
  · next hi => exact returnsLeast_none h hi
  · next hi =>
    have hlen := h.len_eq
    obtain ⟨rest, hs⟩ := h.holds_of_ne_nil (List.ne_nil_of_length_pos (by omega))
    rw [hs.buffer, Buffer.bytes, ok_bind, cstring_drop hs.noNul (by omega), ok_bind]
    exact returnsLeast_from h (by omega) (strchr_least hc _)

theorem indexOfString_least (h : Contents s t) (hp : Contents p u) (hu : u ≠ []) (i : Nat) :
    ReturnsLeast (fun k => i ≤ k ∧ Occurs u t k) (s.indexOfString p i) := by
  obtain ⟨prest, hph⟩ := hp.holds_of_ne_nil hu
  rw [indexOfString]
  split
  · next hi => exact returnsLeast_none h hi
  · next hi =>
    have hlen := h.len_eq
    obtain ⟨rest, hs⟩ := h.holds_of_ne_nil (List.ne_nil_of_length_pos (by omega))
    rw [hs.buffer, Buffer.bytes, ok_bind, cstring_drop hs.noNul (by omega), ok_bind, hph.buffer,
      Buffer.bytes, ok_bind, cstring_append hph.noNul, ok_bind]
    exact returnsLeast_from h (by omega) (strstr_least hu _)

theorem lastIndexOf_greatest (h : Contents s t) (hc : c ≠ 0) (hi : i < s.len) :
    ReturnsGreatestKeeping (fun k => k ≤ i ∧ Occurs [c] t k) s (s.lastIndexOf c i) := by
  have hlen := h.len_eq
  obtain ⟨rest, hs⟩ := h.holds_of_ne_nil (List.ne_nil_of_length_pos (by omega))
  obtain ⟨x, b, hget, hput, ⟨w, rfl⟩, hback⟩ := put_put_back (show i + 1 ≤ t.length by omega) rest
  have hnul : 0 ∉ t.take (i+1) := fun hmem => hs.noNul (List.mem_of_mem_take hmem)
  have hgreatest : Greatest (fun k => k ≤ i ∧ Occurs [c] t k) (strrchr (t.take (i+1)) c) := by
    refine (greatest_congr fun k => ?_).mp (strrchr_greatest hc _)
    rw [occurs_take, Nat.lt_succ_iff]
  have hplace := position_eq_asInt (hgreatest.lt fun k hk => by
    have hk := hk.1
    have hfits := h.length_fits
    show k < 2^32
    omega)
  refine ⟨_, hgreatest, ?_⟩
  rw [lastIndexOf, if_neg (by omega), hs.buffer, Buffer.bytes, ok_bind, hget, ok_bind, hput,
    ok_bind, cstring_append hnul, ok_bind, hback, ok_bind, ← hs.buffer, hplace]

/-- The loop over strstr ends at the last place that `a` has, also among overlapping ones. -/
theorem lastIndexOfString_greatest (h : Contents s t) (hp : Contents p u) (hu : u ≠ []) (i : Nat) :
    ReturnsGreatest (fun k => k ≤ min i (s.len - 1) ∧ Occurs u t k) (s.lastIndexOfString p i) := by
  have hlen := h.len_eq
  have hplen := hp.len_eq
  have hpos := List.length_pos_iff.mpr hu
  obtain ⟨prest, hph⟩ := hp.holds_of_ne_nil hu
  rw [lastIndexOfString]
  split
  · next hskip =>
    refine ⟨none, fun k hk => ?_, rfl⟩
    have hlt := hk.2.1
    have hle := hk.2.length_le
    omega
  · next hskip =>
    obtain ⟨rest, hs⟩ := h.holds_of_ne_nil (List.ne_nil_of_length_pos (by omega))
    have hbound : (if i ≥ s.len then s.len - 1 else i) = min i (s.len - 1) := by
      split <;> omega
    obtain ⟨f, hf⟩ : ∃ f, f = min i (s.len - 1) := ⟨_, rfl⟩
    have htake : (t.take (f + 1)).length = f + 1 := List.length_take_of_le (by omega)
    have hnul : 0 ∉ [] ++ (t.take (f + 1) ++ t.drop (f + 1)) := by
      rw [List.nil_append, List.take_append_drop]
      exact hs.noNul
    obtain ⟨j, hj, hcases⟩ := lastIndexLoop_spec hu hnul (i := f) (n := f + 1)
      (by rw [List.length_nil]; omega) htake.le rest (-1)
    rw [List.nil_append, List.take_append_drop, List.length_nil] at hj
    simp only [hbound, ← hf, hs.buffer, hph.buffer, Buffer.bytes, ok_bind,
      cstring_append hph.noNul, hj]
    have hinside : ∀ k, k < (t.take (f + 1)).length ∧
        Occurs u (t.take (f + 1) ++ t.drop (f + 1)) k ↔ k ≤ f ∧ Occurs u t k := by
      intro k
      rw [htake, List.take_append_drop, Nat.lt_succ_iff]
    cases hcases with
    | inl hquiet =>
      exact ⟨none, (greatest_congr hinside).mp (greatest_of_quiet hquiet.1), by rw [hquiet.2]; rfl⟩
    | inr hlast =>
      obtain ⟨q, hlast, hjq⟩ := hlast
      have hfits := h.length_fits
      have hq := hlast.1
      refine ⟨some q, (greatest_congr hinside).mp (greatest_of_lastAt hlast), ?_⟩
      rw [hjq, List.length_nil, Nat.zero_add, position_some (by omega)]

/-! The forms with one argument. -/

theorem lastIndexOf₁_eq (h : Contents s t) (c : UInt8) :
    s.lastIndexOf₁ c = s.lastIndexOf c (s.len - 1) := by
  have hfits := h.length_fits
  rw [← h.len_eq] at hfits
  rw [lastIndexOf₁]
  by_cases hzero : s.len = 0
  · rw [hzero, minus_of_lt (by omega) (by omega), lastIndexOf, lastIndexOf, if_pos (by omega),
      if_pos (by omega)]
  · rw [minus_of_le (by omega) (by omega)]

theorem lastIndexOfString₁_eq (h : Contents s t) (p : WString) :
    s.lastIndexOfString₁ p = s.lastIndexOfString p (s.len - p.len) := by
  have hfits := h.length_fits
  rw [← h.len_eq] at hfits
  rw [lastIndexOfString₁]
  by_cases hshort : p.len ≤ s.len
  · rw [minus_of_le hshort (by omega)]
  · rw [lastIndexOfString, lastIndexOfString, if_pos (by omega), if_pos (by omega)]

theorem lastIndexOf₁_greatest (h : Contents s t) (hc : c ≠ 0) :
    ReturnsGreatestKeeping (Occurs [c] t) s (s.lastIndexOf₁ c) := by
  rw [lastIndexOf₁_eq h]
  by_cases hzero : s.len = 0
  · refine ⟨none, fun k hk => ?_, ?_⟩
    · have hlt := occurs_len h hk
      omega
    · rw [lastIndexOf, if_pos (by omega)]
      rfl
  · obtain ⟨r, hr, hcall⟩ := lastIndexOf_greatest h hc (show s.len - 1 < s.len by omega)
    refine ⟨r, (greatest_congr fun k => and_iff_right_of_imp fun hk => ?_).mp hr, hcall⟩
    have hlt := occurs_len h hk
    omega

theorem lastIndexOfString₁_greatest (h : Contents s t) (hp : Contents p u) (hu : u ≠ []) :
    ReturnsGreatest (Occurs u t) (s.lastIndexOfString₁ p) := by
  rw [lastIndexOfString₁_eq h p]
  obtain ⟨r, hr, hcall⟩ := lastIndexOfString_greatest h hp hu (s.len - p.len)
  refine ⟨r, (greatest_congr fun k => and_iff_right_of_imp fun hk => ?_).mp hr, hcall⟩
  have hpos := List.length_pos_iff.mpr hu
  have hlen := h.len_eq
  have hplen := hp.len_eq
  have hle := hk.length_le
  omega

structure Searches (s p : WString) (t u : List UInt8) (c : UInt8) (i : Nat) : Prop where
  indexOf : ReturnsLeast (fun k => i ≤ k ∧ Occurs [c] t k) (s.indexOf c i)
  indexOfString : ReturnsLeast (fun k => i ≤ k ∧ Occurs u t k) (s.indexOfString p i)
  lastIndexOf : i < s.len →
    ReturnsGreatestKeeping (fun k => k ≤ i ∧ Occurs [c] t k) s (s.lastIndexOf c i)
  lastIndexOfString :
    ReturnsGreatest (fun k => k ≤ min i (s.len - 1) ∧ Occurs u t k) (s.lastIndexOfString p i)
  indexOf₁ : s.indexOf₁ c = s.indexOf c 0
  indexOfString₁ : s.indexOfString₁ p = s.indexOfString p 0
  lastIndexOf₁ : s.lastIndexOf₁ c = s.lastIndexOf c (s.len - 1) ∧
    ReturnsGreatestKeeping (Occurs [c] t) s (s.lastIndexOf₁ c)
  lastIndexOfString₁ : s.lastIndexOfString₁ p = s.lastIndexOfString p (s.len - p.len) ∧
    ReturnsGreatest (Occurs u t) (s.lastIndexOfString₁ p)

theorem searches (hs : Contents s t) (hp : Contents p u) (hu : u ≠ []) (hc : c ≠ 0) (i : Nat) :
    Searches s p t u c i where
  indexOf := indexOf_least hs hc i
  indexOfString := indexOfString_least hs hp hu i
  lastIndexOf := lastIndexOf_greatest hs hc
  lastIndexOfString := lastIndexOfString_greatest hs hp hu i
  indexOf₁ := rfl
  indexOfString₁ := rfl
  lastIndexOf₁ := ⟨lastIndexOf₁_eq hs c, lastIndexOf₁_greatest hs hc⟩
  lastIndexOfString₁ := ⟨lastIndexOfString₁_eq hs p, lastIndexOfString₁_greatest hs hp hu⟩

theorem searches_aab : Searches ⟨.block [97, 97, 98, 0], 3, 3⟩ ⟨.block [97, 98, 0], 2, 2⟩
    [97, 97, 98] [97, 98] 98 1 :=
  searches (.inr ⟨[], rfl, rfl, rfl, by decide, by decide⟩)
    (.inr ⟨[], rfl, rfl, rfl, by decide, by decide⟩) (by decide) (by decide) 1

/-! A place from 2^31 on. -/

def longText (n : Nat) : List UInt8 := List.replicate n 97 ++ [98]

def ofLongText (n : Nat) : WString := ⟨.block (longText n ++ [0]), n + 1, n + 1⟩

theorem ofLongText_holds {n : Nat} (h : n + 2 < 2^32) : Holds (ofLongText n) (longText n) [] :=
  ⟨rfl, by simp [ofLongText, longText], by simp [ofLongText, longText],
    by simp [longText, List.mem_replicate], h⟩

theorem least_longText (n : Nat) : Least (Occurs [98] (longText n)) (some n) := by
  constructor
  · show Occurs [98] (longText n) n
    simp [occurs_singleton, longText]
  · intro k hk
    by_contra hlt
    have hk : (longText n)[k]? = some 98 := occurs_singleton.mp hk
    rw [longText, List.getElem?_append_left (by rw [List.length_replicate]; omega),
      List.getElem?_replicate, if_pos (by omega)] at hk
    simp at hk

theorem indexOf_longText {n : Nat} (h : n + 2 < 2^32) :
    (ofLongText n).indexOf 98 0 = .ok (asInt (some n)) := by
  obtain ⟨r, hr, hcall⟩ := indexOf_least (ofLongText_holds h).contents (c := 98) (by decide) 0
  have hleast := (least_congr fun k => and_iff_right (Nat.zero_le k)).mp hr
  rw [hcall, hleast.unique (least_longText n)]

/-- The char is at the place 2^31, and the int is below 0. -/
theorem indexOf_negative :
    Contents (ofLongText (2^31)) (longText (2^31)) ∧
      (ofLongText (2^31)).indexOf 98 0 = .ok (-2^31) ∧
      ¬ ∃ r, Least (fun k => 0 ≤ k ∧ Occurs [98] (longText (2^31)) k) r ∧
        (ofLongText (2^31)).indexOf 98 0 = .ok (r.elim (-1) fun k => (k : Int)) := by
  have hfits : 2^31 + 2 < 2^32 := by norm_num
  have hcall : (ofLongText (2^31)).indexOf 98 0 = .ok (-2^31) := by
    rw [indexOf_longText hfits]
    norm_num [asInt]
  refine ⟨(ofLongText_holds hfits).contents, hcall, fun h => ?_⟩
  obtain ⟨r, -, hr⟩ := h
  rw [hcall] at hr
  have hr := Except.ok.inj hr
  cases r with
  | none => norm_num at hr
  | some k =>
    simp only [Option.elim_some] at hr
    omega

end RasPiArduino.WString
