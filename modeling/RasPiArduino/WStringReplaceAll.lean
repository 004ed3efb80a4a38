import RasPiArduino.WStringGrow

/-! What replace() makes of a String, over its three branches. -/
namespace RasPiArduino.WString
open CMemory Rewriting

/-- What the growing branch owes: no turn of its loop leaves the size that was computed. -/
def KeepsToSize (s find replace : WString) (a : Option Alloc) : Prop :=
  let diff := Int.bmod (replace.len - find.len) (2^32)
  ∀ size y, s.countSize find diff = .ok size → size ≠ s.len → s.fitSize size a = .ok (true, y) →
    EachTurn find replace diff size y.len y (Int.bmod (y.len - 1) (2^32))

def Granted (s : WString) (size : Nat) (a : Option Alloc) : Prop :=
  size ≤ s.capacity ∨ a ≠ none ∧ size + 1 < 2^32

/-- The loop of the growing branch begins: `d` more chars for each occurrence are some more, an
int holds the index, and there is a buffer for them. -/
def Entered (s : WString) (t f : List UInt8) (d : Nat) (a : Option Alloc) : Prop :=
  let size := (t.length + occurrences f t * d) % 2^32
  size ≠ t.length ∧ t.length ≤ 2^31 ∧ Granted s size a

/-- What a call owes: the text with `f` replaced by `r` from the left. -/
def Replaced (res : Except Fault WString) (t f r : List UInt8) : Prop :=
  ∃ y, res = .ok y ∧ Contents y (replaceAll f r t)

/-- Nothing to replace, or a replacement that is as long, or shorter, or longer with `f` met
nowhere but at its occurrences from the left; all in the range of an int. -/
def Replaceable (t f r : List UInt8) : Prop :=
  ¬ f <:+: t ∨ r.length = f.length ∨ (r.length < f.length ∧ f.length - r.length ≤ 2^31) ∨
    (f.length < r.length ∧ r.length - f.length < 2^31 ∧ t.length ≤ 2^31 ∧
      t.length + occurrences f t * (r.length - f.length) + 1 < 2^32 ∧
      Apart f r (cut f 0 t).1 (cut f 0 t).2)

variable {s find replace y : WString} {t f r rest frest : List UInt8} {diff : Int}
  {a : Option Alloc} {d n size : Nat}

/-! The buffer for the size. -/

theorem changeBuffer_len {c : Bool} (h : s.changeBuffer size a = .ok (c, y)) : y.len = s.len := by
  obtain ⟨p, -, h⟩ := bind_eq_ok.mp h
  split at h
  · cases h
    rfl
  · cases h
    rfl

theorem fitSize_len {c : Bool} (h : s.fitSize size a = .ok (c, y)) : y.len = s.len := by
  rw [fitSize] at h
  split at h
  · exact changeBuffer_len h
  · cases h
    rfl

theorem fitSize_eq_reserve (hs : Holds s t rest) (ht : t ≠ []) :
    s.fitSize size a = s.reserve size a := by
  have hslen := hs.len
  have hpos := List.length_pos_iff.mpr ht
  rw [fitSize, reserve]
  by_cases hsmall : size > s.capacity
  · rw [if_pos hsmall, if_neg (by omega)]
    cases h : s.changeBuffer size a with
    | error e => rfl
    | ok p =>
      obtain ⟨c, y⟩ := p
      have hlen := changeBuffer_len h
      cases c with
      | false => rfl
      | true =>
        simp only [ok_bind, if_true]
        rw [if_neg (by omega)]
  · rw [if_neg hsmall, if_pos ⟨by simp [hs.buffer], by omega⟩]

theorem fitSize_fits (hs : Holds s t rest) (ht : t ≠ []) (h : Granted s size a) : ∃ y rest',
    s.fitSize size a = .ok (true, y) ∧ Holds y t rest' ∧ size ≤ y.capacity := by
  rw [fitSize_eq_reserve hs ht]
  obtain hle | ⟨ha, hn⟩ := h
  · exact ⟨s, rest, reserve_enough (by simp [hs.buffer]) hle, hs, hle⟩
  · exact reserve_granted hs.contents (fun hr => ha hr.1) hn

theorem fitSize_refused (hs : Holds s t rest) (ht : t ≠ []) (h : ¬ Granted s size a)
    (hn : size < 2^32) : ∃ y, s.fitSize size a = .ok (false, y) := by
  rw [fitSize_eq_reserve hs ht]
  rw [Granted, not_or, not_and] at h
  by_cases hwrap : size + 1 < 2^32
  · have ha : a = none := by
      by_contra hsome
      exact h.2 hsome hwrap
    exact ⟨s, reserve_refused hs.contents ⟨ha, .inr (by omega)⟩ hwrap⟩
  · rw [reserve_wraps hs.contents (by omega), if_neg (by simp [hs.buffer])]
    exact ⟨_, rfl⟩

/-! The int index. -/

theorem index_negative (hlow : 2^31 < n) (hhigh : n < 2^32) : Int.bmod (n - 1) (2^32) < 0 := by
  rw [bmod_of_ge (by omega) (by omega)]
  omega

theorem longerLoop_negative {index : Int} (h : index < 0) (n : Nat) (s : WString) :
    longerLoop find replace diff n s index = .ok s := by
  cases n with
  | zero => rfl
  | succ n =>
    rw [longerLoop, longerTurn, if_pos h]
    rfl

theorem eachTurn_negative {index : Int} (h : index < 0) (n : Nat) (s : WString) :
    EachTurn find replace diff size n s index := by
  cases n with
  | zero => trivial
  | succ n =>
    rw [EachTurn, longerTurn, if_pos h]
    trivial

theorem countSize_longer (hs : Holds s t rest) (hf : Holds find f frest) (hne : f ≠ []) (d : Nat) :
    s.countSize find d = .ok ((t.length + occurrences f t * d) % 2^32) := by
  rw [countSize_eq hs hf hne, addInt]
  norm_cast

/-! The size of the growing branch. -/

/-- The size is that of the rewritten text if it has not wrapped, and there are as many places
from the right as were counted. -/
theorem length_le_size_iff (hne : f ≠ []) (hlen : r.length = f.length + d) (hd : 0 < d)
    (ht : t.length < 2^32) (hsize : size = (t.length + occurrences f t * d) % 2^32)
    (hmore : size ≠ t.length) : rewrites f r t = 0 ∨ (rewrite f r t).length ≤ size ↔
      t.length + occurrences f t * d < 2^32 ∧ rewrites f r t ≤ occurrences f t := by
  have hmany := occurrences_le_rewrites hne r t
  have hmul := Nat.mul_le_mul_right d hmany
  have hpos : 0 < occurrences f t := by
    by_contra hzero
    rw [Nat.eq_zero_of_not_pos hzero, Nat.zero_mul] at hsize
    omega
  rw [length_rewrite_longer hlen]
  constructor
  · intro h
    have hle := h.resolve_left (by omega)
    have hmod := Nat.mod_le (t.length + occurrences f t * d) (2^32)
    have hlt := Nat.mod_lt (t.length + occurrences f t * d) (show 2^32 > 0 by decide)
    exact ⟨by omega, Nat.le_of_mul_le_mul_right (by omega) hd⟩
  · intro h
    rw [Nat.le_antisymm h.2 hmany]
    rw [Nat.mod_eq_of_lt h.1] at hsize
    exact .inr hsize.ge

theorem diff_of_growing (hf : Contents find f) (hr : Contents replace r) (hlt : f.length < r.length)
    (hbranch : 0 < Int.bmod (replace.len - find.len) (2^32)) :
    r.length - f.length < 2^31 ∧
      Int.bmod (replace.len - find.len) (2^32) = ((r.length - f.length : Nat) : Int) := by
  have hfits := hr.length_fits
  rw [hf.len_eq, hr.len_eq] at hbranch ⊢
  have hsmall : r.length - f.length < 2^31 := by
    by_contra hbig
    rw [bmod_of_ge (by omega) (by omega)] at hbranch
    omega
  refine ⟨hsmall, ?_⟩
  rw [bmod_of_lt (by omega) (by omega)]
  omega

theorem Holds.unwritten (hs : Holds s t rest) (f r : List UInt8) :
    Holds s (t ++ rewrite f r []) rest := by
  rw [rewrite, List.append_nil]
  exact hs

theorem eachTurn_start (h : Longer find replace f r d) (hs : Holds s t rest)
    (hlt : t.length ≤ 2^31) (hsize : size ≤ s.capacity) :
    EachTurn find replace d size s.len s (Int.bmod (s.len - 1) (2^32)) ↔
      rewrites f r t = 0 ∨ (rewrite f r t).length ≤ size := by
  have hiff := eachTurn_iff h (hs.unwritten f r) hlt (Nat.le_refl _) hsize
  rw [List.append_nil] at hiff
  rw [hs.len, bmod_of_lt (by omega) (by omega)]
  exact hiff

theorem keepsToSize_of_holds (h : Longer find replace f r d) (hs : Holds s t rest) (hd : 0 < d)
    (hdiff : Int.bmod (replace.len - find.len) (2^32) = d) :
    KeepsToSize s find replace a ↔ (Entered s t f d a →
      t.length + occurrences f t * d < 2^32 ∧ rewrites f r t ≤ occurrences f t) := by
  obtain ⟨frest, hf⟩ := h.find
  have hfits := hs.contents.length_fits
  have hcount := countSize_longer hs hf h.ne d
  have hmod := Nat.mod_lt (t.length + occurrences f t * d) (show 2^32 > 0 by decide)
  rw [KeepsToSize, hdiff, Entered]
  generalize hsize : (t.length + occurrences f t * d) % 2^32 = size at hcount hmod ⊢
  have hchars (hmore : size ≠ t.length) : t ≠ [] := by
    intro hnil
    apply hmore
    rw [← hsize, hnil, occurrences_nil, Nat.zero_mul]
    rfl
  by_cases hent : size ≠ t.length ∧ t.length ≤ 2^31 ∧ Granted s size a
  · obtain ⟨hmore, hlt, hfit⟩ := hent
    obtain ⟨y, rest', hy, hholds, hcap⟩ := fitSize_fits hs (hchars hmore) hfit
    rw [← length_le_size_iff h.ne h.len hd (by omega) hsize.symm hmore,
      ← eachTurn_start h hholds hlt hcap]
    constructor
    · intro hkeeps _
      exact hkeeps size y hcount (hs.len ▸ hmore) hy
    · intro hturns size' y' hcount' _ hy'
      obtain rfl := Except.ok.inj (hcount.symm.trans hcount')
      obtain ⟨-, rfl⟩ := Prod.mk.inj (Except.ok.inj (hy.symm.trans hy'))
      exact hturns ⟨hmore, hlt, hfit⟩
  · -- the loop does not begin
    refine iff_of_true (fun size' y hcount' hmore hy => ?_) (fun h => absurd h hent)
    obtain rfl := Except.ok.inj (hcount.symm.trans hcount')
    have hmore' : size ≠ t.length := hs.len ▸ hmore
    have hfit : Granted s size a := by
      by_contra hnot
      obtain ⟨y', hy'⟩ := fitSize_refused hs (hchars hmore') hnot hmod
      rw [hy'] at hy
      cases hy
    have hlong : 2^31 < t.length := by
      by_contra hshort
      exact hent ⟨hmore', by omega, hfit⟩
    rw [fitSize_len hy, hs.len]
    exact eachTurn_negative (index_negative hlong (by omega)) _ _

theorem replaceLonger_of_keeps (hkeeps : KeepsToSize s find replace a) (hs : Holds s t rest)
    (hf : Holds find f frest) (hne : f ≠ []) :
    ∃ y, s.replaceLonger find replace (Int.bmod (replace.len - find.len) (2^32)) a = .ok y := by
  rw [KeepsToSize] at hkeeps
  generalize Int.bmod (replace.len - find.len) (2^32) = diff at hkeeps ⊢
  have hcount := countSize_eq hs hf hne diff
  have hlt : addInt t.length (occurrences f t * diff) < 2^32 := by
    unfold addInt
    omega
  generalize hsize : addInt t.length (occurrences f t * diff) = size at hcount hlt
  rw [replaceLonger, hcount, ok_bind]
  by_cases hmore : size = s.len
  · exact ⟨s, if_pos hmore⟩
  have ht : t ≠ [] := by
    intro hnil
    apply hmore
    rw [← hsize, hs.len, hnil, occurrences_nil]
    simp [addInt]
  rw [if_neg hmore]
  by_cases hfit : Granted s size a
  · obtain ⟨y, -, hy, -, -⟩ := fitSize_fits hs ht hfit
    rw [hy, ok_bind]
    exact longerLoop_of_eachTurn (hkeeps size y hcount hmore hy)
  · obtain ⟨y, hy⟩ := fitSize_refused hs ht hfit hlt
    rw [hy, ok_bind]
    exact ⟨y, rfl⟩

theorem keepsToSize_of_unlinked (h : Longer find replace f r d) (hs : Holds s t rest) (hd : 0 < d)
    (hdiff : Int.bmod (replace.len - find.len) (2^32) = d) (hlink : Unlinked f r)
    (hfits : t.length + occurrences f t * d < 2^32) : KeepsToSize s find replace a := by
  have hlen := h.len
  have hsame := (rewrites_eq_iff_unlinked h.ne (by omega)).mpr hlink t
  exact (keepsToSize_of_holds h hs hd hdiff).mpr fun _ => ⟨hfits, hsame.le⟩

/-- Every turn of the loop from the right keeps to the size that was computed exactly if `find`
is met from the right no more often than from the left and the size has not wrapped, or the
loop is not entered. -/
theorem keeps_to_size_iff (s find replace : WString) (t f r : List UInt8) (hs : Contents s t)
    (hf : Contents find f) (hr : Contents replace r) (hne : f ≠ []) (hlt : f.length < r.length)
    (hbranch : 0 < Int.bmod (replace.len - find.len) (2^32)) (a : Option Alloc) :
    KeepsToSize s find replace a ↔ (Entered s t f (r.length - f.length) a →
      t.length + occurrences f t * (r.length - f.length) < 2^32 ∧
        rewrites f r t ≤ occurrences f t) := by
  obtain ⟨hsmall, hdiff⟩ := diff_of_growing hf hr hlt hbranch
  obtain ⟨hb, -, rfl⟩ | ⟨rest, hs⟩ := hs
  · -- no buffer, and no branch
    refine iff_of_true (fun size y hcount => ?_) (fun h => absurd ?_ h.1)
    · rw [countSize, hb] at hcount
      cases hcount
    · rw [occurrences_nil, Nat.zero_mul]
      rfl
  · exact keepsToSize_of_holds ⟨hf.holds_of_ne_nil hne, hr, hne, by omega⟩ hs (by omega) hdiff

/-- "aba" with room for three, "b" and "bb". -/
theorem keeps_to_size_aba : KeepsToSize ⟨.block [97, 98, 97, 0], 3, 3⟩ ⟨.block [98, 0], 1, 1⟩
    ⟨.block [98, 98, 0], 2, 2⟩ (some ⟨[], false⟩) :=
  (keeps_to_size_iff _ _ _ [97, 98, 97] [98] [98, 98]
    (.inr ⟨[], rfl, rfl, rfl, by decide, by decide⟩)
    (.inr ⟨[], rfl, rfl, rfl, by decide, by decide⟩)
    (.inr ⟨[], rfl, rfl, rfl, by decide, by decide⟩) (by decide) (by decide) (by decide) _).mpr
    fun _ => ⟨by decide, by decide⟩

/-- "aab", with "bXX" for "ab": the "a" in front and the "b" that was inserted are met as well. -/
theorem outgrows_size : ¬ ∀ (s find replace : WString) (t f r : List UInt8) (a : Option Alloc),
    Contents s t → Contents find f → Contents replace r → f ≠ [] → f.length < r.length →
      0 < Int.bmod (replace.len - find.len) (2^32) → KeepsToSize s find replace a := by
  intro h
  have hkeeps := h ⟨.block [97, 97, 98, 0], 3, 3⟩ ⟨.block [97, 98, 0], 2, 2⟩
    ⟨.block [98, 88, 88, 0], 3, 3⟩ [97, 97, 98] [97, 98] [98, 88, 88] (some ⟨[], false⟩)
    (.inr ⟨[], rfl, rfl, rfl, by decide, by decide⟩)
    (.inr ⟨[], rfl, rfl, rfl, by decide, by decide⟩)
    (.inr ⟨[], rfl, rfl, rfl, by decide, by decide⟩) (by decide) (by decide) (by decide)
  exact (hkeeps 4 ⟨.block [97, 97, 98, 0, 0], 4, 3⟩ rfl (by decide) rfl).2

/-! The text. -/

theorem length_replaceAll_longer (hne : f ≠ []) (hlen : r.length = f.length + d)
    (t : List UInt8) : (replaceAll f r t).length = t.length + occurrences f t * d := by
  have h := length_replaceAll hne r t
  rw [hlen, Nat.mul_add] at h
  omega

theorem replaceAll_of_absent (hne : f ≠ []) (h : ¬ f <:+: t) (r : List UInt8) :
    replaceAll f r t = t := replaceAll_none ((quiet_nil_iff hne).mpr h) r

theorem length_replaceAll_ne (hne : f ≠ []) (hlen : r.length ≠ f.length) (h : f <:+: t) :
    (replaceAll f r t).length ≠ t.length := by
  intro hsame
  have hreplace := length_replaceAll hne r t
  have hpos := (infix_iff_occurrences hne).mp h
  rw [hsame, Nat.add_right_inj] at hreplace
  exact hlen (Nat.eq_of_mul_eq_mul_left hpos hreplace).symm

theorem longerLoop_iff (h : Longer find replace f r d) (hd : 0 < d) (hs : Holds s t rest)
    (hlt : t.length ≤ 2^31) (hsize : (replaceAll f r t).length ≤ s.capacity) :
    Replaced (longerLoop find replace d s.len s (Int.bmod (s.len - 1) (2^32))) t f r ↔
      Apart f r (cut f 0 t).1 (cut f 0 t).2 := by
  have hspec := longerLoop_spec h (hs.unwritten f r) hlt (Nat.le_refl _)
  have hlen := h.len
  rw [List.append_nil] at hspec
  rw [← rewrite_eq_replaceAll_iff h.ne (by omega), hs.len, bmod_of_lt (by omega) (by omega)]
  constructor
  · intro ⟨y, hy, hc⟩
    have hroom : (rewrite f r t).length ≤ s.capacity := by
      by_contra hfull
      exact hspec.2 (by omega) y hy
    obtain ⟨y', rest', hy', hholds⟩ := hspec.1 hroom
    obtain rfl := Except.ok.inj (hy.symm.trans hy')
    exact hholds.chars.symm.trans hc.chars
  · intro hsame
    rw [← hsame] at hsize
    obtain ⟨y, rest', hy, hholds⟩ := hspec.1 hsize
    rw [hsame] at hholds
    exact ⟨y, hy, hholds.contents⟩

theorem replaceLonger_iff (h : Longer find replace f r d) (hd : 0 < d) (hs : Holds s t rest)
    (hin : f <:+: t) (hlt : t.length ≤ 2^31) (hfits : t.length + occurrences f t * d + 1 < 2^32)
    (al : Alloc) :
    Replaced (s.replaceLonger find replace d (some al)) t f r ↔
      Apart f r (cut f 0 t).1 (cut f 0 t).2 := by
  obtain ⟨frest, hf⟩ := h.find
  have hpos := Nat.mul_pos ((infix_iff_occurrences h.ne).mp hin) hd
  have hcount := countSize_longer hs hf h.ne d
  have hlen := length_replaceAll_longer h.ne h.len t
  have ht : t ≠ [] := by
    intro hnil
    rw [hnil] at hin
    exact h.ne (List.infix_nil.mp hin)
  rw [Nat.mod_eq_of_lt (by omega)] at hcount
  have hgranted : Granted s (t.length + occurrences f t * d) (some al) :=
    .inr ⟨by simp, hfits⟩
  obtain ⟨y, rest', hy, hholds, hcap⟩ := fitSize_fits hs ht hgranted
  rw [replaceLonger, hcount, ok_bind, if_neg (by rw [hs.len]; omega), hy]
  simp only [ok_bind, if_true]
  exact longerLoop_iff h hd hholds hlt (by omega)

theorem replaceLonger_long (hs : Contents s t) (hlong : 2^31 < t.length)
    (hy : s.replaceLonger find replace diff a = .ok y) : y.len = t.length := by
  have hfits := hs.length_fits
  rw [replaceLonger] at hy
  obtain ⟨size, -, hy⟩ := bind_eq_ok.mp hy
  split at hy
  · cases hy
    exact hs.len_eq
  · obtain ⟨⟨c, x⟩, hx, hy⟩ := bind_eq_ok.mp hy
    have hxlen := (fitSize_len hx).trans hs.len_eq
    cases c with
    | false =>
      cases hy
      exact hxlen
    | true =>
      simp only [if_true] at hy
      rw [longerLoop_negative (by rw [hxlen]; exact index_negative hlong (by omega))] at hy
      cases hy
      exact hxlen

/-! The branches. -/

theorem replaceSame_replaced (hs : Holds s t rest) (hf : Holds find f frest) (hne : f ≠ [])
    (hr : Contents replace r) (hlen : r.length = f.length) :
    Replaced (s.replaceSame find replace) t f r := by
  obtain ⟨y, hy, hholds⟩ := replaceSame_eq hs hf hne hr hlen
  exact ⟨y, hy, hholds.contents⟩

theorem replaceShorter_none (hs : Holds s t rest) (hf : Holds find f frest) (hne : f ≠ [])
    (hq : Quiet f [] t) : ∃ y, s.replaceShorter find replace diff = .ok y ∧ Holds y t rest := by
  have hread : cstring ((t ++ 0 :: rest).drop 0) = .ok t := cstring_append hs.noNul rest
  have hcopy := strcpyWithin_below (p := []) (k := 0) (n := (t ++ 0 :: rest).length) hs.noNul
    (List.drop_zero (l := t ++ 0 :: rest)) (by simp)
  have hback : (t ++ 0 :: rest).drop (t.length + 1) = rest := by
    rw [← List.drop_drop, List.drop_left, List.drop_one, List.tail_cons]
  simp only [List.nil_append, List.length_nil, Nat.add_zero, hback] at hcopy
  refine ⟨s, ?_, hs⟩
  rw [replaceShorter, hs.buffer, Buffer.bytes, ok_bind, whileFound, strstrAt_none hf hne hread hq]
  simp only [ok_bind, hcopy]
  rw [← hs.buffer]

theorem replaceShorter_iff (hs : Holds s t rest) (hf : Holds find f frest) (hne : f ≠ [])
    (hr : Contents replace r) (hdiff : r.length ≤ f.length → diff = r.length - f.length) :
    Replaced (s.replaceShorter find replace diff) t f r ↔ ¬ f <:+: t ∨ r.length ≤ f.length := by
  by_cases hle : r.length ≤ f.length
  · obtain ⟨y, rest', hy, hholds⟩ := replaceShorter_eq hs hf hne hr hle (hdiff hle)
    exact iff_of_true ⟨y, hy, hholds.contents⟩ (.inr hle)
  · by_cases hin : f <:+: t
    · refine iff_of_false (fun ⟨y, hy, _⟩ => ?_) (by simp [hin, hle])
      exact replaceShorter_fails hs hf hne hr (by omega) hin y hy
    · obtain ⟨y, hy, hholds⟩ := replaceShorter_none hs hf hne ((quiet_nil_iff hne).mpr hin)
      refine iff_of_true ⟨y, hy, ?_⟩ (.inl hin)
      rw [replaceAll_of_absent hne hin]
      exact hholds.contents

theorem replaceLonger_none (hs : Holds s t rest) (hf : Holds find f frest) (hne : f ≠ [])
    (hin : ¬ f <:+: t) : Replaced (s.replaceLonger find replace diff a) t f r := by
  have hfits := hs.contents.length_fits
  have hzero : occurrences f t = 0 := by
    by_contra hpos
    exact hin ((infix_iff_occurrences hne).mpr (by omega))
  refine ⟨s, ?_, ?_⟩
  · rw [replaceLonger, countSize_eq hs hf hne, hzero,
      addInt_eq (m := t.length) (by simp) (by omega), ok_bind, if_pos hs.len.symm]
  · rw [replaceAll_of_absent hne hin]
    exact hs.contents

theorem not_replaced_of_long (hs : Holds s t rest) (hne : f ≠ []) (hlen : r.length ≠ f.length)
    (hin : f <:+: t) (hlong : 2^31 < t.length) :
    ¬ Replaced (s.replaceLonger find replace diff a) t f r := by
  intro ⟨y, hy, hc⟩
  apply length_replaceAll_ne hne hlen hin
  rw [← hc.len_eq]
  exact replaceLonger_long hs.contents hlong hy

theorem longerBranch_iff (h : Longer find replace f r d) (hd : 0 < d) (hs : Holds s t rest)
    (al : Alloc) : Replaced (s.replaceLonger find replace d (some al)) t f r ↔ ¬ f <:+: t ∨
      (t.length ≤ 2^31 ∧ t.length + occurrences f t * d + 1 < 2^32 ∧
        Apart f r (cut f 0 t).1 (cut f 0 t).2) := by
  obtain ⟨frest, hf⟩ := h.find
  have hlen := h.len
  by_cases hin : f <:+: t
  · rw [or_iff_right (not_not.mpr hin)]
    constructor
    · intro hrep
      have hlt : t.length ≤ 2^31 := by
        by_contra hlong
        exact not_replaced_of_long hs h.ne (by omega) hin (by omega) hrep
      have hfits : t.length + occurrences f t * d + 1 < 2^32 := by
        obtain ⟨y, -, hc⟩ := hrep
        rw [← length_replaceAll_longer h.ne hlen]
        exact hc.length_fits
      exact ⟨hlt, hfits, (replaceLonger_iff h hd hs hin hlt hfits al).mp hrep⟩
    · intro ⟨hlt, hfits, hapart⟩
      exact (replaceLonger_iff h hd hs hin hlt hfits al).mpr hapart
  · exact iff_of_true (replaceLonger_none hs hf h.ne hin) (.inl hin)

/-! The call. -/

theorem replaceString_nil (hs : Contents s []) (find replace : WString) (a : Option Alloc) :
    Replaced (s.replaceString find replace a) [] f r := by
  refine ⟨s, ?_, hs⟩
  rw [replaceString, if_pos (.inl hs.len_eq)]

theorem replaceString_eq (hs : Contents s t) (ht : t ≠ []) (hf : Contents find f) (hne : f ≠ [])
    (hr : Contents replace r) {m : Int} (hm : Int.bmod (r.length - f.length) (2^32) = m) :
    s.replaceString find replace a = if m = 0 then s.replaceSame find replace
      else if m < 0 then s.replaceShorter find replace m
      else s.replaceLonger find replace m a := by
  have htpos := List.length_pos_iff.mpr ht
  have hfpos := List.length_pos_iff.mpr hne
  rw [replaceString, hs.len_eq, hf.len_eq, hr.len_eq, if_neg (by omega)]
  simp only [hm]

theorem shorterCall_iff (hs : Holds s t rest) (ht : t ≠ []) (hf : Holds find f frest) (hne : f ≠ [])
    (hr : Contents replace r) (hlt : r.length < f.length) (a : Option Alloc) :
    Replaced (s.replaceString find replace a) t f r ↔
      ¬ f <:+: t ∨ f.length - r.length ≤ 2^31 := by
  have hfits := hf.contents.length_fits
  by_cases hsmall : f.length - r.length ≤ 2^31
  · rw [replaceString_eq hs.contents ht hf.contents hne hr (bmod_of_lt (by omega) (by omega)),
      if_neg (by omega), if_pos (by omega), replaceShorter_iff hs hf hne hr fun _ => rfl]
    exact iff_of_true (.inr hlt.le) (.inr hsmall)
  · rw [replaceString_eq hs.contents ht hf.contents hne hr (bmod_of_le (by omega) (by omega)),
      if_neg (by omega), if_neg (by omega), or_iff_left hsmall]
    constructor
    · intro hrep hin
      have hle := hin.length_le
      exact not_replaced_of_long hs hne hlt.ne hin (by omega) hrep
    · exact replaceLonger_none hs hf hne

theorem longerCall_iff (hs : Holds s t rest) (ht : t ≠ []) (hf : Holds find f frest) (hne : f ≠ [])
    (hr : Contents replace r) (hlt : f.length < r.length) (al : Alloc) :
    Replaced (s.replaceString find replace (some al)) t f r ↔
      ¬ f <:+: t ∨ (r.length - f.length < 2^31 ∧ t.length ≤ 2^31 ∧
        t.length + occurrences f t * (r.length - f.length) + 1 < 2^32 ∧
        Apart f r (cut f 0 t).1 (cut f 0 t).2) := by
  have hfits := hr.length_fits
  by_cases hsmall : r.length - f.length < 2^31
  · have hdiff : Int.bmod (r.length - f.length) (2^32) = ((r.length - f.length : Nat) : Int) := by
      rw [bmod_of_lt (by omega) (by omega)]
      omega
    rw [replaceString_eq hs.contents ht hf.contents hne hr hdiff, if_neg (by omega),
      if_neg (by omega), longerBranch_iff ⟨⟨frest, hf⟩, hr, hne, by omega⟩ (by omega) hs]
    simp only [hsmall, true_and]
  · rw [replaceString_eq hs.contents ht hf.contents hne hr (bmod_of_ge (by omega) (by omega)),
      if_neg (by omega), if_pos (by omega), replaceShorter_iff hs hf hne hr (by omega)]
    simp only [hsmall, false_and, or_false, Nat.not_le.mpr hlt]

/-- The text is replaced from the left exactly if it is `Replaceable`. -/
theorem replaces_iff (s find replace : WString) (t f r : List UInt8) (hs : Contents s t)
    (hf : Contents find f) (hr : Contents replace r) (hne : f ≠ []) (al : Alloc) :
    (∃ y, s.replaceString find replace (some al) = .ok y ∧ Contents y (replaceAll f r t)) ↔
      Replaceable t f r := by
  change Replaced _ t f r ↔ _
  obtain ⟨frest, hf'⟩ := hf.holds_of_ne_nil hne
  by_cases ht : t = []
  · subst ht
    exact iff_of_true (replaceString_nil hs find replace _)
      (.inl fun h => hne (List.infix_nil.mp h))
  obtain ⟨rest, hs'⟩ := hs.holds_of_ne_nil ht
  rw [Replaceable]
  obtain hless | hsame | hmore := Nat.lt_trichotomy r.length f.length
  · rw [shorterCall_iff hs' ht hf' hne hr hless]
    simp only [hless.ne, hless, Nat.not_lt.mpr hless.le, false_or, true_and, false_and, or_false]
  · rw [replaceString_eq hs ht hf hne hr (m := 0) (by rw [hsame, Int.sub_self]; rfl), if_pos rfl]
    exact iff_of_true (replaceSame_replaced hs' hf' hne hr hsame) (.inr (.inl hsame))
  · rw [longerCall_iff hs' ht hf' hne hr hmore]
    simp only [hmore.ne', hmore, Nat.not_lt.mpr hmore.le, false_or, true_and, false_and]

/-- "xyz" for "ab" in "abab". -/
theorem replaces_abab : ∃ y, replaceString ⟨.block [97, 98, 97, 98, 0], 4, 4⟩
    ⟨.block [97, 98, 0], 2, 2⟩ ⟨.block [120, 121, 122, 0], 3, 3⟩ (some ⟨[], false⟩) = .ok y ∧
      Contents y (replaceAll [97, 98] [120, 121, 122] [97, 98, 97, 98]) :=
  (replaces_iff _ _ _ _ _ _ (.inr ⟨[], rfl, rfl, rfl, by decide, by decide⟩)
    (.inr ⟨[], rfl, rfl, rfl, by decide, by decide⟩)
    (.inr ⟨[], rfl, rfl, rfl, by decide, by decide⟩) (by decide) _).mpr
    (.inr (.inr (.inr ⟨by decide, by decide, by decide, by decide, by decide⟩)))

/-- "bbb" for "aa" in "aaa": the last "aa" is replaced, not the first. -/
theorem replaces_last : ¬ ∀ (s find replace : WString) (t f r : List UInt8) (al : Alloc),
    Contents s t → Contents find f → Contents replace r → f ≠ [] →
      ∃ y, s.replaceString find replace (some al) = .ok y ∧ Contents y (replaceAll f r t) := by
  intro h
  obtain ⟨y, hy, hc⟩ := h ⟨.block [97, 97, 97, 0], 3, 3⟩ ⟨.block [97, 97, 0], 2, 2⟩
    ⟨.block [98, 98, 98, 0], 3, 3⟩ [97, 97, 97] [97, 97] [98, 98, 98] ⟨[], false⟩
    (.inr ⟨[], rfl, rfl, rfl, by decide, by decide⟩)
    (.inr ⟨[], rfl, rfl, rfl, by decide, by decide⟩)
    (.inr ⟨[], rfl, rfl, rfl, by decide, by decide⟩) (by decide)
  obtain rfl : ⟨.block [97, 98, 98, 98, 0], 4, 4⟩ = y := Except.ok.inj hy
  have hchars := hc.chars
  revert hchars
  decide

end RasPiArduino.WString
