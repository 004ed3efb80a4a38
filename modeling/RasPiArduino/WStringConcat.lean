import RasPiArduino.WStringRuns

/-! concat() with its outcomes, chains of operator +, and a String joined with itself. -/
namespace RasPiArduino.WString
open CMemory Transition

/-- What stands on the right of a concat or a +: a number as the text of its conversion, the
Strings valid or without a buffer. -/
inductive Operand where
  | cstr (t : Option CString)
  | string (y : WString) (ok : Ok y)
  | char (c : UInt8) (ne : c ≠ 0)
  | number (t : CString)

/-- The chars of an operand; a null pointer and a String without a buffer have none. -/
def Operand.text : Operand → Option (List UInt8)
  | .cstr t => t.map CString.bytes
  | .string y _ => if y.buffer = .null then none else some y.chars
  | .char c _ => some [c]
  | .number t => some t.bytes

def concatOperand (s : WString) (o : Operand) (a : Option Alloc) : Except Fault (Bool × WString) :=
  match o with
  | .cstr t => s.concatCstr (t.map CString.bytes) a
  | .string y _ => s.concatString y a
  | .char c _ => s.concatChar c a
  | .number t => s.concatNumber t.bytes a

def sumHelper (o : Operand) (a : Option Alloc) : Except Fault WString :=
  match o with
  | .cstr t => ofCstr (t.map CString.bytes) a
  | .string y _ => ofString y a
  | .char c _ => ofChar c a
  | .number t => ofNumber t.bytes a

def plus (s : WString) (o : Operand) (a : Option Alloc) : Except Fault WString :=
  sum (s.concatOperand o a)

/-- A concat of `o` to a String of the chars `t` extends it by all of `o`, or fails and leaves
it as it was. -/
def AllOrNothing (s : WString) (t : List UInt8) (o : Operand) (a : Option Alloc) : Prop :=
  ∃ done y, s.concatOperand o a = .ok (done, y) ∧
    (done = true → ∃ u, o.text = some u ∧ Contents y (t ++ u)) ∧ (done = false → y = s) ∧
    (o.text = none → done = false)

def Fits (s : WString) (o : Operand) : Prop :=
  ∀ u, o.text = some u → u = [] ∨ s.len + u.length + 1 < 2^32

/-- A chain of +: the temporary, and the text of all operands so far, if each has one. After
an access outside the blocks nothing is said of it. -/
structure Chain where
  str : WString
  text : Option (List UInt8)
  sound : Bool

def Chain.start (o : Operand) (a : Option Alloc) : Chain :=
  match sumHelper o a with
  | .ok s => ⟨s, o.text, true⟩
  | .error _ => ⟨init, o.text, false⟩

def Chain.step (x : Chain) (l : Operand × Option Alloc) : Option Chain :=
  if x.sound = true then
    match x.str.plus l.1 l.2 with
    | .ok s => some ⟨s, x.text.bind fun t => l.1.text.map (t ++ ·), true⟩
    | .error _ => some { x with sound := false }
  else none

def Chain.Whole (x : Chain) : Prop :=
  x.sound = true ∧ (x.str.buffer = .null ∧ x.str.len = 0 ∨
    ∃ t, x.text = some t ∧ Contents x.str t)

/-- The length fits, and an invalid String is not filled again behind operands that it lost. -/
def Chain.Links (x : Chain) (l : Operand × Option Alloc) : Prop :=
  Fits x.str l.1 ∧ (x.str.buffer = .null →
    l.1.text = none ∨ l.1.text = some [] ∨ l.2 = none ∨ x.text = some [])

variable {s y : WString} {t u : List UInt8} {o : Operand} {a : Option Alloc} {x z : Chain}
  {l : Operand × Option Alloc}

theorem concatOperand_eq (s : WString) (o : Operand) (a : Option Alloc) :
    (o.text = none ∧ s.concatOperand o a = .ok (false, s)) ∨
      ∃ u, o.text = some u ∧ 0 ∉ u ∧ u.length + 1 < 2^32 ∧
        s.concatOperand o a = s.concat (.text u) u.length a := by
  cases o with
  | cstr t =>
    cases t with
    | none => exact .inl ⟨rfl, rfl⟩
    | some t =>
      have hfits := t.fits
      refine .inr ⟨t.bytes, rfl, t.noNul, hfits, ?_⟩
      simp only [concatOperand, Option.map_some, concatCstr]
      rw [Nat.mod_eq_of_lt (by omega)]
  | string y ok =>
    obtain ⟨u, ⟨hb, hlen, -⟩ | ⟨rest, hs⟩⟩ := ok
    · apply Or.inl
      simp [Operand.text, concatOperand, concatString, concat, hb]
    · refine .inr ⟨u, ?_, hs.noNul, hs.contents.length_fits, ?_⟩
      · simp [Operand.text, hs.buffer, hs.chars]
      · simp [concatOperand, concatString, hs.buffer, Buffer.bytes, cstring_append hs.noNul, hs.len]
  | char c ne =>
    refine .inr ⟨[c], rfl, by simp [Ne.symm ne], by simp, ?_⟩
    simp [concatOperand, concatChar, charText, ne]
  | number t =>
    have hfits := t.fits
    refine .inr ⟨t.bytes, rfl, t.noNul, hfits, ?_⟩
    simp only [concatOperand, concatNumber]
    rw [Nat.mod_eq_of_lt (by omega)]

inductive Outcome (s : WString) (t u : List UInt8) (a : Option Alloc) :
    Except Fault (Bool × WString) → Prop where
  | empty : u = [] → Outcome s t u a (.ok (true, s))
  | refused : u ≠ [] → s.len + u.length + 1 < 2^32 → Refused s (s.len + u.length) a →
    Outcome s t u a (.ok (false, s))
  | joined {v : WString} {rest : List UInt8} : u ≠ [] → s.len + u.length + 1 < 2^32 →
    ¬ Refused s (s.len + u.length) a → Holds v (t ++ u) rest → Outcome s t u a (.ok (true, v))
  | outside : u ≠ [] → 2^32 ≤ s.len + u.length + 1 → Outcome s t u a (.error .outside)
  | freed {v : WString} : u ≠ [] → 2^32 ≤ s.len + u.length + 1 → v.buffer = .freed →
    Outcome s t u a (.ok (false, v))

theorem concat_outcome (h : Contents s t) (hu : 0 ∉ u) (hu32 : u.length + 1 < 2^32)
    (a : Option Alloc) : Outcome s t u a (s.concat (.text u) u.length a) := by
  by_cases h0 : u = []
  · subst h0
    have he : s.concat (.text []) 0 a = .ok (true, s) := by simp [concat]
    rw [List.length_nil, he]
    exact .empty rfl
  have hne : u.length ≠ 0 := fun he => h0 (List.eq_nil_of_length_eq_zero he)
  by_cases hfit : s.len + u.length + 1 < 2^32
  · by_cases hr : Refused s (s.len + u.length) a
    · rw [concat_refused h (by simp) hne hfit hr]
      exact .refused h0 hfit hr
    · obtain ⟨y, rest, he, hy⟩ := concat_granted h hu le_rfl hne hfit hr
      rw [he]
      exact .joined h0 hfit hr hy
  · have hbig : 2^32 ≤ s.len + u.length + 1 := by omega
    cases concat_oversize (a := a) h (p := .text u) (by simp) hne hu32 hbig
        fun _ => .inr ⟨u, rfl, rfl⟩ with
    | inl he =>
      rw [he]
      exact .outside h0 hbig
    | inr he =>
      obtain ⟨y, he, hy⟩ := he
      rw [he]
      exact .freed h0 hbig hy

/-- concat is all or nothing exactly where the length fits. -/
theorem allOrNothing_iff (h : Contents s t) (o : Operand) (a : Option Alloc) :
    AllOrNothing s t o a ↔ Fits s o := by
  cases concatOperand_eq s o a with
  | inl hn =>
    apply iff_of_true
    · exact ⟨false, s, hn.2, by simp, fun _ => rfl, fun _ => rfl⟩
    · intro u hu
      simp [hn.1] at hu
  | inr hs =>
    obtain ⟨u, htext, hu, hu32, heq⟩ := hs
    have hfits : Fits s o ↔ u = [] ∨ s.len + u.length + 1 < 2^32 := by simp [Fits, htext]
    rw [AllOrNothing, heq, hfits, htext]
    generalize hr : s.concat (.text u) u.length a = r
    cases hr ▸ concat_outcome h hu hu32 a with
    | empty h0 =>
      subst h0
      exact iff_of_true ⟨true, s, rfl, fun _ => ⟨[], rfl, by simpa using h⟩, by simp, by simp⟩
        (.inl rfl)
    | refused h0 hfit _ => exact iff_of_true ⟨false, s, rfl, by simp⟩ (.inr hfit)
    | joined h0 hfit _ hy =>
      exact iff_of_true ⟨true, _, rfl, fun _ => ⟨u, rfl, hy.contents⟩, by simp, by simp⟩ (.inr hfit)
    | outside h0 hbig =>
      apply iff_of_false
      · intro ⟨_, _, he, _⟩
        cases he
      · exact not_or.mpr ⟨h0, by omega⟩
    | freed h0 hbig hy =>
      apply iff_of_false
      · intro ⟨done, y', he, _, hsame, _⟩
        obtain ⟨rfl, rfl⟩ := Prod.mk.inj (Except.ok.inj he)
        rw [hsame rfl] at hy
        exact h.not_freed hy
      · exact not_or.mpr ⟨h0, by omega⟩

theorem copy_outcome (h : Contents s u) (ht : 0 ∉ t) (hn : t.length + 1 < 2^32) :
    ∃ y, s.copy t t.length a = .ok y ∧ (y = init ∨ Contents y t) := by
  by_cases hr : Refused s t.length a
  · refine ⟨init, ?_, .inl rfl⟩
    rw [copy, reserve_refused h hr hn, ok_bind]
    exact h.invalidate
  · obtain ⟨y, v, hy, hc, hv⟩ := copy_contents (a := a) h ht hn
    exact ⟨y, hy, .inr ((hv hr).1 ▸ hc)⟩

@[simp] theorem sum_refused (s : WString) : sum (.ok (false, s)) = s.invalidate := rfl

theorem sumHelper_outcome (o : Operand) (a : Option Alloc) :
    ∃ y, sumHelper o a = .ok y ∧ (y = init ∨ ∃ t, o.text = some t ∧ Contents y t) := by
  have hcopy (t : List UInt8) (ht : 0 ∉ t) (hn : t.length + 1 < 2^32) (htext : o.text = some t) :
      ∃ y, init.assignCstr (some t) a = .ok y ∧
        (y = init ∨ ∃ t, o.text = some t ∧ Contents y t) := by
    obtain ⟨y, hy, hor⟩ := copy_outcome (a := a) init_contents ht hn
    rw [assignCstr, Nat.mod_eq_of_lt (by omega)]
    exact ⟨y, hy, hor.imp_right fun hc => ⟨t, htext, hc⟩⟩
  cases o with
  | cstr t =>
    cases t with
    | none => exact ⟨init, rfl, .inl rfl⟩
    | some t => exact hcopy t.bytes t.noNul t.fits rfl
  | string y ok =>
    obtain ⟨u, ⟨hb, -⟩ | ⟨rest, hs⟩⟩ := ok
    · refine ⟨init, ?_, .inl rfl⟩
      simp [sumHelper, ofString, assign, hb, init_contents.invalidate]
    · obtain ⟨z, hz, hor⟩ :=
        copy_outcome (a := a) init_contents hs.noNul hs.contents.length_fits
      refine ⟨z, ?_, hor.imp_right fun hc => ⟨u, ?_, hc⟩⟩
      · simp only [sumHelper, ofString, assign, hs.buffer, ne_eq, reduceCtorEq, not_false_eq_true,
          if_true, Buffer.bytes, ok_bind, cstring_append hs.noNul, hs.len]
        exact hz
      · simp [Operand.text, hs.buffer, hs.chars]
  | char c ne =>
    apply hcopy (charText c) (charText_spec c).1 (charText_spec c).2
    simp [Operand.text, charText, ne]
  | number t => exact hcopy t.bytes t.noNul t.fits rfl

theorem start_whole (o : Operand) (a : Option Alloc) : (Chain.start o a).Whole := by
  obtain ⟨y, hy, hor⟩ := sumHelper_outcome o a
  rw [Chain.start, hy]
  refine ⟨rfl, hor.imp_left fun h => ?_⟩
  rw [h]
  exact ⟨rfl, rfl⟩

theorem Chain.Whole.contents (h : x.Whole) : ∃ t, Contents x.str t ∧
    (x.str.buffer = .null ∧ t = [] ∨ x.str.buffer ≠ .null ∧ x.text = some t) := by
  by_cases hb : x.str.buffer = .null
  · obtain ⟨hb, hlen⟩ | ⟨t, -, hc⟩ := h.2
    · exact ⟨[], .inl ⟨hb, hlen, rfl⟩, .inl ⟨hb, rfl⟩⟩
    · refine ⟨t, hc, .inl ⟨hb, ?_⟩⟩
      obtain ⟨-, -, ht⟩ | ⟨rest, hs⟩ := hc
      · exact ht
      · simp [hs.buffer] at hb
  · obtain ⟨hb', -⟩ | ⟨t, htext, hc⟩ := h.2
    · exact absurd hb' hb
    · exact ⟨t, hc, .inr ⟨hb, htext⟩⟩

/-- A link keeps the sum whole, or the String invalid, exactly under the condition. -/
theorem chain_step_iff (h : x.Whole) (hz : x.step l = some z) : z.Whole ↔ x.Links l := by
  obtain ⟨t, hc, hor⟩ := h.contents
  have hinit (text : Option (List UInt8)) : (Chain.mk init text true).Whole :=
    ⟨rfl, .inl ⟨rfl, rfl⟩⟩
  rw [Chain.step, if_pos h.1, plus] at hz
  cases concatOperand_eq x.str l.1 l.2 with
  | inl hn =>
    rw [hn.2, sum_refused, hc.invalidate] at hz
    obtain rfl := Option.some.inj hz
    apply iff_of_true (hinit _)
    exact ⟨fun u hu => by simp [hn.1] at hu, fun _ => .inl hn.1⟩
  | inr hs =>
    obtain ⟨u, htext, hu, hu32, heq⟩ := hs
    have hfits : Fits x.str l.1 ↔ u = [] ∨ x.str.len + u.length + 1 < 2^32 := by
      simp [Fits, htext]
    rw [heq, htext] at hz
    rw [Chain.Links, hfits, htext]
    generalize hr : x.str.concat (.text u) u.length l.2 = r at hz
    cases hr ▸ concat_outcome hc hu hu32 l.2 with
    | empty h0 =>
      subst h0
      obtain rfl := Option.some.inj hz
      apply iff_of_true _ ⟨.inl rfl, fun _ => .inr (.inl rfl)⟩
      refine ⟨rfl, h.2.imp_right ?_⟩
      intro ⟨t', ht', hc'⟩
      exact ⟨t', by simp [ht'], hc'⟩
    | refused h0 hfit href =>
      rw [sum_refused, hc.invalidate] at hz
      obtain rfl := Option.some.inj hz
      exact iff_of_true (hinit _) ⟨.inr hfit, fun _ => .inr (.inr (.inl href.1))⟩
    | @joined v rest h0 hfit href hv =>
      obtain rfl := Option.some.inj hz
      have hwhole : (Chain.mk v (x.text.bind fun t => (some u).map (t ++ ·)) true).Whole ↔
          x.text = some t := by
        have hnull : v.buffer ≠ .null := by simp [hv.buffer]
        constructor
        · intro hw
          obtain ⟨hb, -⟩ | ⟨T, hT, hcT⟩ := hw.2
          · exact absurd hb hnull
          · obtain ⟨t', ht', hT⟩ := Option.bind_eq_some_iff.mp hT
            obtain rfl := Option.some.inj hT
            have hchars := hcT.chars.symm.trans hv.chars
            rw [ht', List.append_cancel_right hchars]
        · intro ht
          exact ⟨rfl, .inr ⟨t ++ u, by simp [ht], hv.contents⟩⟩
      rw [hwhole]
      obtain ⟨hb, rfl⟩ | ⟨hb, ht⟩ := hor
      · have ha : l.2 ≠ none := fun ha => href ⟨ha, .inl hb⟩
        simp only [h0, hfit, hb, ha, or_true, true_and, Option.some.injEq, false_or, reduceCtorEq,
          true_implies]
      · exact iff_of_true ht ⟨.inr hfit, fun hb' => absurd hb' hb⟩
    | outside h0 hbig =>
      obtain rfl := Option.some.inj hz
      apply iff_of_false
      · exact fun hw => absurd hw.1 (by simp)
      · exact fun hl => hl.1.elim h0 (by omega)
    | @freed v h0 hbig hv =>
      have hbad : v.invalidate = .error .outside := if_pos hv
      rw [sum_refused, hbad] at hz
      obtain rfl := Option.some.inj hz
      apply iff_of_false
      · exact fun hw => absurd hw.1 (by simp)
      · exact fun hl => hl.1.elim h0 (by omega)

/-- concat is all or nothing where the lengths fit; a chain of + gives the whole sum or an
invalid String, at each of its links, exactly if besides no operand fills a String again
that has become invalid. -/
theorem concat_all_or_nothing_iff (o : Operand) (a : Option Alloc) :
    (∀ s t, Contents s t → (AllOrNothing s t o a ↔ Fits s o)) ∧
      ∀ links : List (Operand × Option Alloc),
        Along Chain.step (fun _ _ x => x.Whole) links (.start o a) ↔
          Along Chain.step (fun x l _ => x.Links l) links (.start o a) := by
  have hstep : ∀ x l z, Chain.Whole x → x.step l = some z → (z.Whole ↔ x.Links l) :=
    fun _ _ _ h hz => chain_step_iff h hz
  constructor
  · exact fun _ _ h => allOrNothing_iff h o a
  · exact fun _ => along_invariant_iff hstep (start_whole o a)

/-- "b" joined to "a" with room for it. -/
theorem concat_all_or_nothing_ab : AllOrNothing ⟨.block [97, 0, 0], 2, 1⟩ [97]
    (.cstr (some ⟨[98], by decide, by decide⟩)) none := by
  apply ((concat_all_or_nothing_iff _ _).1 _ _ _).mpr
  · intro u hu
    obtain rfl : [98] = u := Option.some.inj hu
    exact .inr (by decide)
  · exact .inr ⟨[0], rfl, rfl, rfl, by decide, by decide⟩

/-- "a" + "b" + "c", the allocation for "b" fails: the sum is "c". -/
theorem sum_truncated :
    ¬ ∀ (o : Operand) (a : Option Alloc) (links : List (Operand × Option Alloc)),
      Along Chain.step (fun _ _ x => x.Whole) links (.start o a) := by
  intro h
  have h₀ := h (.char 97 (by decide)) (some ⟨[], false⟩)
    [(.char 98 (by decide), none), (.char 99 (by decide), some ⟨[], false⟩)]
  have h₁ := (along_cons_of_step rfl).mp h₀
  have h₂ := (along_cons_of_step rfl).mp h₁.2
  cases h₂.1.2 with
  | inl hnull => cases hnull.1
  | inr hwhole =>
    obtain ⟨t, ht, hc⟩ := hwhole
    obtain rfl : [97, 98, 99] = t := Option.some.inj ht
    cases hc.len_eq

/-- A String with chars is never joined with itself: the copy overwrites the NUL that would
end it, unless the allocation fails or its size wraps. -/
theorem concatSelf_outcome (h : Contents s t) (ht : t ≠ []) (a : Option Alloc) :
    s.concatSelf a = .error .outside ∨
      ∃ y, s.concatSelf a = .ok (false, y) ∧ (y = s ∨ y.buffer = .freed) := by
  have hlen := h.len_eq
  have hpos : s.len ≠ 0 := fun h0 => ht (List.eq_nil_of_length_eq_zero (hlen.symm.trans h0))
  by_cases hq : s.len + s.len + 1 < 2^32 ∧ Refused s (s.len + s.len) a
  · have hb : s.buffer ≠ .null := by
      intro hb
      obtain ⟨-, h0, -⟩ | ⟨rest, hs⟩ := h
      · exact hpos h0
      · simp [hs.buffer] at hb
    right
    refine ⟨s, ?_, .inl rfl⟩
    rw [concatSelf, if_pos hb]
    exact concat_refused h (by simp) hpos hq.1 hq.2
  · have hbad := (concatSelf_joins ⟨t, h⟩).2 (not_or.mpr ⟨hpos, hq⟩)
    apply hbad.imp_right
    intro hfree
    obtain ⟨y, hy, hfreed⟩ := hfree
    exact ⟨y, hy, .inr hfreed⟩

/-- No String with chars holds them twice after a concat or += of itself. -/
theorem never_twice (s : WString) (t : List UInt8) (h : Contents s t) (ht : t ≠ [])
    (a : Option Alloc) :
    (¬ ∃ done y, s.concatSelf a = .ok (done, y) ∧ Contents y (t ++ t)) ∧
      ¬ ∃ y, s.addAssignSelf a = .ok y ∧ Contents y (t ++ t) := by
  have hnot (y : WString) (hy : y = s ∨ y.buffer = .freed) : ¬ Contents y (t ++ t) := by
    intro hc
    cases hy with
    | inl hs =>
      have hlen := (hs ▸ h.len_eq).symm.trans hc.len_eq
      have hpos := List.length_pos_iff.mpr ht
      rw [List.length_append] at hlen
      omega
    | inr hfreed => exact hc.not_freed hfreed
  cases concatSelf_outcome h ht a with
  | inl he => simp [addAssignSelf, he, Except.map]
  | inr he =>
    obtain ⟨y, he, hy⟩ := he
    constructor
    · intro ⟨done, z, hz, hc⟩
      obtain ⟨rfl, rfl⟩ := Prod.mk.inj (Except.ok.inj (he.symm.trans hz))
      exact hnot y hy hc
    · intro ⟨z, hz, hc⟩
      rw [addAssignSelf, he] at hz
      obtain rfl : y = z := Except.ok.inj hz
      exact hnot y hy hc

/-- "ab" with room for four. -/
theorem never_twice_ab : (¬ ∃ done y, concatSelf ⟨.block [97, 98, 0, 0, 0], 4, 2⟩ none =
      .ok (done, y) ∧ Contents y ([97, 98] ++ [97, 98])) ∧
    ¬ ∃ y, addAssignSelf ⟨.block [97, 98, 0, 0, 0], 4, 2⟩ none = .ok y ∧
      Contents y ([97, 98] ++ [97, 98]) :=
  never_twice _ _ (.inr ⟨[0, 0], rfl, rfl, rfl, by decide, by decide⟩) (by decide) none

/-- The copy runs out of the buffer. -/
theorem concatSelf_outside : ¬ ∀ (s : WString) (t : List UInt8) (a : Option Alloc),
    Contents s t → t ≠ [] → ∃ done y, s.concatSelf a = .ok (done, y) ∧ Contents y (t ++ t) := by
  intro h
  obtain ⟨done, y, he, -⟩ := h ⟨.block [97, 98, 0, 0, 0], 4, 2⟩ [97, 98] none
    (.inr ⟨[0, 0], rfl, rfl, rfl, by decide, by decide⟩) (by decide)
  cases he

end RasPiArduino.WString
