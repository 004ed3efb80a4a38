import RasPiArduino.WStringInvariant

/-! Strings under any sequence of their operations. -/
namespace RasPiArduino.WString
open CMemory Transition

structure CString where
  bytes : List UInt8
  noNul : 0 ∉ bytes
  fits : bytes.length + 1 < 2^32
  deriving DecidableEq, Repr

/-- The values a String is made of or extended by; `none` is the null pointer, and a number
is given by the text of its conversion. -/
inductive Value where
  | cstr (t : Option CString)
  | string (j : Nat)
  | char (c : UInt8)
  | number (t : CString)
  deriving DecidableEq, Repr

/-- The Strings of a program by number; after an access outside the blocks nothing is said of
them. -/
structure Strings where
  strings : List WString
  sound : Bool
  deriving DecidableEq, Repr

inductive Op where
  | construct (v : Value) (a : Option Alloc)
  | assignCstr (i : Nat) (t : Option CString) (a : Option Alloc)
  | assign (i j : Nat) (a : Option Alloc)
  | reserve (i : Nat) (size : UInt32) (a : Option Alloc)
  | concat (i : Nat) (v : Value) (a : Option Alloc)
  | sum (i : Nat) (v : Value) (a : Option Alloc)
  | setCharAt (i loc : Nat) (c : UInt8)
  | setIndex (i index : Nat) (c : UInt8)
  | replace (i : Nat) (find replace : UInt8)
  | toLowerCase (i : Nat)
  | toUpperCase (i : Nat)
  | trim (i : Nat)
  | substring (i left right : Nat) (a₁ a₂ : Option Alloc)
  | indexOf (i : Nat) (ch : UInt8) (fromIndex : Nat)
  | indexOfString (i j fromIndex : Nat)
  | lastIndexOf (i : Nat) (ch : UInt8) (fromIndex : Nat)
  | lastIndexOfString (i j fromIndex : Nat)
  deriving DecidableEq, Repr

def noStrings : Strings := ⟨[], true⟩

/-- A null pointer that is read ends the program; after an access outside the blocks it is
not sound. -/
def settle (s : Strings) : Except Fault Strings → Option Strings
  | .ok t => some t
  | .error .null => none
  | .error .outside => some { s with sound := false }

def Strings.put (s : Strings) (i : Nat) (x : WString) : Strings :=
  { s with strings := s.strings.set i x }

def Strings.add (s : Strings) (x : WString) : Strings :=
  { s with strings := s.strings ++ [x] }

def update (s : Strings) (i : Nat) (f : WString → Except Fault WString) : Option Strings :=
  s.strings[i]?.bind fun x => settle s ((f x).map (s.put i))

def ask (s : Strings) (i : Nat) (f : WString → Except Fault Int) : Option Strings :=
  s.strings[i]?.bind fun x => settle s ((f x).map fun _ => s)

def construct (s : Strings) (v : Value) (a : Option Alloc) : Option (Except Fault WString) :=
  match v with
  | .cstr t => some (ofCstr (t.map CString.bytes) a)
  | .string j => s.strings[j]?.map fun y => ofString y a
  | .char c => some (ofChar c a)
  | .number t => some (ofNumber t.bytes a)

def join (s : Strings) (i : Nat) (x : WString) (v : Value) (a : Option Alloc) :
    Option (Except Fault (Bool × WString)) :=
  match v with
  | .cstr t => some (x.concatCstr (t.map CString.bytes) a)
  | .string j => if j = i then some (x.concatSelf a)
    else s.strings[j]?.map fun y => x.concatString y a
  | .char c => some (x.concatChar c a)
  | .number t => some (x.concatNumber t.bytes a)

def step (s : Strings) (o : Op) : Option Strings :=
  if s.sound = true then
    match o with
    | .construct v a => (construct s v a).bind fun r => settle s (r.map s.add)
    | .assignCstr i t a => update s i fun x => x.assignCstr (t.map CString.bytes) a
    | .assign i j a => if i = j then update s i .ok
      else s.strings[j]?.bind fun y => update s i fun x => x.assign y a
    | .reserve i size a => update s i fun x => (x.reserve size.toNat a).map Prod.snd
    | .concat i v a => s.strings[i]?.bind fun x => (join s i x v a).bind fun r =>
        update s i fun _ => r.map Prod.snd
    | .sum i v a => s.strings[i]?.bind fun x => (join s i x v a).bind fun r =>
        update s i fun _ => WString.sum r
    | .setCharAt i loc c => update s i fun x => x.setCharAt loc c
    | .setIndex i index c => update s i fun x => x.setIndex index c
    | .replace i find r => update s i fun x => x.replace find r
    | .toLowerCase i => update s i WString.toLowerCase
    | .toUpperCase i => update s i WString.toUpperCase
    | .trim i => update s i WString.trim
    | .substring i left right a₁ a₂ => s.strings[i]?.bind fun x =>
        settle s ((x.substring left right a₁ a₂).map fun p => (s.put i p.2).add p.1)
    | .indexOf i ch k => ask s i fun x => x.indexOf ch k
    | .indexOfString i j k => s.strings[j]?.bind fun y => ask s i fun x => x.indexOfString y k
    | .lastIndexOf i ch k => update s i fun x => (x.lastIndexOf ch k).map Prod.snd
    | .lastIndexOfString i j k => s.strings[j]?.bind fun y =>
        ask s i fun x => x.lastIndexOfString y k
  else none

def AllValid (s : Strings) : Prop := s.sound = true ∧ ∀ x ∈ s.strings, Valid x

def AllOk (s : Strings) : Prop := s.sound = true ∧ ∀ x ∈ s.strings, Ok x

def Room (x : WString) (n : Nat) : Prop := n = 0 ∨ x.len + n + 1 < 2^32

/-- The lengths fit, and the String is not extended by itself. -/
def Joinable (s : Strings) (i : Nat) (x : WString) (v : Value) (a : Option Alloc) : Prop :=
  match v with
  | .cstr none => True
  | .cstr (some t) | .number t => Room x t.bytes.length
  | .char _ => Room x 1
  | .string j =>
    if j = i then x.len = 0 ∨ x.len + x.len + 1 < 2^32 ∧ Refused x (x.len + x.len) a
    else ∀ y, s.strings[j]? = some y → Room x y.len

/-- No NUL is stored among the chars, no length reaches 2^32 - 1, and no String with chars is
extended by itself. -/
def Respects (s : Strings) : Op → Prop
  | .reserve i size a => ∀ x, s.strings[i]? = some x →
    size.toNat + 1 < 2^32 ∨ x.buffer = .null ∧ a = none
  | .concat i v a | .sum i v a => ∀ x, s.strings[i]? = some x → Joinable s i x v a
  | .setCharAt i loc c | .setIndex i loc c => ∀ x, s.strings[i]? = some x → loc < x.len → c ≠ 0
  | .replace i find r => ∀ x, s.strings[i]? = some x → r = 0 → find ∉ x.chars
  | _ => True

variable {s t : Strings} {i j : Nat} {x y : WString} {v : Value} {a : Option Alloc}

theorem AllOk.valid (h : AllOk s) : AllValid s := ⟨h.1, fun x hx => (h.2 x hx).valid⟩

theorem AllOk.get (h : AllOk s) (hx : s.strings[i]? = some x) : Ok x :=
  h.2 x (List.mem_of_getElem? hx)

theorem AllOk.put (h : AllOk s) (hy : Ok y) : AllOk (s.put i y) := by
  refine ⟨h.1, fun z hz => ?_⟩
  obtain hz | rfl := List.mem_or_eq_of_mem_set hz
  · exact h.2 z hz
  · exact hy

theorem AllOk.add (h : AllOk s) (hy : Ok y) : AllOk (s.add y) := by
  refine ⟨h.1, fun z hz => ?_⟩
  obtain hz | hz := List.mem_append.mp hz
  · exact h.2 z hz
  · rwa [List.mem_singleton.mp hz]

def Exact (t : Strings) (Q : Prop) : Prop := (AllValid t ↔ Q) ∧ (Q → AllOk t)

theorem exact_of_ok {Q : Prop} (hq : Q) (h : AllOk t) : Exact t Q :=
  ⟨iff_of_true h.valid hq, fun _ => h⟩

theorem update_exact (h : AllOk s) {f : WString → Except Fault WString} {Q : WString → Prop}
    (hf : ∀ x, s.strings[i]? = some x → Settles (f x) (Q x)) (ht : update s i f = some t) :
    Exact t (∀ x, s.strings[i]? = some x → Q x) := by
  obtain ⟨x, hx, ht⟩ := Option.bind_eq_some_iff.mp ht
  have hQ : (∀ x, s.strings[i]? = some x → Q x) ↔ Q x := by simp [hx]
  rw [Exact, hQ]
  obtain ⟨hgood, hbad⟩ := hf x hx
  by_cases hq : Q x
  · obtain ⟨y, hy, hok⟩ := hgood hq
    rw [hy] at ht
    obtain rfl : s.put i y = t := Option.some.inj ht
    exact exact_of_ok hq (h.put hok)
  · refine ⟨iff_of_false (fun hv => ?_) hq, fun h => absurd h hq⟩
    cases hr : f x with
    | ok y =>
      rw [hr] at ht
      obtain rfl : s.put i y = t := Option.some.inj ht
      have hlt := (List.getElem?_eq_some_iff.mp hx).1
      exact hbad hq y hr (hv.2 y (List.mem_of_getElem? (List.getElem?_set_self hlt)))
    | error e =>
      rw [hr] at ht
      cases e with
      | null => cases ht
      | outside =>
        obtain rfl : { s with sound := false } = t := Option.some.inj ht
        cases hv.1

theorem update_ok (h : AllOk s) {f : WString → Except Fault WString}
    (hf : ∀ x, Ok x → Settles (f x) True) (ht : update s i f = some t) : Exact t True := by
  have he := update_exact (Q := fun _ => True) h (fun x hx => hf x (h.get hx)) ht
  simpa using he

theorem ask_exact (h : AllOk s) {f : WString → Except Fault Int}
    (hf : ∀ x, Ok x → f x = .error .null ∨ ∃ r, f x = .ok r) (ht : ask s i f = some t) :
    Exact t True := by
  obtain ⟨x, hx, ht⟩ := Option.bind_eq_some_iff.mp ht
  obtain hr | ⟨r, hr⟩ := hf x (h.get hx)
  · rw [hr] at ht
    cases ht
  · rw [hr] at ht
    obtain rfl : s = t := Option.some.inj ht
    exact exact_of_ok trivial h

theorem copy_ok {b : List UInt8} (h : Ok x) (hb : 0 ∉ b) (hfits : b.length + 1 < 2^32) :
    ∃ y, x.copy b b.length a = .ok y ∧ Ok y := by
  obtain ⟨u, h⟩ := h
  obtain ⟨y, v, hy, hc, -⟩ := copy_contents (a := a) h hb hfits
  exact ⟨y, hy, v, hc⟩

theorem init_ok : Ok init := ⟨[], init_contents⟩

theorem invalidate_ok (h : Ok x) : ∃ y, x.invalidate = .ok y ∧ Ok y := by
  obtain ⟨u, h⟩ := h
  exact ⟨init, h.invalidate, init_ok⟩

theorem assignText_ok {b : List UInt8} (h : Ok x) (hb : 0 ∉ b) (hfits : b.length + 1 < 2^32) :
    ∃ y, x.assignCstr (some b) a = .ok y ∧ Ok y := by
  rw [assignCstr, Nat.mod_eq_of_lt (by omega)]
  exact copy_ok h hb hfits

theorem assignCstr_ok (h : Ok x) (b : Option CString) :
    ∃ y, x.assignCstr (b.map CString.bytes) a = .ok y ∧ Ok y := by
  cases b with
  | none => exact invalidate_ok h
  | some b => exact assignText_ok h b.noNul b.fits

theorem assign_ok (h : Ok x) (hy : Ok y) : ∃ z, x.assign y a = .ok z ∧ Ok z := by
  obtain ⟨u, ⟨hb, -⟩ | ⟨rest, hs⟩⟩ := hy
  · rw [assign, if_neg (by simp [hb])]
    exact invalidate_ok h
  · rw [assign, if_pos (by simp [hs.buffer]), hs.buffer, Buffer.bytes, ok_bind,
      cstring_append hs.noNul, ok_bind, hs.len]
    exact copy_ok h hs.noNul hs.contents.length_fits

theorem charText_spec (c : UInt8) : 0 ∉ charText c ∧ (charText c).length + 1 < 2^32 := by
  rw [charText]
  split
  · simp
  · next hc => simp [Ne.symm hc]

theorem construct_ok (h : AllOk s) {r : Except Fault WString} (hr : construct s v a = some r) :
    ∃ y, r = .ok y ∧ Ok y := by
  cases v with
  | cstr b =>
    obtain rfl : ofCstr (b.map CString.bytes) a = r := Option.some.inj hr
    cases b with
    | none => exact ⟨init, rfl, init_ok⟩
    | some b => exact assignText_ok init_ok b.noNul b.fits
  | string j =>
    obtain ⟨y, hy, rfl⟩ := Option.map_eq_some_iff.mp hr
    exact assign_ok init_ok (h.get hy)
  | char c =>
    obtain rfl : ofChar c a = r := Option.some.inj hr
    exact assignText_ok init_ok (charText_spec c).1 (charText_spec c).2
  | number b =>
    obtain rfl : ofNumber b.bytes a = r := Option.some.inj hr
    exact assignText_ok init_ok b.noNul b.fits

theorem concatText_joins (h : Ok x) (b : CString) :
    Joins (x.concat (.text b.bytes) (b.bytes.length % 2^32) a) (Room x b.bytes.length) := by
  have hfits := b.fits
  rw [Nat.mod_eq_of_lt (by omega)]
  exact concat_joins h b.noNul (.inl rfl) hfits

theorem concatString_joins (h : Ok x) (hy : Ok y) : Joins (x.concatString y a) (Room x y.len) := by
  obtain ⟨u, ⟨hb, hlen, -⟩ | ⟨rest, hs⟩⟩ := hy
  · rw [concatString, if_neg (by simp [hb]), hlen]
    exact ⟨fun _ => ⟨false, x, rfl, h⟩, fun hq => absurd (.inl rfl) hq⟩
  · rw [concatString, if_pos (by simp [hs.buffer]), hs.buffer, Buffer.bytes, ok_bind,
      cstring_append hs.noNul, ok_bind, hs.len]
    exact concat_joins h hs.noNul (.inl rfl) hs.contents.length_fits

theorem concatChar_joins (h : Ok x) (c : UInt8) : Joins (x.concatChar c a) (Room x 1) := by
  refine concat_joins h (charText_spec c).1 ?_ (by decide)
  rw [charText]
  split
  · exact .inr ⟨rfl, rfl⟩
  · exact .inl rfl

theorem join_joins (h : AllOk s) (hx : s.strings[i]? = some x) {r : Except Fault (Bool × WString)}
    (hr : join s i x v a = some r) : Joins r (Joinable s i x v a) := by
  have hok := h.get hx
  cases v with
  | cstr b =>
    obtain rfl : x.concatCstr (b.map CString.bytes) a = r := Option.some.inj hr
    cases b with
    | none => exact ⟨fun _ => ⟨false, x, rfl, hok⟩, fun hq => absurd trivial hq⟩
    | some b => exact concatText_joins hok b
  | string j =>
    simp only [join] at hr
    simp only [Joinable]
    split at hr
    · next hj =>
      obtain rfl : x.concatSelf a = r := Option.some.inj hr
      rw [if_pos hj]
      exact concatSelf_joins hok
    · next hj =>
      obtain ⟨y, hy, rfl⟩ := Option.map_eq_some_iff.mp hr
      rw [if_neg hj, hy]
      simpa using concatString_joins hok (h.get hy)
  | char c =>
    obtain rfl : x.concatChar c a = r := Option.some.inj hr
    exact concatChar_joins hok c
  | number b =>
    obtain rfl : x.concatNumber b.bytes a = r := Option.some.inj hr
    exact concatText_joins hok b

theorem lastIndexOf_settles (h : Ok x) (ch : UInt8) (k : Nat) :
    Settles ((x.lastIndexOf ch k).map Prod.snd) True := by
  obtain ⟨u, hu⟩ := h
  obtain ⟨r, hr⟩ := lastIndexOf_eq hu ch k
  exact settles_of_ok trivial (by rw [hr]; rfl) ⟨u, hu⟩

/-- A step keeps every String valid exactly under the condition, and then right. -/
theorem step_exact (h : AllOk s) {o : Op} (ht : step s o = some t) : Exact t (Respects s o) := by
  unfold step at ht
  rw [if_pos h.1] at ht
  cases o with
  | construct v a =>
    obtain ⟨r, hr, ht⟩ := Option.bind_eq_some_iff.mp ht
    obtain ⟨y, rfl, hy⟩ := construct_ok h hr
    obtain rfl : s.add y = t := Option.some.inj ht
    exact exact_of_ok trivial (h.add hy)
  | assignCstr i b a =>
    refine update_ok h (fun x hx => ?_) ht
    obtain ⟨y, hy, hok⟩ := assignCstr_ok hx b
    exact settles_of_ok trivial hy hok
  | assign i j a =>
    simp only at ht
    split at ht
    · exact update_ok h (fun x hx => settles_of_ok trivial rfl hx) ht
    · obtain ⟨y, hy, ht⟩ := Option.bind_eq_some_iff.mp ht
      refine update_ok h (fun x hx => ?_) ht
      obtain ⟨z, hz, hok⟩ := assign_ok hx (h.get hy)
      exact settles_of_ok trivial hz hok
  | reserve i size a =>
    exact update_exact h (fun x hx => reserve_settles (h.get hx) size.toNat_lt) ht
  | concat i v a =>
    obtain ⟨x, hx, ht⟩ := Option.bind_eq_some_iff.mp ht
    obtain ⟨r, hr, ht⟩ := Option.bind_eq_some_iff.mp ht
    refine update_exact h (fun x' hx' => ?_) ht
    obtain rfl : x = x' := Option.some.inj (hx.symm.trans hx')
    exact (join_joins h hx hr).settles
  | sum i v a =>
    obtain ⟨x, hx, ht⟩ := Option.bind_eq_some_iff.mp ht
    obtain ⟨r, hr, ht⟩ := Option.bind_eq_some_iff.mp ht
    refine update_exact h (fun x' hx' => ?_) ht
    obtain rfl : x = x' := Option.some.inj (hx.symm.trans hx')
    exact (join_joins h hx hr).sum
  | setCharAt i loc c =>
    exact update_exact h (fun x hx => setCharAt_settles (h.get hx) loc c) ht
  | setIndex i index c =>
    exact update_exact h (fun x hx => setIndex_settles (h.get hx) index c) ht
  | replace i find r => exact update_exact h (fun x hx => replace_settles (h.get hx) find r) ht
  | toLowerCase i => exact update_ok h (fun x hx => toLowerCase_settles hx) ht
  | toUpperCase i => exact update_ok h (fun x hx => toUpperCase_settles hx) ht
  | trim i => exact update_ok h (fun x hx => trim_settles hx) ht
  | substring i left right a₁ a₂ =>
    obtain ⟨x, hx, ht⟩ := Option.bind_eq_some_iff.mp ht
    have hok := h.get hx
    have ⟨u, hu⟩ := hok
    obtain hr | ⟨out, v, hr, hout⟩ := substring_eq hu left right a₁ a₂
    · rw [hr] at ht
      cases ht
    · rw [hr] at ht
      obtain rfl : (s.put i x).add out = t := Option.some.inj ht
      exact exact_of_ok trivial ((h.put hok).add ⟨v, hout⟩)
  | indexOf i ch k =>
    refine ask_exact h (fun x hx => ?_) ht
    obtain ⟨u, hu⟩ := hx
    exact .inr (indexOf_defined hu ch k)
  | indexOfString i j k =>
    obtain ⟨y, hy, ht⟩ := Option.bind_eq_some_iff.mp ht
    refine ask_exact h (fun x hx => ?_) ht
    obtain ⟨u, hu⟩ := hx
    obtain ⟨w, hw⟩ := h.get hy
    exact indexOfString_defined hu hw k
  | lastIndexOf i ch k => exact update_ok h (fun x hx => lastIndexOf_settles hx ch k) ht
  | lastIndexOfString i j k =>
    obtain ⟨y, hy, ht⟩ := Option.bind_eq_some_iff.mp ht
    refine ask_exact h (fun x hx => ?_) ht
    obtain ⟨u, hu⟩ := hx
    obtain ⟨w, hw⟩ := h.get hy
    exact .inr (lastIndexOfString_defined hu hw k)

/-- In the states of a run every String is valid if and only if the operations store no NUL,
reach no length that does not fit, and extend no String by itself. -/
theorem strings_valid_iff (ops : List Op) :
    Along step (fun _ _ t => AllValid t) ops noStrings ↔
      Along step (fun s o _ => Respects s o) ops noStrings := by
  have hstep : ∀ s o t, AllOk s → step s o = some t →
      (AllValid t ↔ Respects s o) ∧ (Respects s o → AllOk t) := fun _ _ _ hs ht => step_exact hs ht
  exact along_iff_of_keeps hstep ⟨rfl, fun _ hx => absurd hx List.not_mem_nil⟩

/-- setCharAt(0, 0) on "A": the length stays 1. -/
theorem setCharAt_stores_nul :
    ¬ ∀ ops, Along step (fun _ _ t => AllValid t) ops noStrings := by
  intro h
  have h₀ := h [.construct (.cstr (some ⟨[65], by decide, by decide⟩)) (some ⟨[], false⟩),
    .setCharAt 0 0 0]
  have h₁ := (along_cons_of_step rfl).mp h₀
  have h₂ := (along_cons_of_step rfl).mp h₁.2
  exact not_valid_of_nul (i := 0) rfl (by decide) rfl (h₂.1.2 _ (List.mem_singleton.mpr rfl))

end RasPiArduino.WString
