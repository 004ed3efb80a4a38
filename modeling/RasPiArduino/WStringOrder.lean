import RasPiArduino.WStringSpec

/-! The comparisons of Strings, and the order of the bytes that they follow. -/
namespace RasPiArduino.WString
open CMemory

def compareTo (s s2 : WString) : Except Fault Int :=
  if s.buffer = .null ∨ s2.buffer = .null then
    if s2.buffer ≠ .null ∧ s2.len > 0 then do
      let b2 ← s2.buffer.bytes
      let c ← get b2 0
      .ok (0 - c.toNat)
    else if s.buffer ≠ .null ∧ s.len > 0 then do
      let b ← s.buffer.bytes
      let c ← get b 0
      .ok c.toNat
    else .ok 0
  else do
    let b ← s.buffer.bytes
    let b2 ← s2.buffer.bytes
    strcmp b b2

def equals (s s2 : WString) : Except Fault Bool :=
  if s.len = s2.len then do
    let r ← s.compareTo s2
    .ok (r == 0)
  else .ok false

def equalsCstr (s : WString) (cstr : Option (List UInt8)) : Except Fault Bool :=
  if s.len = 0 then .ok (cstr = none ∨ cstr = some [])
  else do
    let b ← s.buffer.bytes
    match cstr with
    | none => do
      let c ← get b 0
      .ok (c == 0)
    | some t => do
      let r ← strcmp b (t ++ [0])
      .ok (r == 0)

def eq (s rhs : WString) : Except Fault Bool := s.equals rhs

def lt (s rhs : WString) : Except Fault Bool := do
  let r ← s.compareTo rhs
  .ok (r < 0)

def gt (s rhs : WString) : Except Fault Bool := do
  let r ← s.compareTo rhs
  .ok (r > 0)

def le (s rhs : WString) : Except Fault Bool := do
  let r ← s.compareTo rhs
  .ok (r ≤ 0)

def ge (s rhs : WString) : Except Fault Bool := do
  let r ← s.compareTo rhs
  .ok (r ≥ 0)

def ignoreCaseLoop : List UInt8 → List UInt8 → Except Fault Bool
  | [], _ => .error .outside
  | c :: p1, p2 =>
    if c = 0 then .ok true
    else match p2 with
      | [] => .error .outside
      | d :: p2 => if tolower c ≠ tolower d then .ok false else ignoreCaseLoop p1 p2

def equalsIgnoreCase (s s2 : WString) (same : Bool) : Except Fault Bool :=
  if same then .ok true
  else if s.len ≠ s2.len then .ok false
  else if s.len = 0 then .ok true
  else do
    let p1 ← s.buffer.bytes
    let p2 ← s2.buffer.bytes
    ignoreCaseLoop p1 p2

def values (t : List UInt8) : List Nat := t.map UInt8.toNat

/-- The sign of `x` is the order of the bytes. -/
structure Orders (x : Int) (t u : List UInt8) : Prop where
  below : x < 0 ↔ values t < values u
  equal : x = 0 ↔ t = u
  above : 0 < x ↔ values u < values t

/-- The null pointer, or a C string, as it fits in the addresses. -/
def IsCstr (cstr : Option (List UInt8)) : Prop := ∀ w ∈ cstr, 0 ∉ w ∧ w.length + 1 < 2^32

/-- The comparisons of Strings of the chars `t`, `u` and `v`, the first two being one object
if `same` holds. -/
structure Comparisons (a b c : WString) (t u v : List UInt8) (same : Bool) : Prop where
  bytes : ∃ x, a.compareTo b = .ok x ∧ Orders x t u
  antisymmetric : ∃ x y, a.compareTo b = .ok x ∧ b.compareTo a = .ok y ∧ x.sign = -y.sign
  transitive : ∃ x y z, a.compareTo b = .ok x ∧ b.compareTo c = .ok y ∧ a.compareTo c = .ok z ∧
    (x ≤ 0 → y ≤ 0 → z ≤ 0)
  operators : ∃ x, a.compareTo b = .ok x ∧ a.equals b = .ok (x = 0) ∧ a.eq b = .ok (x = 0) ∧
    a.lt b = .ok (x < 0) ∧ a.gt b = .ok (x > 0) ∧ a.le b = .ok (x ≤ 0) ∧ a.ge b = .ok (x ≥ 0)
  cstring : ∀ cstr alloc, IsCstr cstr →
    ∃ d, ofCstr cstr (some alloc) = .ok d ∧ a.equalsCstr cstr = a.equals d
  ignoreCase : ∃ a' b' r, a.toLowerCase = .ok a' ∧ b.toLowerCase = .ok b' ∧ a'.equals b' = .ok r ∧
    a.equalsIgnoreCase b same = .ok r

variable {s s2 a b c : WString} {t u v w rest rest2 : List UInt8} {x y z : Int}

theorem Orders.swap (h : Orders x t u) (h' : Orders y u t) : x.sign = -y.sign := by
  cases lt_trichotomy x 0 with
  | inl hx =>
    have hy := h'.above.mpr (h.below.mp hx)
    rw [Int.sign_eq_neg_one_of_neg hx, Int.sign_eq_one_of_pos hy]
  | inr hx =>
    cases hx with
    | inl hx =>
      have hy := h'.equal.mpr (h.equal.mp hx).symm
      rw [hx, hy]
      rfl
    | inr hx =>
      have hy := h'.below.mpr (h.above.mp hx)
      rw [Int.sign_eq_one_of_pos hx, Int.sign_eq_neg_one_of_neg hy]
      rfl

theorem Orders.beq_zero (h : Orders x t u) : (x == 0) = decide (t = u) := by
  rw [Bool.eq_iff_iff, beq_iff_eq, decide_eq_true_eq]
  exact h.equal

theorem Orders.le_iff (h : Orders x t u) : x ≤ 0 ↔ values t ≤ values u := by
  rw [← not_lt, ← not_lt, h.above]

theorem Orders.trans (hx : Orders x t u) (hy : Orders y u v) (hz : Orders z t v) :
    x ≤ 0 → y ≤ 0 → z ≤ 0 := by
  rw [hx.le_iff, hy.le_iff, hz.le_iff]
  exact le_trans

theorem orders_nil_cons (c : UInt8) (hc : c ≠ 0) (u : List UInt8) :
    Orders (0 - c.toNat) [] (c :: u) := by
  have hpos : 0 < c.toNat := Nat.pos_of_ne_zero fun h => hc (UInt8.toNat_inj.mp h)
  refine ⟨iff_of_true (by omega) (List.nil_lt_cons _ _), iff_of_false (by omega) (by simp),
    iff_of_false (by omega) (List.not_lt_nil _)⟩

theorem orders_cons_nil (c : UInt8) (hc : c ≠ 0) (t : List UInt8) :
    Orders c.toNat (c :: t) [] := by
  have hpos : 0 < c.toNat := Nat.pos_of_ne_zero fun h => hc (UInt8.toNat_inj.mp h)
  refine ⟨iff_of_false (by omega) (List.not_lt_nil _), iff_of_false (by omega) (by simp),
    iff_of_true (by omega) (List.nil_lt_cons _ _)⟩

theorem orders_self (t : List UInt8) : Orders 0 t t :=
  ⟨by simp, by simp, by simp⟩

theorem Orders.cons (h : Orders x t u) (c : UInt8) : Orders x (c :: t) (c :: u) := by
  refine ⟨?_, ?_, ?_⟩
  · simp [h.below, values]
  · simp [h.equal]
  · simp [h.above, values]

theorem orders_of_ne {c d : UInt8} (h : c ≠ d) (t u : List UInt8) :
    Orders (c.toNat - d.toNat) (c :: t) (d :: u) := by
  have hne : c.toNat ≠ d.toNat := fun he => h (UInt8.toNat_inj.mp he)
  refine ⟨?_, iff_of_false (by omega) (by simp [h]), ?_⟩
  · simp only [values, List.map_cons, List.cons_lt_cons_iff, hne, false_and, or_false]
    omega
  · simp only [values, List.map_cons, List.cons_lt_cons_iff, hne.symm, false_and, or_false]
    omega

theorem strcmp_orders (ht : 0 ∉ t) (hu : 0 ∉ u) (r r' : List UInt8) :
    ∃ x, strcmp (t ++ 0 :: r) (u ++ 0 :: r') = .ok x ∧ Orders x t u := by
  induction t generalizing u with
  | nil =>
    cases u with
    | nil => exact ⟨0, by simp [strcmp], orders_self []⟩
    | cons d u =>
      have hd : (0 : UInt8) ≠ d := fun he => hu (he ▸ List.mem_cons_self)
      exact ⟨0 - d.toNat, by simp [strcmp, hd], orders_nil_cons d hd.symm u⟩
  | cons c t ih =>
    obtain ⟨hc, ht⟩ := not_or.mp (List.mem_cons.not.mp ht)
    cases u with
    | nil => exact ⟨c.toNat, by simp [strcmp, Ne.symm hc], orders_cons_nil c (Ne.symm hc) t⟩
    | cons d u =>
      obtain ⟨-, hu'⟩ := not_or.mp (List.mem_cons.not.mp hu)
      by_cases hcd : c = d
      · subst hcd
        obtain ⟨x, hx, h⟩ := ih ht hu'
        exact ⟨x, by simpa [strcmp, Ne.symm hc] using hx, h.cons c⟩
      · exact ⟨c.toNat - d.toNat, by simp [strcmp, hcd], orders_of_ne hcd t u⟩

/-! The calls. -/

theorem Contents.eq_nil (h : Contents s t) (hb : s.buffer = .null) : t = [] := by
  cases h with
  | inl h => exact h.2.2
  | inr h =>
    obtain ⟨rest, h⟩ := h
    rw [h.buffer] at hb
    cases hb

theorem Contents.unique (h : Contents s t) (h' : Contents s u) : t = u := by
  have hlen := h.len_eq.symm.trans h'.len_eq
  by_cases hb : s.buffer = .null
  · rw [h.eq_nil hb, h'.eq_nil hb]
  · obtain ⟨rest, hs⟩ := h.holds hb
    obtain ⟨rest', hs'⟩ := h'.holds hb
    have hbytes := Buffer.block.inj (hs.buffer.symm.trans hs'.buffer)
    exact List.append_inj_left hbytes hlen

theorem Contents.first (h : Contents s t) (hlen : s.len > 0) :
    ∃ d w rest, t = d :: w ∧ d ≠ 0 ∧ s.buffer = .block (d :: (w ++ 0 :: rest)) := by
  have hpos := h.len_eq
  cases t with
  | nil => simp at hpos; omega
  | cons d w =>
    obtain ⟨rest, hs⟩ := h.holds_of_ne_nil (List.cons_ne_nil d w)
    exact ⟨d, w, rest, rfl, fun h0 => hs.noNul (h0 ▸ List.mem_cons_self), hs.buffer⟩

/-- Of two Strings of which one has no buffer, the first chars decide. -/
theorem compareTo_orders (h : Contents s t) (h2 : Contents s2 u) :
    ∃ x, s.compareTo s2 = .ok x ∧ Orders x t u := by
  rw [compareTo]
  split
  · next hnull =>
    split
    · next hsecond =>
      obtain rfl := h.eq_nil (hnull.resolve_right hsecond.1)
      obtain ⟨d, w, rest, rfl, hd, hb⟩ := h2.first hsecond.2
      exact ⟨0 - d.toNat, by rw [hb]; rfl, orders_nil_cons d hd w⟩
    · next hsecond =>
      have hu : u = [] := by
        by_contra hne
        obtain ⟨rest, hs2⟩ := h2.holds_of_ne_nil hne
        apply hsecond
        rw [hs2.buffer, h2.len_eq]
        exact ⟨by simp, List.length_pos_iff.mpr hne⟩
      subst hu
      split
      · next hfirst =>
        obtain ⟨d, w, rest, rfl, hd, hb⟩ := h.first hfirst.2
        exact ⟨d.toNat, by rw [hb]; rfl, orders_cons_nil d hd w⟩
      · next hfirst =>
        have ht : t = [] := by
          by_contra hne
          obtain ⟨rest, hs⟩ := h.holds_of_ne_nil hne
          apply hfirst
          rw [hs.buffer, h.len_eq]
          exact ⟨by simp, List.length_pos_iff.mpr hne⟩
        subst ht
        exact ⟨0, rfl, orders_self []⟩
  · next hblocks =>
    obtain ⟨hb, hb2⟩ := not_or.mp hblocks
    obtain ⟨rest, hs⟩ := h.holds hb
    obtain ⟨rest2, hs2⟩ := h2.holds hb2
    rw [hs.buffer, hs2.buffer, Buffer.bytes, Buffer.bytes, ok_bind, ok_bind]
    exact strcmp_orders hs.noNul hs2.noNul rest rest2

theorem equals_eq (h : Contents s t) (h2 : Contents s2 u) : s.equals s2 = .ok (t = u) := by
  obtain ⟨x, hx, horder⟩ := compareTo_orders h h2
  rw [equals, hx, h.len_eq, h2.len_eq, ok_bind]
  split
  · exact congrArg Except.ok (horder.beq_zero)
  · next hlen =>
    have hne : t ≠ u := fun he => hlen (by rw [he])
    simp [hne]

theorem equalsCstr_eq (h : Contents s t) {cstr : Option (List UInt8)} (hcstr : ∀ w ∈ cstr, 0 ∉ w) :
    s.equalsCstr cstr = .ok (t = cstr.getD []) := by
  rw [equalsCstr]
  split
  · next hzero =>
    have ht : t = [] := List.eq_nil_of_length_eq_zero (h.len_eq ▸ hzero)
    cases cstr with
    | none => simp [ht]
    | some w => simp [ht, eq_comm]
  · next hzero =>
    obtain ⟨d, w, rest, rfl, hd, hb⟩ := h.first (Nat.pos_of_ne_zero hzero)
    rw [hb, Buffer.bytes, ok_bind]
    cases cstr with
    | none => simp [CMemory.get, hd]
    | some y =>
      obtain ⟨x, hx, horder⟩ := strcmp_orders h.noNul (hcstr y rfl) rest []
      rw [List.cons_append] at hx
      dsimp only
      rw [hx, ok_bind, Option.getD_some]
      exact congrArg Except.ok horder.beq_zero

theorem ofCstr_contents {cstr : Option (List UInt8)} (h : IsCstr cstr) (al : Alloc) :
    ∃ d, ofCstr cstr (some al) = .ok d ∧ Contents d (cstr.getD []) := by
  cases cstr with
  | none => exact ⟨init, rfl, init_contents⟩
  | some w =>
    obtain ⟨hnul, hfits⟩ := h w rfl
    obtain ⟨d, v, hd, hv, hkept⟩ := copy_contents (a := some al) init_contents hnul hfits
    obtain rfl := (hkept (by simp [Refused])).1
    refine ⟨d, ?_, hv⟩
    rw [ofCstr, Nat.mod_eq_of_lt (by omega), hd]

theorem ignoreCaseLoop_eq (ht : 0 ∉ t) (hlen : t.length = u.length) (r r' : List UInt8) :
    ignoreCaseLoop (t ++ 0 :: r) (u ++ r') = .ok (t.map tolower = u.map tolower) := by
  induction t generalizing u with
  | nil =>
    obtain rfl := List.eq_nil_of_length_eq_zero hlen.symm
    simp [ignoreCaseLoop]
  | cons c t ih =>
    obtain ⟨hc, ht⟩ := not_or.mp (List.mem_cons.not.mp ht)
    cases u with
    | nil => cases hlen
    | cons d u =>
      have hrest := ih ht (Nat.succ.inj hlen)
      simp only [List.cons_append, ignoreCaseLoop, if_neg (Ne.symm hc), hrest, List.map_cons,
        List.cons.injEq]
      split
      · next hne => simp [hne]
      · next he => simp [not_not.mp he]

theorem equalsIgnoreCase_eq (h : Contents s t) (h2 : Contents s2 u) {same : Bool}
    (hsame : same = true → s = s2) :
    s.equalsIgnoreCase s2 same = .ok (t.map tolower = u.map tolower) := by
  rw [equalsIgnoreCase]
  split
  · next hs =>
    obtain rfl := hsame hs
    simp [h.unique h2]
  · rw [h.len_eq, h2.len_eq]
    split
    · next hne =>
      have hmap : t.map tolower ≠ u.map tolower := fun he => hne (by
        simpa using congrArg List.length he)
      simp [hmap]
    · next hlen =>
      rw [not_not] at hlen
      split
      · next hzero =>
        obtain rfl := List.eq_nil_of_length_eq_zero hzero
        obtain rfl := List.eq_nil_of_length_eq_zero hlen.symm
        rfl
      · next hzero =>
        obtain ⟨rest, hs⟩ := h.holds_of_ne_nil (fun hn => hzero (by simp [hn]))
        obtain ⟨rest2, hs2⟩ := h2.holds_of_ne_nil (fun hn => hzero (by simp [hlen, hn]))
        rw [hs.buffer, hs2.buffer, Buffer.bytes, Buffer.bytes, ok_bind, ok_bind]
        exact ignoreCaseLoop_eq hs.noNul hlen rest (0 :: rest2)

/-- The comparisons are one total order of the chars, and one equality. -/
theorem comparisons (ha : Contents a t) (hb : Contents b u) (hc : Contents c v) (same : Bool)
    (hsame : same = true → a = b) : Comparisons a b c t u v same where
  bytes := compareTo_orders ha hb
  antisymmetric := by
    obtain ⟨x, hx, hxo⟩ := compareTo_orders ha hb
    obtain ⟨y, hy, hyo⟩ := compareTo_orders hb ha
    exact ⟨x, y, hx, hy, hxo.swap hyo⟩
  transitive := by
    obtain ⟨x, hx, hxo⟩ := compareTo_orders ha hb
    obtain ⟨y, hy, hyo⟩ := compareTo_orders hb hc
    obtain ⟨z, hz, hzo⟩ := compareTo_orders ha hc
    exact ⟨x, y, z, hx, hy, hz, hxo.trans hyo hzo⟩
  operators := by
    obtain ⟨x, hx, hxo⟩ := compareTo_orders ha hb
    have hequals := equals_eq ha hb
    refine ⟨x, hx, ?_, ?_, by rw [lt, hx]; rfl, by rw [gt, hx]; rfl, by rw [le, hx]; rfl,
      by rw [ge, hx]; rfl⟩
    · simp only [hequals, hxo.equal]
    · simp only [eq, hequals, hxo.equal]
  cstring := by
    intro cstr alloc hcstr
    obtain ⟨d, hd, hcontents⟩ := ofCstr_contents hcstr alloc
    refine ⟨d, hd, ?_⟩
    rw [equalsCstr_eq ha fun w hw => (hcstr w hw).1, equals_eq ha hcontents]
  ignoreCase := by
    obtain ⟨a', ha', hlower⟩ := mapBuffer_contents ha (f := tolower)
      fun c hmem => tolower_ne_zero fun h0 => ha.noNul (h0 ▸ hmem)
    obtain ⟨b', hb', hlower'⟩ := mapBuffer_contents hb (f := tolower)
      fun c hmem => tolower_ne_zero fun h0 => hb.noNul (h0 ▸ hmem)
    exact ⟨a', b', _, ha', hb', equals_eq hlower hlower', equalsIgnoreCase_eq ha hb hsame⟩

/-- "a", the invalid String and "ab". -/
theorem comparisons_mixed :
    Comparisons ⟨.block [97, 0], 1, 1⟩ init ⟨.block [97, 98, 0], 2, 2⟩ [97] [] [97, 98] false :=
  comparisons (.inr ⟨[], rfl, rfl, rfl, by decide, by decide⟩) init_contents
    (.inr ⟨[], rfl, rfl, rfl, by decide, by decide⟩) false (by decide)

end RasPiArduino.WString
