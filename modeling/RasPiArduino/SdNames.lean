import Mathlib.Data.List.Basic

/-! The names of a FAT directory: eleven bytes, eight for a base and three for an extension, filled
up with spaces. -/
namespace RasPiArduino.Sd

def illegal : List UInt8 :=
  -- | < > ^ + = ? / [ ] ; , * quotation mark, backslash
  [0x7C, 0x3C, 0x3E, 0x5E, 0x2B, 0x3D, 0x3F, 0x2F, 0x5B, 0x5D, 0x3B, 0x2C, 0x2A, 0x22, 0x5C]

def upper (c : UInt8) : UInt8 := if c < 0x61 ∨ c > 0x7A then c else c - 0x20

def make83Loop : List UInt8 → Nat → Nat → List UInt8 → Option (List UInt8)
  | [], _, _, name => some name
  | c :: str, n, i, name =>
    if c = 0x2E then
      -- only one dot allowed
      if n = 10 then none else make83Loop str 10 8 name
    else if c ∈ illegal then none
    else if i > n ∨ c < 0x21 ∨ c > 0x7E then none
    else make83Loop str n (i + 1) (name.set i (upper c))

def make83Name (str : List UInt8) : Option (List UInt8) := do
  let name ← make83Loop (str.takeWhile (· ≠ 0)) 7 0 (List.replicate 11 0x20)
  -- must have a file name, extension is optional
  if name[0]? = some 0x20 then none else some name

def nameByte (c : UInt8) (i : Nat) : List UInt8 :=
  if c = 0x20 then [] else if i = 8 then [0x2E, c] else [c]

def dirName (name : List UInt8) : List UInt8 := name.zipIdx.flatMap fun p => nameByte p.1 p.2

def Legal (c : UInt8) : Prop := c ≠ 0x2E ∧ c ∉ illegal ∧ 0x21 ≤ c ∧ c ≤ 0x7E

instance : DecidablePred Legal := fun _ => inferInstanceAs (Decidable (_ ∧ _ ∧ _ ∧ _))

def Parts (s x y : List UInt8) : Prop := s = x ∧ y = [] ∨ s = x ++ 0x2E :: y

def padded (k : Nat) (xs : List UInt8) : List UInt8 := xs ++ List.replicate (k - xs.length) 0x20

/-- A base and an extension, in capitals. -/
structure ShortName where
  base : List UInt8
  extension : List UInt8
  base_pos : 0 < base.length
  base_le : base.length ≤ 8
  extension_le : extension.length ≤ 3
  capital : ∀ c ∈ base ++ extension, Legal c ∧ upper c = c

def ShortName.field (N : ShortName) : List UInt8 := padded 8 N.base ++ padded 3 N.extension

def ShortName.text (N : ShortName) : List UInt8 :=
  N.base ++ if N.extension = [] then [] else 0x2E :: N.extension

/-- In capitals or not, and without an extension also with a dot behind the base. -/
def ShortName.Spells (N : ShortName) (s : List UInt8) : Prop :=
  Parts (s.map upper) N.base N.extension

variable {s t x y f B : List UInt8} {b e : List UInt8} {c : UInt8} {k i n : Nat}

theorem forall_byte {P : UInt8 → Prop} (h : ∀ n : Fin 256, P (UInt8.ofFin n)) (c : UInt8) : P c :=
  h c.toFin

theorem legal_upper (c : UInt8) : Legal (upper c) ↔ Legal c := by
  refine forall_byte (P := fun c => Legal (upper c) ↔ Legal c) ?_ c
  decide +kernel

theorem upper_upper (c : UInt8) : upper (upper c) = upper c := by
  refine forall_byte (P := fun c => upper (upper c) = upper c) ?_ c
  decide +kernel

theorem upper_eq_dot (c : UInt8) : upper c = 0x2E ↔ c = 0x2E := by
  refine forall_byte (P := fun c => upper c = 0x2E ↔ c = 0x2E) ?_ c
  decide +kernel

theorem Legal.ne_space (h : Legal c) : c ≠ 0x20 := by
  rintro rfl
  exact absurd h (by decide)

theorem length_padded (h : x.length ≤ k) : (padded k x).length = k := by
  simp [padded, Nat.add_sub_cancel' h]

theorem padded_set (c : UInt8) (h : x.length < k) :
    (padded k x).set x.length c = padded k (x ++ [c]) := by
  obtain ⟨m, hm⟩ : ∃ m, k = x.length + (m + 1) := ⟨k - x.length - 1, by omega⟩
  subst hm
  have hrest : x.length + (m + 1) - (x.length + 1) = m := by omega
  simp [padded, List.replicate_succ, List.set_append_right, hrest]

theorem make83Loop_cons (hdot : c ≠ 0x2E) (n i : Nat) (B : List UInt8) :
    make83Loop (c :: s) n i B =
      if Legal c ∧ i ≤ n then make83Loop s n (i + 1) (B.set i (upper c)) else none := by
  have hlegal : Legal c ↔ c ∉ illegal ∧ ¬ c < 0x21 ∧ ¬ c > 0x7E := by
    simp [Legal, hdot, UInt8.not_lt]
  rw [make83Loop, if_neg hdot]
  by_cases hin : c ∈ illegal
  · rw [if_pos hin, if_neg (by simp [hlegal, hin])]
  rw [if_neg hin]
  by_cases hout : i > n ∨ c < 0x21 ∨ c > 0x7E
  · rw [if_pos hout, if_neg]
    rintro ⟨hl, hi⟩
    have hl := hlegal.mp hl
    exact hout.elim (fun h => by omega) fun h => h.elim hl.2.1 hl.2.2
  · have hfit := not_or.mp hout
    rw [if_neg hout, if_pos ⟨hlegal.mpr ⟨hin, not_or.mp hfit.2⟩, Nat.not_lt.mp hfit.1⟩]

theorem make83Loop_extension (hB : B.length = 8) (he : e.length ≤ 3) :
    make83Loop s 10 (8 + e.length) (B ++ padded 3 e) = some f ↔
      (∀ c ∈ s, Legal c) ∧ e.length + s.length ≤ 3 ∧ f = B ++ padded 3 (e ++ s.map upper) := by
  induction s generalizing e with
  | nil => simp [make83Loop, he, eq_comm]
  | cons c s ih =>
    by_cases hdot : c = 0x2E
    · subst hdot
      simp [make83Loop, Legal]
    · rw [make83Loop_cons hdot]
      by_cases hok : Legal c ∧ 8 + e.length ≤ 10
      · have hset : (B ++ padded 3 e).set (8 + e.length) (upper c) =
            B ++ padded 3 (e ++ [upper c]) := by
          rw [List.set_append_right _ _ (by omega), hB, Nat.add_sub_cancel_left,
            padded_set _ (by omega)]
        have hlen : 8 + e.length + 1 = 8 + (e ++ [upper c]).length := by
          rw [List.length_append, List.length_singleton, Nat.add_assoc]
        rw [if_pos hok, hset, hlen, ih (by simp; omega)]
        have hsum : (e ++ [upper c]).length + s.length = e.length + (c :: s).length := by
          simp only [List.length_append, List.length_cons, List.length_nil]
          omega
        rw [hsum, List.forall_mem_cons, List.map_cons, List.append_assoc, List.singleton_append]
        simp only [hok.1, true_and]
      · rw [if_neg hok]
        refine ⟨fun h => by simp at h, fun h => absurd ⟨h.1 c (by simp), ?_⟩ hok⟩
        have := h.2.1
        simp only [List.length_cons] at this
        omega

theorem parts_cons (hdot : c ≠ 0x2E) : Parts (c :: s) x y ↔ ∃ z, x = c :: z ∧ Parts s z y := by
  cases x with
  | nil => simp [Parts, hdot]
  | cons a x =>
    simp only [Parts, List.cons.injEq, List.cons_append]
    constructor
    · rintro (⟨⟨rfl, hs⟩, hy⟩ | ⟨rfl, hs⟩)
      · exact ⟨x, ⟨rfl, rfl⟩, Or.inl ⟨hs, hy⟩⟩
      · exact ⟨x, ⟨rfl, rfl⟩, Or.inr hs⟩
    · rintro ⟨z, ⟨rfl, rfl⟩, ⟨hs, hy⟩ | hs⟩
      · exact Or.inl ⟨⟨rfl, hs⟩, hy⟩
      · exact Or.inr ⟨rfl, hs⟩

theorem parts_dot (hx : ∀ c ∈ x, c ≠ 0x2E) : Parts (0x2E :: s) x y ↔ x = [] ∧ y = s := by
  cases x with
  | nil => simpa [Parts] using eq_comm
  | cons a x =>
    have ha : ¬ 0x2E = a := fun h => hx a (by simp) h.symm
    simp [Parts, ha]

/-- A text of legal characters, with a dot in it or without, has its parts in their places. -/
theorem make83Loop_base (hb : b.length ≤ 8) :
    make83Loop s 7 b.length (padded 8 b ++ padded 3 []) = some f ↔
      ∃ x y, Parts s x y ∧ (∀ c ∈ x ++ y, Legal c) ∧ b.length + x.length ≤ 8 ∧ y.length ≤ 3 ∧
        f = padded 8 (b ++ x.map upper) ++ padded 3 (y.map upper) := by
  induction s generalizing b with
  | nil =>
    simp only [make83Loop, Option.some.injEq]
    constructor
    · rintro rfl
      exact ⟨[], [], Or.inl ⟨rfl, rfl⟩, by simp, by simpa using hb, by simp, by simp⟩
    · rintro ⟨x, y, ⟨rfl, rfl⟩ | hdot, -, -, -, rfl⟩
      · simp
      · simp at hdot
  | cons c s ih =>
    by_cases hdot : c = 0x2E
    · subst hdot
      rw [make83Loop, if_pos rfl, if_neg (by decide), ← Nat.add_zero 8]
      refine (make83Loop_extension (e := []) (length_padded hb) (by simp)).trans
        ⟨fun h => ?_, fun h => ?_⟩
      · obtain ⟨hlegal, hlen, rfl⟩ := h
        exact ⟨[], s, Or.inr rfl, by simpa using hlegal, by simpa using hb, by simpa using hlen,
          by simp⟩
      · obtain ⟨x, y, hparts, hlegal, -, hy, rfl⟩ := h
        have hx : ∀ c ∈ x, c ≠ 0x2E := fun c hc => (hlegal c (List.mem_append_left _ hc)).1
        obtain ⟨rfl, rfl⟩ := (parts_dot hx).mp hparts
        exact ⟨by simpa using hlegal, by simpa using hy, by simp⟩
    · rw [make83Loop_cons hdot]
      by_cases hok : Legal c ∧ b.length ≤ 7
      · have hset : (padded 8 b ++ padded 3 []).set b.length (upper c) =
            padded 8 (b ++ [upper c]) ++ padded 3 [] := by
          rw [List.set_append_left _ _ (by rw [length_padded hb]; omega), padded_set _ (by omega)]
        have hlen (x : List UInt8) :
            (b ++ [upper c]).length + x.length = b.length + (c :: x).length := by
          simp only [List.length_append, List.length_cons, List.length_nil]
          omega
        rw [if_pos hok, hset, show b.length + 1 = (b ++ [upper c]).length by simp,
          ih (by simp; omega)]
        constructor
        · rintro ⟨x, y, hparts, hlegal, hx, hy, rfl⟩
          exact ⟨c :: x, y, (parts_cons hdot).mpr ⟨x, rfl, hparts⟩,
            List.forall_mem_cons.mpr ⟨hok.1, hlegal⟩, hlen x ▸ hx, hy, by simp⟩
        · rintro ⟨x, y, hparts, hlegal, hx, hy, rfl⟩
          obtain ⟨z, rfl, hrest⟩ := (parts_cons hdot).mp hparts
          exact ⟨z, y, hrest, (List.forall_mem_cons.mp hlegal).2, hlen z ▸ hx, hy, by simp⟩
      · rw [if_neg hok]
        refine ⟨fun h => by simp at h, fun h => absurd ?_ hok⟩
        obtain ⟨x, y, hparts, hlegal, hx, -, -⟩ := h
        obtain ⟨x, rfl, -⟩ := (parts_cons hdot).mp hparts
        simp only [List.length_cons] at hx
        exact ⟨hlegal c (by simp), by omega⟩

theorem nameBytes_spaces (n k : Nat) :
    ((List.replicate n 0x20).zipIdx k).flatMap (fun p => nameByte p.1 p.2) = [] := by
  induction n generalizing k with
  | zero => rfl
  | succ n ih =>
    rw [List.replicate_succ, List.zipIdx_cons, List.flatMap_cons, ih]
    rfl

theorem nameBytes_part (hx : ∀ c ∈ x, c ≠ 0x20) (hk : k + x.length ≤ 8 ∨ 8 < k) :
    (x.zipIdx k).flatMap (fun p => nameByte p.1 p.2) = x := by
  induction x generalizing k with
  | nil => rfl
  | cons c x ih =>
    simp only [List.length_cons] at hk
    have hk8 : k ≠ 8 := by omega
    have hc : c ≠ 0x20 := hx c (by simp)
    rw [List.zipIdx_cons, List.flatMap_cons, ih (fun d hd => hx d (by simp [hd])) (by omega)]
    simp [nameByte, hc, hk8]

theorem ShortName.ne_space (N : ShortName) : ∀ c ∈ N.base ++ N.extension, c ≠ 0x20 :=
  fun c hc => (N.capital c hc).1.ne_space

theorem ShortName.dirName_field (N : ShortName) : dirName N.field = N.text := by
  have hbase : ∀ c ∈ N.base, c ≠ 0x20 := fun c hc => N.ne_space c (List.mem_append_left _ hc)
  have hext : ∀ c ∈ N.extension, c ≠ 0x20 := fun c hc => N.ne_space c (List.mem_append_right _ hc)
  unfold dirName ShortName.field ShortName.text
  rw [List.zipIdx_append, List.flatMap_append, length_padded N.base_le]
  unfold padded
  rw [List.zipIdx_append, List.flatMap_append, nameBytes_spaces, List.append_nil,
    nameBytes_part hbase (Or.inl (by simpa using N.base_le)), List.zipIdx_append,
    List.flatMap_append, nameBytes_spaces, List.append_nil]
  congr 1
  cases hx : N.extension with
  | nil => rfl
  | cons c x =>
    rw [hx] at hext
    rw [List.zipIdx_cons, List.flatMap_cons,
      nameBytes_part (fun d hd => hext d (by simp [hd])) (Or.inr (by omega))]
    simp [nameByte, hext c (by simp)]

theorem make83Loop_start (s f : List UInt8) :
    make83Loop s 7 0 (List.replicate 11 0x20) = some f ↔
      ∃ x y, Parts s x y ∧ (∀ c ∈ x ++ y, Legal c) ∧ x.length ≤ 8 ∧ y.length ≤ 3 ∧
        f = padded 8 (x.map upper) ++ padded 3 (y.map upper) := by
  have h := make83Loop_base (s := s) (f := f) (b := []) (Nat.zero_le 8)
  simp only [List.length_nil, Nat.zero_add, List.nil_append] at h
  exact h

theorem padded_head (h : 0 < k) (hx : ∀ c ∈ x, c ≠ 0x20) :
    (padded k x ++ y)[0]? = some 0x20 ↔ x = [] := by
  cases x with
  | nil =>
    obtain ⟨m, rfl⟩ : ∃ m, k = m + 1 := ⟨k - 1, by omega⟩
    simp [padded, List.replicate_succ]
  | cons c x => simp [padded, hx c (by simp)]

theorem parts_of_upper (h : Parts (s.map upper) x y) :
    ∃ a b, Parts s a b ∧ x = a.map upper ∧ y = b.map upper := by
  obtain ⟨rfl, rfl⟩ | h := h
  · exact ⟨s, [], Or.inl ⟨rfl, rfl⟩, rfl, rfl⟩
  · obtain ⟨a, r, rfl, rfl, hr⟩ := List.map_eq_append_iff.mp h
    obtain ⟨d, b, rfl, hd, rfl⟩ := List.map_eq_cons_iff.mp hr
    obtain rfl : d = 0x2E := (upper_eq_dot d).mp hd
    exact ⟨a, b, Or.inr rfl, rfl, rfl⟩

/-- The bytes of a name are found to be those of a text exactly if the text spells the name. -/
theorem make83Name_spells (str f : List UInt8) :
    make83Name str = some f ↔
      ∃ N : ShortName, N.Spells (str.takeWhile (· ≠ 0)) ∧ f = N.field := by
  have hstart := make83Loop_start (str.takeWhile (· ≠ 0))
  have hne (x : List UInt8) (h : ∀ c ∈ x, Legal c) : ∀ c ∈ x.map upper, c ≠ 0x20 := by
    intro c hc
    obtain ⟨a, ha, rfl⟩ := List.mem_map.mp hc
    exact ((legal_upper a).mpr (h a ha)).ne_space
  have hsome : make83Name str = some f ↔
      make83Loop (str.takeWhile (· ≠ 0)) 7 0 (List.replicate 11 0x20) = some f ∧
        f[0]? ≠ some 0x20 := by
    unfold make83Name
    cases hloop : make83Loop (str.takeWhile (· ≠ 0)) 7 0 (List.replicate 11 0x20) with
    | none => simp
    | some g =>
      simp only [Option.bind_eq_bind, Option.bind_some, Option.some.injEq]
      by_cases h0 : g[0]? = some 0x20
      · rw [if_pos h0]
        exact ⟨fun h => by simp at h, fun h => absurd h0 (h.1 ▸ h.2)⟩
      · rw [if_neg h0, Option.some.injEq]
        exact ⟨fun h => ⟨h, h ▸ h0⟩, fun h => h.1⟩
  rw [hsome, hstart]
  constructor
  · rintro ⟨⟨x, y, hparts, hlegal, hx, hy, rfl⟩, h0⟩
    have hbase := hne x fun c hc => hlegal c (List.mem_append_left _ hc)
    rw [Ne, padded_head (by decide) hbase, List.map_eq_nil_iff] at h0
    refine ⟨⟨x.map upper, y.map upper, ?_, ?_, ?_, ?_⟩, ?_, rfl⟩
    · simpa using List.length_pos_iff.mpr h0
    · simpa using hx
    · simpa using hy
    · rw [← List.map_append]
      intro c hc
      obtain ⟨a, ha, rfl⟩ := List.mem_map.mp hc
      exact ⟨(legal_upper a).mpr (hlegal a ha), upper_upper a⟩
    · obtain ⟨hs, rfl⟩ | hs := hparts
      · exact Or.inl ⟨by rw [hs], rfl⟩
      · exact Or.inr (by rw [hs, List.map_append, List.map_cons]; rfl)
  · rintro ⟨N, hspells, rfl⟩
    have hbase : ∀ c ∈ N.base, c ≠ 0x20 := fun c hc => N.ne_space c (List.mem_append_left _ hc)
    obtain ⟨x, y, hparts, hx, hy⟩ := parts_of_upper hspells
    have hcapital := N.capital
    have hlen := N.base_le
    have hlen' := N.extension_le
    rw [hx, hy, ← List.map_append] at hcapital
    rw [hx, List.length_map] at hlen
    rw [hy, List.length_map] at hlen'
    refine ⟨⟨x, y, hparts, fun c hc => ?_, hlen, hlen', by rw [← hx, ← hy]; rfl⟩, ?_⟩
    · exact (legal_upper c).mp (hcapital _ (List.mem_map_of_mem hc)).1
    · rw [Ne, ShortName.field, padded_head (by decide) hbase]
      exact List.length_pos_iff.mp N.base_pos

/-- The bytes of a name are found exactly for the texts that spell it, and its text in capitals is
what they print as. -/
theorem make83Name_iff (str f : List UInt8) :
    make83Name str = some f ↔
      ∃ N : ShortName, N.Spells (str.takeWhile (· ≠ 0)) ∧ f = N.field ∧ dirName f = N.text := by
  rw [make83Name_spells]
  constructor
  · rintro ⟨N, hs, rfl⟩
    exact ⟨N, hs, rfl, N.dirName_field⟩
  · rintro ⟨N, hs, hf, -⟩
    exact ⟨N, hs, hf⟩

end RasPiArduino.Sd
