import RasPiArduino.WStringSpec

/-! startsWith() and endsWith(): a bound that wraps when the prefix is longer. -/
namespace RasPiArduino.WString
open CMemory

/-- What the three calls owe for Strings of the chars `t` and `u`. -/
structure Compares (s s2 : WString) (t u : List UInt8) (offset : Nat) : Prop where
  startsAt : ∃ r, s.startsWithAt s2 offset = .ok r ∧
    (r = true ↔ offset + u.length ≤ t.length ∧ (t.drop offset).take u.length = u)
  starts : s.startsWith s2 = s.startsWithAt s2 0
  ends : ∃ r, s.endsWith s2 = .ok r ∧ (r = true ↔ u <:+ t)

/-- `u` is no longer than `t`, or the offset is in `t`, or it is above the bound that has
wrapped, or what the block `b` of `t` holds from there on is different from `u`. -/
def Bounded (b t u : List UInt8) (offset : Nat) : Prop :=
  u.length ≤ t.length ∨ offset ≤ t.length ∨ 2^32 + t.length < offset + u.length ∨
    Differs (b.drop offset) u

variable {s s2 : WString} {t u rest rest2 : List UInt8} {offset : Nat}

theorem startsWithAt_eq (hs : Holds s t rest) (h2 : Holds s2 u rest2) (offset : Nat) :
    s.startsWithAt s2 offset = if offset > minus t.length u.length then .ok false
      else (strncmp u.length ((t ++ 0 :: rest).drop offset) (u ++ 0 :: rest2)).map (· == 0) := by
  simp only [startsWithAt, hs.buffer, h2.buffer, hs.len, h2.len, reduceCtorEq, or_false,
    Buffer.bytes, ok_bind]
  split
  · rfl
  · cases strncmp u.length ((t ++ 0 :: rest).drop offset) (u ++ 0 :: rest2) <;> rfl

theorem prefix_or_differs_of_le (hu : 0 ∉ u) (h : offset ≤ t.length) (rest : List UInt8) :
    u <+: t.drop offset ∨ Differs ((t ++ 0 :: rest).drop offset) u := by
  rw [List.drop_append_of_le_length h]
  generalize t.drop offset = v
  induction u generalizing v with
  | nil => exact .inl List.nil_prefix
  | cons y u ih =>
    have hy : (0 : UInt8) ≠ y := fun he => hu (he ▸ List.mem_cons_self)
    cases v with
    | nil => exact .inr (differs_cons.mpr (.inl hy))
    | cons x v =>
      by_cases hxy : x = y
      · subst hxy
        simpa [List.cons_prefix_cons, differs_cons] using
          ih (fun hm => hu (List.mem_cons_of_mem x hm)) v
      · exact .inr (differs_cons.mpr (.inl hxy))

theorem differs_comm {v w : List UInt8} : Differs v w ↔ Differs w v := by
  constructor <;> exact fun ⟨i, x, y, hx, hy, hne⟩ => ⟨i, y, x, hy, hx, hne.symm⟩

theorem not_prefix_of_differs {v w : List UInt8} (h : Differs v w) : ¬ w <+: v := by
  intro hp
  obtain ⟨i, x, y, hx, hy, hne⟩ := h
  obtain ⟨z, rfl⟩ := hp
  obtain ⟨hlt, -⟩ := List.getElem?_eq_some_iff.mp hy
  rw [List.getElem?_append_left hlt, hy] at hx
  exact hne (Option.some.inj hx).symm

theorem strncmp_cases (hu : 0 ∉ u) (v rest2 : List UInt8) :
    (u <+: v ∧ strncmp u.length v (u ++ 0 :: rest2) = .ok 0) ∨
      (Differs v u ∧ ∃ r, strncmp u.length v (u ++ 0 :: rest2) = .ok r ∧ r ≠ 0) ∨
      (¬ Differs v u ∧ strncmp u.length v (u ++ 0 :: rest2) = .error .outside) := by
  cases prefix_or_differs v u with
  | inl hp =>
    obtain ⟨w, rfl⟩ := hp
    exact .inl ⟨List.prefix_append u w, strncmp_prefix hu w _⟩
  | inr h =>
    cases h with
    | inl hd => exact .inr (.inl ⟨hd, strncmp_differs hu hd _⟩)
    | inr hp =>
      refine .inr (.inr ⟨fun hd => ?_, strncmp_outside hu hp.1 hp.2 _⟩)
      exact not_prefix_of_differs (differs_comm.mp hd) hp.1

theorem take_eq_iff_prefix {v : List UInt8} : v.take u.length = u ↔ u <+: v :=
  ⟨fun h => h ▸ List.take_prefix _ _, fun h => (List.prefix_iff_eq_take.mp h).symm⟩

/-- The call with an offset is right exactly under the condition. -/
theorem startsWithAt_iff (hs : Holds s t rest) (h2 : Holds s2 u rest2) (offset : Nat) :
    (∃ r, s.startsWithAt s2 offset = .ok r ∧
      (r = true ↔ offset + u.length ≤ t.length ∧ (t.drop offset).take u.length = u)) ↔
      Bounded (t ++ 0 :: rest) t u offset := by
  have ht32 := hs.contents.length_fits
  have hu32 := h2.contents.length_fits
  have hin (h : offset ≤ t.length) (hp : u <+: t.drop offset) :
      u <+: (t ++ 0 :: rest).drop offset := by
    rw [List.drop_append_of_le_length h]
    exact hp.trans (List.prefix_append _ _)
  rw [startsWithAt_eq hs h2, take_eq_iff_prefix]
  by_cases hle : u.length ≤ t.length
  · apply iff_of_true _ (.inl hle)
    rw [minus_of_le hle (by omega)]
    split
    · exact ⟨false, rfl, by simp; omega⟩
    · next hoff =>
      have hofft : offset ≤ t.length := by omega
      cases prefix_or_differs_of_le h2.noNul hofft rest with
      | inl hp =>
        obtain ⟨w, hw⟩ := hin hofft hp
        rw [← hw, strncmp_prefix h2.noNul]
        exact ⟨true, rfl, by simp [hp]; omega⟩
      | inr hd =>
        obtain ⟨r, hr, hne⟩ := strncmp_differs h2.noNul hd (0 :: rest2)
        refine ⟨false, by simp [hr, Except.map, hne], iff_of_false (by simp) ?_⟩
        intro h
        exact not_prefix_of_differs hd (hin hofft h.2)
  · rw [minus_of_lt (by omega) (by omega)]
    split
    · exact iff_of_true ⟨false, rfl, by simp; omega⟩ (by unfold Bounded; omega)
    · next hoff =>
      have hcond : Bounded (t ++ 0 :: rest) t u offset ↔
          Differs ((t ++ 0 :: rest).drop offset) u := by
        constructor
        · intro h
          obtain h | h | h | h := h
          · omega
          · apply (prefix_or_differs_of_le h2.noNul h rest).resolve_left
            intro hp
            have := hp.length_le
            rw [List.length_drop] at this
            omega
          · omega
          · exact h
        · exact fun h => .inr (.inr (.inr h))
      rw [hcond]
      obtain ⟨hp, hr⟩ | ⟨hd, r, hr, hne⟩ | ⟨hd, hr⟩ :=
        strncmp_cases h2.noNul ((t ++ 0 :: rest).drop offset) rest2
      · apply iff_of_false
        · intro ⟨r, he, hiff⟩
          rw [hr] at he
          obtain rfl : true = r := Except.ok.inj he
          have := (hiff.mp rfl).1
          omega
        · exact fun hd => not_prefix_of_differs hd hp
      · exact iff_of_true ⟨false, by simp [hr, Except.map, hne], by simp; omega⟩ hd
      · apply iff_of_false _ hd
        intro ⟨r, he, _⟩
        rw [hr] at he
        cases he

theorem startsWith_eq (hs : Holds s t rest) (h2 : Holds s2 u rest2) :
    s.startsWith s2 = s.startsWithAt s2 0 := by
  rw [startsWith, hs.len, h2.len]
  split
  · next hlt =>
    obtain ⟨r, hr, hiff⟩ := (startsWithAt_iff hs h2 0).mpr (.inr (.inl (Nat.zero_le _)))
    cases r with
    | true =>
      have := (hiff.mp rfl).1
      omega
    | false => exact hr.symm
  · rfl

theorem endsWith_eq (hs : Holds s t rest) (h2 : Holds s2 u rest2) :
    ∃ r, s.endsWith s2 = .ok r ∧ (r = true ↔ u <:+ t) := by
  have ht32 := hs.contents.length_fits
  simp only [endsWith, hs.buffer, h2.buffer, hs.len, h2.len, reduceCtorEq, or_false,
    Buffer.bytes, ok_bind]
  split
  · next hlt =>
    refine ⟨false, rfl, iff_of_false (by simp) fun h => ?_⟩
    have := h.length_le
    omega
  · next hle =>
    rw [minus_of_le (by omega) (by omega), List.drop_append_of_le_length (by omega)]
    have hv : 0 ∉ t.drop (t.length - u.length) := fun h => hs.noNul (List.mem_of_mem_drop h)
    obtain ⟨r, hr, hiff⟩ := strcmp_eq hv h2.noNul rest rest2
    rw [hr]
    refine ⟨r == 0, rfl, ?_⟩
    rw [beq_iff_eq, hiff, eq_comm, List.suffix_iff_eq_drop]

/-- For Strings with a buffer the three calls answer as they should, inside the two blocks,
exactly if the offset is bounded where the prefix is longer than the String. -/
theorem compares_iff (hs : Holds s t rest) (h2 : Holds s2 u rest2) (offset : UInt32) :
    Compares s s2 t u offset.toNat ↔ Bounded (t ++ 0 :: rest) t u offset.toNat := by
  constructor
  · exact fun h => (startsWithAt_iff hs h2 _).mp h.startsAt
  · exact fun h => ⟨(startsWithAt_iff hs h2 _).mpr h, startsWith_eq hs h2, endsWith_eq hs h2⟩

/-- startsWith("bc", 1) on "abc". -/
theorem compares_iff_inside :
    Compares ⟨.block [97, 98, 99, 0], 3, 3⟩ ⟨.block [98, 99, 0], 2, 2⟩ [97, 98, 99] [98, 99] 1 := by
  have hs : Holds ⟨.block [97, 98, 99, 0], 3, 3⟩ [97, 98, 99] [] :=
    ⟨rfl, rfl, rfl, by decide, by decide⟩
  have h2 : Holds ⟨.block [98, 99, 0], 2, 2⟩ [98, 99] [] := ⟨rfl, rfl, rfl, by decide, by decide⟩
  apply (compares_iff hs h2 1).mpr
  exact .inl (by decide)

/-- startsWith("bc", 5) on "a", in a block of two bytes. -/
theorem long_prefix_read_outside : ¬ ∀ s s2 t u rest rest2 (offset : UInt32), Holds s t rest →
    Holds s2 u rest2 → Compares s s2 t u offset.toNat := by
  intro h
  obtain ⟨r, hr, -⟩ := (h ⟨.block [97, 0], 1, 1⟩ ⟨.block [98, 99, 0], 2, 2⟩ [97] [98, 99] [] [] 5
    ⟨rfl, rfl, rfl, by decide, by decide⟩ ⟨rfl, rfl, rfl, by decide, by decide⟩).startsAt
  have he : startsWithAt ⟨.block [97, 0], 1, 1⟩ ⟨.block [98, 99, 0], 2, 2⟩ 5 = .error .outside := by
    decide
  cases he.symm.trans hr

end RasPiArduino.WString
