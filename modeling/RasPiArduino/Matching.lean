import Mathlib.Data.List.Infix

/-! Searching for a word on the fly with one index and no table: what a mismatch makes of the
index, and where the first occurrence is found. -/
namespace RasPiArduino.Matching
variable {α : Type*}

/-- What is behind the first place at which the index is `n`. -/
def hit (step : Nat → α → Nat) (n : Nat) : Nat → List α → Option (List α)
  | _, [] => none
  | i, c :: t => if step i c = n then some t else hit step n (step i c) t

/-- In front of `v` the list falls into pieces: an element that is not the first of `u`, or the
beginning of `u` up to a place where it does not go on. -/
inductive Falls (u v : List α) : List α → Prop where
  | nil : Falls u v []
  | skip {c g} : u.head? ≠ some c → Falls u v g → Falls u v (c :: g)
  | part {i g} : 0 < i → i < u.length → (g ++ v).head? ≠ u[i]? → Falls u v g →
    Falls u v (u.take i ++ g)

/-- The list falls into pieces: the beginning of `u`, and an element with which it does not
go on. -/
inductive Skips (u : List α) : List α → Prop where
  | nil : Skips u []
  | part {i c g} : i < u.length → u[i]? ≠ some c → Skips u g → Skips u (u.take i ++ c :: g)

/-- The index tells how much of `u` has been read last. -/
def Tracks (u : List α) (step : Nat → α → Nat) : Prop :=
  ∀ i c r, i < u.length → u.take i <:+ r →
    step i c ≤ u.length ∧ u.take (step i c) <:+ r ++ [c]

variable {u v w g t r : List α} {c : α} {i n : Nat} {step : Nat → α → Nat}

theorem take_succ_of_getElem? (h : u[i]? = some c) : u.take (i+1) = u.take i ++ [c] := by
  rw [List.take_add_one, h]
  rfl

theorem drop_of_getElem? (h : u[i]? = some c) : u.drop i = c :: u.drop (i+1) := by
  obtain ⟨hlt, hc⟩ := List.getElem?_eq_some_iff.mp h
  rw [List.drop_eq_getElem_cons hlt, hc]

theorem suffix_append_singleton (h : v <:+ r) (c : α) : v ++ [c] <:+ r ++ [c] := by
  obtain ⟨p, rfl⟩ := h
  exact ⟨p, (List.append_assoc p v [c]).symm⟩

theorem tracks_match (h : u[i]? = some c) (hr : u.take i <:+ r) :
    i + 1 ≤ u.length ∧ u.take (i + 1) <:+ r ++ [c] := by
  rw [take_succ_of_getElem? h]
  exact ⟨(List.getElem?_eq_some_iff.mp h).1, suffix_append_singleton hr c⟩

theorem length_lt_of_hit (h : hit step n i t = some w) : w.length < t.length := by
  induction t generalizing i with
  | nil => cases h
  | cons c t ih =>
    rw [hit] at h
    rw [List.length_cons]
    split at h
    · obtain rfl := Option.some.inj h
      omega
    · have hlt := ih h
      omega

/-- A hit is at the end of an occurrence. -/
theorem hit_sound (h : Tracks u step) (hi : i < u.length) (hr : u.take i <:+ r)
    (hw : hit step u.length i t = some w) : ∃ g, t = g ++ w ∧ u <:+ r ++ g := by
  induction t generalizing i r with
  | nil => cases hw
  | cons c t ih =>
    obtain ⟨hle, hsuffix⟩ := h i c r hi hr
    rw [hit] at hw
    split at hw
    · next hlast =>
      obtain rfl := Option.some.inj hw
      rw [hlast, List.take_length] at hsuffix
      exact ⟨[c], rfl, hsuffix⟩
    · next hlast =>
      obtain ⟨g, rfl, hg⟩ := ih (Nat.lt_of_le_of_ne hle hlast) hsuffix hw
      refine ⟨c :: g, rfl, ?_⟩
      rwa [List.append_assoc] at hg

theorem hit_sound_from_start (h : Tracks u step) (hu : u ≠ [])
    (hw : hit step u.length 0 t = some w) : ∃ g, t = g ++ (u ++ w) := by
  obtain ⟨p, rfl, hp⟩ := hit_sound (r := []) h (List.length_pos_iff.mpr hu) List.nil_suffix hw
  obtain ⟨g, rfl⟩ := hp
  exact ⟨g, by simp⟩

/-! Reading the word itself. -/

theorem hit_drop (hstep : ∀ i c, u[i]? = some c → step i c = i + 1) (hi : i < u.length)
    (w : List α) : hit step u.length i (u.drop i ++ w) = some w := by
  induction hn : u.length - i generalizing i with
  | zero => omega
  | succ n ih =>
    have hc : u[i]? = some u[i] := List.getElem?_eq_getElem hi
    rw [drop_of_getElem? hc, List.cons_append, hit, hstep i _ hc]
    split
    · next hlast => rw [hlast, List.drop_length, List.nil_append]
    · next hlast => exact ih (by omega) (by omega)

theorem hit_take (hstep : ∀ i c, u[i]? = some c → step i c = i + 1) (hi : i < u.length)
    (t : List α) : hit step u.length 0 (u.take i ++ t) = hit step u.length i t := by
  induction i generalizing t with
  | zero => rfl
  | succ i ih =>
    have hc : u[i]? = some u[i] := List.getElem?_eq_getElem (by omega)
    rw [take_succ_of_getElem? hc, List.append_assoc, ih (by omega), List.singleton_append, hit,
      hstep i _ hc, if_neg (by omega)]

section Decidable
variable [DecidableEq α]

/-- The index after `c`, where a mismatch is compared once more with the first of the word. -/
def retry (u : List α) (i : Nat) (c : α) : Nat :=
  let i := if u[i]? = some c then i else 0
  if u[i]? = some c then i + 1 else i

def restart (u : List α) (i : Nat) (c : α) : Nat := if u[i]? = some c then i + 1 else 0

theorem retry_match (h : u[i]? = some c) : retry u i c = i + 1 := by
  simp [retry, h]

theorem retry_mismatch (h : u[i]? ≠ some c) : retry u i c = retry u 0 c := by
  simp [retry, h]

theorem retry_zero (h : u[0]? ≠ some c) : retry u 0 c = 0 := by
  simp [retry, h]

theorem restart_match (h : u[i]? = some c) : restart u i c = i + 1 := if_pos h

theorem restart_mismatch (h : u[i]? ≠ some c) : restart u i c = 0 := if_neg h

theorem tracks_restart (u : List α) : Tracks u (restart u) := by
  intro i c r _ hr
  by_cases h : u[i]? = some c
  · rw [restart_match h]
    exact tracks_match h hr
  · rw [restart_mismatch h]
    exact ⟨Nat.zero_le _, List.nil_suffix⟩

theorem tracks_retry (u : List α) : Tracks u (retry u) := by
  intro i c r _ hr
  by_cases h : u[i]? = some c
  · rw [retry_match h]
    exact tracks_match h hr
  · rw [retry_mismatch h]
    by_cases h0 : u[0]? = some c
    · rw [retry_match h0]
      exact tracks_match h0 List.nil_suffix
    · rw [retry_zero h0]
      exact ⟨Nat.zero_le _, List.nil_suffix⟩

/-! The index that is tried again. -/

theorem hit_retry_mismatch (h : t.head? ≠ u[i]?) (ht : t ≠ []) :
    hit (retry u) n i t = hit (retry u) n 0 t := by
  cases t with
  | nil => exact absurd rfl ht
  | cons c t => rw [hit, hit, retry_mismatch (fun he => h he.symm)]

/-- A hit comes without a mismatch, or after the length of the word, and later if the first
element was no mismatch. -/
theorem hit_retry_cases (hi : i < u.length) (h : hit (retry u) u.length i t = some w) :
    t = u.drop i ++ w ∨ t.head? ≠ u[i]? ∧ w.length + u.length ≤ t.length ∨
      w.length + u.length < t.length := by
  induction t generalizing i with
  | nil => cases h
  | cons c t ih =>
    rw [hit] at h
    by_cases hc : u[i]? = some c
    · rw [retry_match hc] at h
      rw [drop_of_getElem? hc, List.length_cons]
      split at h
      · next hlast =>
        obtain rfl := Option.some.inj h
        exact .inl (by rw [hlast, List.drop_length]; rfl)
      · next hlast =>
        obtain rfl | hrest := ih (by omega) h
        · exact .inl rfl
        · omega
    · have hfirst : (c :: t).head? ≠ u[i]? := fun he => hc he.symm
      rw [retry_mismatch hc] at h
      rw [List.length_cons]
      by_cases h0 : u[0]? = some c
      · rw [retry_match h0] at h
        split at h
        · next hlast =>
          obtain rfl := Option.some.inj h
          exact .inr (.inl ⟨hfirst, by omega⟩)
        · next hlast =>
          obtain rfl | hrest := ih (by omega) h
          · refine .inr (.inl ⟨hfirst, ?_⟩)
            rw [List.length_append, List.length_drop]
            omega
          · omega
      · rw [retry_zero h0, if_neg (by omega)] at h
        obtain rfl | hrest := ih (by omega) h
        · rw [List.drop_zero, List.length_append]
          omega
        · omega

theorem hit_of_falls (h : Falls u (u ++ w) g) (hu : u ≠ []) :
    hit (retry u) u.length 0 (g ++ (u ++ w)) = some w := by
  have hpos := List.length_pos_iff.mpr hu
  induction h with
  | nil => exact hit_drop (fun i c => retry_match) hpos w
  | skip hc _ ih =>
    rw [List.head?_eq_getElem?] at hc
    rw [List.cons_append, hit, retry_zero hc, if_neg (by omega), ih]
  | part _ hi hnext _ ih =>
    rw [List.append_assoc, hit_take (fun i c => retry_match) hi, hit_retry_mismatch hnext, ih]
    simp [hu]

theorem falls_of_hit (hi : i < u.length)
    (h : hit (retry u) u.length i (g ++ (u ++ w)) = some w) : Falls u (u ++ w) (u.take i ++ g) := by
  induction g generalizing i with
  | nil =>
    rw [List.nil_append] at h
    rw [List.append_nil]
    cases i with
    | zero => exact .nil
    | succ i =>
      have hlen : (u ++ w).length = u.length + w.length := List.length_append
      have hnext : ([] ++ (u ++ w)).head? ≠ u[i+1]? := by
        obtain hstraight | hrest := hit_retry_cases hi h
        · have hl := congrArg List.length hstraight
          rw [hlen, List.length_append, List.length_drop] at hl
          omega
        · obtain hrest | hrest := hrest
          · exact hrest.1
          · omega
      have hpart := Falls.part (Nat.succ_pos i) hi hnext .nil
      rwa [List.append_nil] at hpart
  | cons c g ih =>
    have hlen : (g ++ (u ++ w)).length = g.length + (u.length + w.length) := by
      rw [List.length_append, List.length_append]
    rw [List.cons_append, hit] at h
    by_cases hc : u[i]? = some c
    · rw [retry_match hc] at h
      split at h
      · have hl := congrArg List.length (Option.some.inj h)
        omega
      · next hlast =>
        have hrest := ih (by omega) h
        rwa [take_succ_of_getElem? hc, List.append_assoc] at hrest
    · -- from here on it is as if the index were 0
      rw [retry_mismatch hc] at h
      have hrest : Falls u (u ++ w) (c :: g) := by
        by_cases h0 : u[0]? = some c
        · rw [retry_match h0] at h
          split at h
          · have hl := congrArg List.length (Option.some.inj h)
            omega
          · next hlast =>
            have hrest := ih (by omega) h
            rwa [take_succ_of_getElem? h0] at hrest
        · rw [retry_zero h0, if_neg (by omega)] at h
          rw [← List.head?_eq_getElem?] at h0
          exact .skip h0 (ih (by omega) h)
      cases i with
      | zero => exact hrest
      | succ i => exact .part (Nat.succ_pos i) hi (fun he => hc he.symm) hrest

theorem hit_retry_iff (hu : u ≠ []) :
    hit (retry u) u.length 0 (g ++ (u ++ w)) = some w ↔ Falls u (u ++ w) g :=
  ⟨falls_of_hit (List.length_pos_iff.mpr hu), fun h => hit_of_falls h hu⟩

/-! The index that begins again. -/

theorem hit_restart_cases (hi : i < u.length) (h : hit (restart u) u.length i t = some w) :
    t = u.drop i ++ w ∨ w.length + u.length < t.length := by
  induction t generalizing i with
  | nil => cases h
  | cons c t ih =>
    rw [hit] at h
    by_cases hc : u[i]? = some c
    · rw [restart_match hc] at h
      rw [drop_of_getElem? hc, List.length_cons]
      split at h
      · next hlast =>
        obtain rfl := Option.some.inj h
        exact .inl (by rw [hlast, List.drop_length]; rfl)
      · next hlast =>
        obtain rfl | hrest := ih (by omega) h
        · exact .inl rfl
        · omega
    · rw [restart_mismatch hc, if_neg (by omega)] at h
      rw [List.length_cons]
      obtain rfl | hrest := ih (by omega) h
      · rw [List.drop_zero, List.length_append]
        omega
      · omega

theorem hit_of_skips (h : Skips u g) (hu : u ≠ []) (w : List α) :
    hit (restart u) u.length 0 (g ++ (u ++ w)) = some w := by
  have hpos := List.length_pos_iff.mpr hu
  induction h with
  | nil => exact hit_drop (fun i c => restart_match) hpos w
  | part hi hc _ ih =>
    rw [List.append_assoc, hit_take (fun i c => restart_match) hi, List.cons_append, hit,
      restart_mismatch hc, if_neg (by omega), ih]

theorem skips_of_hit (hi : i < u.length)
    (h : hit (restart u) u.length i (g ++ (u ++ w)) = some w) : Skips u (u.take i ++ g) := by
  induction g generalizing i with
  | nil =>
    have hlen : (u ++ w).length = u.length + w.length := List.length_append
    rw [List.nil_append] at h
    have hzero : i = 0 := by
      obtain hstraight | hrest := hit_restart_cases hi h
      · have hl := congrArg List.length hstraight
        rw [hlen, List.length_append, List.length_drop] at hl
        omega
      · omega
    subst hzero
    exact .nil
  | cons c g ih =>
    rw [List.cons_append, hit] at h
    by_cases hc : u[i]? = some c
    · rw [restart_match hc] at h
      split at h
      · have hl := congrArg List.length (Option.some.inj h)
        rw [List.length_append, List.length_append] at hl
        omega
      · next hlast =>
        have hrest := ih (by omega) h
        rwa [take_succ_of_getElem? hc, List.append_assoc] at hrest
    · rw [restart_mismatch hc, if_neg (by omega)] at h
      exact .part hi hc (ih (by omega) h)

theorem hit_restart_iff (hu : u ≠ []) :
    hit (restart u) u.length 0 (g ++ (u ++ w)) = some w ↔ Skips u g :=
  ⟨skips_of_hit (List.length_pos_iff.mpr hu), fun h => hit_of_skips h hu w⟩

end Decidable

end RasPiArduino.Matching
