import Mathlib.Data.List.Infix

/-! Replacing the occurrences of a word in a list: from the left, without overlaps, and from
the right in place, where what was inserted is searched again. -/
namespace RasPiArduino.Rewriting
variable {α : Type*}

def join (x g : List α) (gs : List (List α)) : List α := g ++ gs.flatMap (x ++ ·)

/-- No occurrence of `f` in `g ++ v` starts inside `g`. -/
def Quiet (f v : List α) : List α → Prop
  | [] => True
  | c :: g => ¬ f <+: c :: (g ++ v) ∧ Quiet f v g

/-- An occurrence of `f` in `a ++ v` that starts at `p`, inside `a`, and none behind it. -/
def LastAt (f v a : List α) (p : Nat) : Prop :=
  p < a.length ∧ f <+: a.drop p ++ v ∧ Quiet f v (a.drop (p + 1))

/-- No end of `f` but itself begins `r`. -/
def Unlinked (f r : List α) : Prop := ∀ y, y ≠ [] → y <:+ f → y ≠ f → ¬ y <+: r

section Decidable
variable [DecidableEq α]

instance Quiet.decidable (f v : List α) : ∀ g, Decidable (Quiet f v g)
  | [] => isTrue trivial
  | c :: g => @instDecidableAnd _ _ (inferInstanceAs (Decidable (¬ f <+: c :: (g ++ v))))
    (Quiet.decidable f v g)

/-- The gaps between the occurrences of `f` that are met from the left, behind `n` places to
skip. -/
def cut (f : List α) : Nat → List α → List α × List (List α)
  | _, [] => ([], [])
  | n+1, _ :: t => cut f n t
  | 0, c :: t =>
    if f <+: c :: t then ([], (cut f (f.length - 1) t).1 :: (cut f (f.length - 1) t).2)
    else (c :: (cut f 0 t).1, (cut f 0 t).2)

def replaceAll (f r t : List α) : List α := join r (cut f 0 t).1 (cut f 0 t).2

def occurrences (f t : List α) : Nat := (cut f 0 t).2.length

/-- From the right: wherever `f` begins in what there is by now, it is replaced. -/
def rewrite (f r : List α) : List α → List α
  | [] => []
  | c :: t =>
    let v := c :: rewrite f r t
    if f <+: v then r ++ v.drop f.length else v

def rewrites (f r : List α) : List α → Nat
  | [] => 0
  | c :: t => rewrites f r t + if f <+: c :: rewrite f r t then 1 else 0

/-- Between the gaps `f` is met nowhere but at the words, with the replacement `r` for each
word behind. -/
def Apart (f r : List α) : List α → List (List α) → Prop
  | g, [] => ¬ f <:+: g
  | g, g' :: gs => ¬ f <:+: g ++ r.take (f.length - 1) ∧ Apart f r (f.tail ++ g') gs

instance Apart.decidable (f r : List α) : ∀ g gs, Decidable (Apart f r g gs)
  | g, [] => inferInstanceAs (Decidable (¬ f <:+: g))
  | g, g' :: gs =>
    @instDecidableAnd _ _ (inferInstanceAs (Decidable (¬ f <:+: g ++ r.take (f.length - 1))))
      (Apart.decidable f r (f.tail ++ g') gs)

end Decidable

variable {f r t v w x y g a : List α} {c : α} {n p : Nat} {gs : List (List α)}

@[simp] theorem join_nil (x g : List α) : join x g [] = g := by simp [join]

@[simp] theorem join_cons (x g g' : List α) (gs : List (List α)) :
    join x g (g' :: gs) = g ++ (x ++ join x g' gs) := by simp [join]

theorem join_append (x a g : List α) (gs : List (List α)) :
    join x (a ++ g) gs = a ++ join x g gs := by simp [join]

theorem length_join (x y g : List α) (gs : List (List α)) :
    (join y g gs).length + gs.length * x.length = (join x g gs).length + gs.length * y.length := by
  induction gs generalizing g with
  | nil => simp
  | cons g' gs ih =>
    have hrest := ih g'
    simp only [join_cons, List.length_append, List.length_cons, Nat.add_mul, Nat.one_mul]
    omega

theorem quiet_append : Quiet f v (x ++ y) ↔ Quiet f (y ++ v) x ∧ Quiet f v y := by
  induction x with
  | nil => simp [Quiet]
  | cons c x ih => simp [Quiet, ih, and_assoc]

theorem prefix_append_take (h : f.length ≤ y.length + n) :
    f <+: y ++ v ↔ f <+: y ++ v.take n := by
  constructor
  · intro hf
    have hp : f <+: (y ++ v).take (y.length + n) := List.prefix_take_iff.mpr ⟨hf, h⟩
    rwa [List.take_length_add_append] at hp
  · intro hf
    exact hf.trans (List.prefix_append_right_inj y |>.mpr (List.take_prefix n v))

theorem quiet_take (h : f.length ≤ n + 1) : Quiet f v g ↔ Quiet f (v.take n) g := by
  induction g with
  | nil => exact Iff.rfl
  | cons c g ih =>
    have hp := prefix_append_take (f := f) (y := c :: g) (n := n) (v := v) (by
      rw [List.length_cons]
      omega)
    rw [Quiet, Quiet, ih, ← List.cons_append, ← List.cons_append, hp]

theorem quiet_nil_iff (hf : f ≠ []) : Quiet f [] g ↔ ¬ f <:+: g := by
  induction g with
  | nil => simp [Quiet, hf]
  | cons c g ih => simp [Quiet, ih, List.infix_cons_iff, not_or]

theorem quiet_of_short (h : g.length + v.length < f.length) : Quiet f v g := by
  induction g with
  | nil => trivial
  | cons c g ih =>
    rw [List.length_cons] at h
    refine ⟨fun hp => ?_, ih (by omega)⟩
    have hle := hp.length_le
    simp only [List.length_cons, List.length_append] at hle
    omega

theorem quiet_iff_first_places (hf : f ≠ []) (v g : List α) :
    Quiet f v g ↔ ¬ f <:+: g ++ v.take (f.length - 1) := by
  have hpos := List.length_pos_iff.mpr hf
  rw [← quiet_nil_iff hf, quiet_append, List.append_nil, ← quiet_take (by omega)]
  apply (and_iff_left _).symm
  apply quiet_of_short
  rw [List.length_take, List.length_nil]
  omega

theorem quiet_iff_drop : Quiet f v g ↔ ∀ i < g.length, ¬ f <+: g.drop i ++ v := by
  induction g with
  | nil => simp [Quiet]
  | cons c g ih =>
    rw [Quiet, ih]
    constructor
    · intro ⟨h0, h⟩ i hi
      cases i with
      | zero => exact h0
      | succ i => exact h i (by simpa using hi)
    · intro h
      exact ⟨h 0 (by simp), fun i hi => h (i + 1) (by simpa using hi)⟩

theorem quiet_or_lastAt (f v a : List α) : Quiet f v a ∨ ∃ p, LastAt f v a p := by
  induction a with
  | nil => exact .inl trivial
  | cons c a ih =>
    cases ih with
    | inl hq =>
      by_cases h : f <+: c :: (a ++ v)
      · exact .inr ⟨0, by simp, h, hq⟩
      · exact .inl ⟨h, hq⟩
    | inr h =>
      obtain ⟨p, hp, hf, hq⟩ := h
      exact .inr ⟨p + 1, by simpa using hp, hf, hq⟩

theorem LastAt.not_quiet (h : LastAt f v a p) : ¬ Quiet f v a :=
  fun hq => quiet_iff_drop.mp hq p h.1 h.2.1

theorem LastAt.le {q : Nat} (h : LastAt f v a p) (h' : LastAt f v a q) : q ≤ p := by
  by_contra hlt
  have hmatch := h'.2.1
  obtain ⟨i, rfl⟩ : ∃ i, q = p + 1 + i := ⟨q - (p + 1), by omega⟩
  rw [← List.drop_drop] at hmatch
  apply quiet_iff_drop.mp h.2.2 i _ hmatch
  rw [List.length_drop]
  have hq := h'.1
  omega

theorem LastAt.unique {q : Nat} (h : LastAt f v a p) (h' : LastAt f v a q) : q = p :=
  Nat.le_antisymm (h.le h') (h'.le h)

theorem LastAt.append (h : LastAt f v a p) (x : List α) : LastAt f v (x ++ a) (x.length + p) := by
  obtain ⟨hp, hf, hq⟩ := h
  refine ⟨?_, ?_, ?_⟩
  · rw [List.length_append]
    omega
  · rwa [← List.drop_drop, List.drop_left]
  · rwa [Nat.add_assoc, ← List.drop_drop, List.drop_left]

theorem LastAt.split (h : LastAt f v a p) :
    a ++ v = a.take p ++ (f ++ (a.drop p ++ v).drop f.length) ∧ (a.take p).length = p := by
  obtain ⟨hp, ⟨u, hu⟩, -⟩ := h
  refine ⟨?_, List.length_take_of_le hp.le⟩
  rw [← hu, List.drop_left, hu, ← List.append_assoc, List.take_append_drop]

/-- Where a word is its own beginning `e` places on, and a list that begins with `r` as well as
with those places and `r`, the word is a prefix of `r`. -/
theorem prefix_of_period {e : Nat} {b : List α} (he : 0 < e) (hper : f.drop e <+: f)
    (hle : f.length ≤ r.length) (h : f.take e ++ (r ++ x) = r ++ b) : f <+: r := by
  have hall : ∀ j ≤ f.length, f.take j <+: r := by
    intro j
    induction j using Nat.strongRecOn with
    | _ j ih =>
      intro hj
      have hshort : (f.take j).length ≤ r.length := by
        rw [List.length_take]
        omega
      apply List.prefix_of_prefix_length_le _ (List.prefix_append r b) hshort
      rw [← h]
      by_cases hje : j ≤ e
      · exact (List.take_prefix_take_left hje).trans (List.prefix_append _ _)
      · obtain ⟨w, hw⟩ := hper
        have hback : (f.drop e).take (j - e) = f.take (j - e) := by
          rw [← congrArg (List.take (j - e)) hw]
          apply (List.take_append_of_le_length _).symm
          rw [List.length_drop]
          omega
        have hsplit : f.take j = f.take e ++ f.take (j - e) := by
          rw [← hback, ← List.take_add, Nat.add_sub_cancel' (by omega)]
        rw [hsplit]
        apply (List.prefix_append_right_inj _).mpr
        exact (ih (j - e) (by omega) (by omega)).trans (List.prefix_append r x)
  have hf := hall f.length (Nat.le_refl _)
  rwa [List.take_length] at hf

theorem quiet_insert (hf : f ≠ []) (hle : f.length ≤ r.length) (v g : List α) :
    Quiet f (r ++ v) g ↔ ¬ f <:+: g ++ r.take (f.length - 1) := by
  rw [quiet_iff_first_places hf, List.take_append_of_le_length (by omega)]

theorem Unlinked.prefix_of_append (h : Unlinked f r) (hle : f.length ≤ r.length) (ha : a ≠ [])
    (hp : f <+: a ++ (r ++ v)) : f <+: a := by
  by_cases hshort : f.length ≤ a.length
  · exact List.prefix_of_prefix_length_le hp (List.prefix_append _ _) hshort
  · exfalso
    have hpos := List.length_pos_iff.mpr ha
    obtain ⟨y, rfl⟩ := List.prefix_of_prefix_length_le (List.prefix_append a (r ++ v)) hp (by omega)
    rw [List.length_append] at hle hshort
    have hy : y <+: r ++ v := (List.prefix_append_right_inj a).mp hp
    apply h y _ (List.suffix_append a y) _
      (List.prefix_of_prefix_length_le hy (List.prefix_append r v) (by omega))
    · exact fun h0 => hshort (by rw [h0, List.length_nil]; omega)
    · intro hself
      have hlen := congrArg List.length hself
      rw [List.length_append] at hlen
      omega

section Words
variable [DecidableEq α]

/-! From the left. -/

theorem cut_drop (f : List α) (n : Nat) (t : List α) : cut f n t = cut f 0 (t.drop n) := by
  induction n generalizing t with
  | zero => rfl
  | succ n ih =>
    cases t with
    | nil => rw [List.drop_nil]; rfl
    | cons c t => exact ih t

theorem cut_word (hf : f ≠ []) (w : List α) :
    cut f 0 (f ++ w) = ([], (cut f 0 w).1 :: (cut f 0 w).2) := by
  obtain ⟨c, f, rfl⟩ := List.exists_cons_of_ne_nil hf
  have hp : c :: f <+: c :: (f ++ w) := List.prefix_append (c :: f) w
  rw [List.cons_append, cut, if_pos hp, cut_drop]
  simp

theorem cut_quiet (h : Quiet f v g) :
    cut f 0 (g ++ v) = (g ++ (cut f 0 v).1, (cut f 0 v).2) := by
  induction g with
  | nil => rfl
  | cons c g ih =>
    rw [List.cons_append, cut, if_neg h.1, ih h.2]
    rfl

theorem cut_first (hf : f ≠ []) (h : Quiet f (f ++ w) g) :
    cut f 0 (g ++ (f ++ w)) = (g, (cut f 0 w).1 :: (cut f 0 w).2) := by
  rw [cut_quiet h, cut_word hf, List.append_nil]

theorem cut_none (h : Quiet f [] t) : cut f 0 t = (t, []) := by
  have hcut := cut_quiet h
  rw [List.append_nil] at hcut
  rw [hcut]
  simp [cut]

@[simp] theorem occurrences_nil (f : List α) : occurrences f [] = 0 := rfl

theorem replaceAll_first (hf : f ≠ []) (h : Quiet f (f ++ w) g) (r : List α) :
    replaceAll f r (g ++ (f ++ w)) = g ++ (r ++ replaceAll f r w) := by
  rw [replaceAll, cut_first hf h, join_cons]
  rfl

theorem replaceAll_none (h : Quiet f [] t) (r : List α) : replaceAll f r t = t := by
  rw [replaceAll, cut_none h, join_nil]

theorem occurrences_first (hf : f ≠ []) (h : Quiet f (f ++ w) g) :
    occurrences f (g ++ (f ++ w)) = occurrences f w + 1 := by
  rw [occurrences, cut_first hf h]
  rfl

theorem occurrences_none (h : Quiet f [] t) : occurrences f t = 0 := by
  rw [occurrences, cut_none h]
  rfl

theorem quiet_or_first (f t : List α) :
    Quiet f [] t ∨ ∃ g w, t = g ++ (f ++ w) ∧ Quiet f (f ++ w) g := by
  induction t with
  | nil => exact .inl trivial
  | cons c t ih =>
    by_cases h : f <+: c :: t
    · obtain ⟨w, hw⟩ := h
      exact .inr ⟨[], w, hw.symm, trivial⟩
    · cases ih with
      | inl hq => exact .inl ⟨by simpa using h, hq⟩
      | inr ih =>
        obtain ⟨g, w, rfl, hq⟩ := ih
        exact .inr ⟨c :: g, w, rfl, h, hq⟩

theorem join_cut (hf : f ≠ []) (t : List α) : join f (cut f 0 t).1 (cut f 0 t).2 = t := by
  induction hn : t.length using Nat.strongRecOn generalizing t with
  | _ n ih =>
    cases quiet_or_first f t with
    | inl h => rw [cut_none h, join_nil]
    | inr h =>
      obtain ⟨g, w, rfl, hq⟩ := h
      have hpos := List.length_pos_iff.mpr hf
      have hlt : w.length < n := by
        rw [← hn, List.length_append, List.length_append]
        omega
      rw [cut_first hf hq, join_cons, ih w.length hlt w rfl]

theorem length_replaceAll (hf : f ≠ []) (r t : List α) :
    (replaceAll f r t).length + occurrences f t * f.length =
      t.length + occurrences f t * r.length := by
  have hlen := length_join f r (cut f 0 t).1 (cut f 0 t).2
  rwa [join_cut hf] at hlen

theorem infix_iff_occurrences (hf : f ≠ []) : f <:+: t ↔ 0 < occurrences f t := by
  cases quiet_or_first f t with
  | inl h =>
    rw [occurrences_none h]
    exact iff_of_false ((quiet_nil_iff hf).mp h) (by omega)
  | inr h =>
    obtain ⟨g, w, rfl, hq⟩ := h
    rw [occurrences_first hf hq]
    exact iff_of_true ⟨g, w, by simp⟩ (by omega)

/-! From the right. -/

theorem rewrite_quiet {z : List α} (h : Quiet f (rewrite f r z) a) :
    rewrite f r (a ++ z) = a ++ rewrite f r z ∧ rewrites f r (a ++ z) = rewrites f r z := by
  induction a with
  | nil => exact ⟨rfl, rfl⟩
  | cons c a ih =>
    obtain ⟨hr, hn⟩ := ih h.2
    rw [List.cons_append, rewrite, rewrites, hr, hn]
    exact ⟨if_neg h.1, by rw [if_neg h.1, Nat.add_zero]⟩

theorem rewrite_word {z : List α} (h : f <+: c :: rewrite f r z) :
    rewrite f r (c :: z) = r ++ (c :: rewrite f r z).drop f.length ∧
      rewrites f r (c :: z) = rewrites f r z + 1 :=
  ⟨if_pos h, by rw [rewrites, if_pos h]⟩

theorem rewrite_lastAt {z : List α} (h : LastAt f (rewrite f r z) a p) :
    rewrite f r (a.drop p ++ z) = r ++ (a.drop p ++ rewrite f r z).drop f.length ∧
      rewrites f r (a.drop p ++ z) = rewrites f r z + 1 := by
  obtain ⟨hp, hf, hq⟩ := h
  obtain ⟨hr, hn⟩ := rewrite_quiet hq
  rw [List.drop_eq_getElem_cons hp] at hf ⊢
  rw [List.cons_append, ← hr] at hf
  obtain ⟨hr', hn'⟩ := rewrite_word hf
  rw [List.cons_append, List.cons_append, hr', hn', hn, hr]
  exact ⟨rfl, rfl⟩

theorem length_rewrite (f r t : List α) :
    (rewrite f r t).length + rewrites f r t * f.length = t.length + rewrites f r t * r.length := by
  induction t with
  | nil => simp [rewrite, rewrites]
  | cons c t ih =>
    rw [rewrite, rewrites]
    split
    · next h =>
      have hle := h.length_le
      simp only [List.length_append, List.length_drop, List.length_cons] at hle ⊢
      rw [Nat.add_mul, Nat.add_mul, Nat.one_mul, Nat.one_mul]
      omega
    · simp only [List.length_cons, Nat.add_zero]
      omega

theorem length_rewrite_longer (h : r.length = f.length + n) (t : List α) :
    (rewrite f r t).length = t.length + rewrites f r t * n := by
  have hlen := length_rewrite f r t
  rw [h, Nat.mul_add] at hlen
  omega

theorem rewrites_append_le (f r a z : List α) : rewrites f r z ≤ rewrites f r (a ++ z) := by
  induction a with
  | nil => exact Nat.le_refl _
  | cons c a ih => exact ih.trans (Nat.le_add_right _ _)

theorem length_append_rewrite_le (hle : f.length ≤ r.length) (a z : List α) :
    (a ++ rewrite f r z).length ≤ (rewrite f r (a ++ z)).length := by
  obtain ⟨n, hn⟩ := Nat.exists_eq_add_of_le hle
  have hmany := Nat.mul_le_mul_right n (rewrites_append_le f r a z)
  rw [List.length_append, length_rewrite_longer hn, length_rewrite_longer hn, List.length_append]
  omega

theorem rewrites_eq_iff {z : List α} :
    rewrites f r (a ++ z) = rewrites f r z ↔ Quiet f (rewrite f r z) a := by
  constructor
  · intro h
    cases quiet_or_lastAt f (rewrite f r z) a with
    | inl hq => exact hq
    | inr hl =>
      obtain ⟨p, hl⟩ := hl
      have hle := rewrites_append_le f r (a.take p) (a.drop p ++ z)
      rw [← List.append_assoc, List.take_append_drop, (rewrite_lastAt hl).2] at hle
      omega
  · exact fun h => (rewrite_quiet h).2

theorem rewrites_word_lt (hf : f ≠ []) (r w : List α) :
    rewrites f r w < rewrites f r (f ++ w) := by
  obtain ⟨c, f', rfl⟩ := List.exists_cons_of_ne_nil hf
  have hle := rewrites_append_le (c :: f') r f' w
  by_cases h : rewrites (c :: f') r (f' ++ w) = rewrites (c :: f') r w
  · have hq := rewrites_eq_iff.mp h
    have hp : c :: f' <+: c :: rewrite (c :: f') r (f' ++ w) := by
      rw [(rewrite_quiet hq).1, ← List.cons_append]
      exact List.prefix_append _ _
    rw [List.cons_append, (rewrite_word hp).2]
    omega
  · have hle' := rewrites_append_le (c :: f') r [c] (f' ++ w)
    rw [List.singleton_append] at hle'
    rw [List.cons_append]
    omega

theorem length_le_rewrites (hf : f ≠ []) (r g : List α) (gs : List (List α)) :
    gs.length ≤ rewrites f r (join f g gs) := by
  induction gs generalizing g with
  | nil => exact Nat.zero_le _
  | cons g' gs ih =>
    have hrest := ih g'
    have hword := rewrites_word_lt hf r (join f g' gs)
    have hgap := rewrites_append_le f r g (f ++ join f g' gs)
    rw [join_cons, List.length_cons]
    omega

theorem occurrences_le_rewrites (hf : f ≠ []) (r t : List α) :
    occurrences f t ≤ rewrites f r t := by
  have hle := length_le_rewrites hf r (cut f 0 t).1 (cut f 0 t).2
  rwa [join_cut hf] at hle

theorem rewrites_eq_of_length (hlt : f.length < r.length) {k : Nat}
    (h : (rewrite f r t).length + k * f.length = t.length + k * r.length) :
    rewrites f r t = k := by
  obtain ⟨d, hd, hr⟩ : ∃ d, 0 < d ∧ r.length = f.length + d :=
    ⟨r.length - f.length, by omega, by omega⟩
  have hlen := length_rewrite f r t
  rw [hr, Nat.mul_add] at h hlen
  apply Nat.eq_of_mul_eq_mul_right hd
  omega

theorem rewrite_front {f' w : List α} (h : Quiet (c :: f') (rewrite (c :: f') r w) f') :
    rewrite (c :: f') r (c :: f' ++ w) = r ++ rewrite (c :: f') r w := by
  have hp : c :: f' <+: c :: rewrite (c :: f') r (f' ++ w) := by
    rw [(rewrite_quiet h).1, ← List.cons_append]
    exact List.prefix_append _ _
  rw [List.cons_append, (rewrite_word hp).1, (rewrite_quiet h).1, ← List.cons_append,
    List.drop_left]

theorem rewrite_join (hf : f ≠ []) (hle : f.length ≤ r.length) (h : Apart f r g gs) :
    rewrite f r (join f g gs) = join r g gs := by
  induction gs generalizing g with
  | nil =>
    have hq := rewrite_quiet (r := r) (z := []) ((quiet_nil_iff hf).mpr h)
    simpa [rewrite] using hq.1
  | cons g' gs ih =>
    obtain ⟨c, f', rfl⟩ := List.exists_cons_of_ne_nil hf
    have hrest := ih h.2
    rw [List.tail_cons, join_append, join_append] at hrest
    have hp : c :: f' <+: c :: rewrite (c :: f') r (f' ++ join (c :: f') g' gs) := by
      rw [hrest, ← List.cons_append]
      exact List.prefix_append _ _
    have hword : rewrite (c :: f') r (c :: f' ++ join (c :: f') g' gs) = r ++ join r g' gs := by
      rw [List.cons_append, (rewrite_word hp).1, hrest, ← List.cons_append, List.drop_left]
    have hq := (quiet_insert hf hle (join r g' gs) g).mpr h.1
    rw [← hword] at hq
    rw [join_cons, join_cons, (rewrite_quiet hq).1, hword]

theorem apart_of_rewrite (hf : f ≠ []) (hlt : f.length < r.length)
    (h : rewrite f r (join f g gs) = join r g gs) : Apart f r g gs := by
  have htotal : rewrites f r (join f g gs) = gs.length := by
    apply rewrites_eq_of_length hlt
    rw [h]
    exact length_join f r g gs
  induction gs generalizing g with
  | nil =>
    apply (quiet_nil_iff hf).mp
    have hnil : rewrites f r (g ++ []) = rewrites f r [] := by
      rw [List.append_nil]
      simpa [rewrites] using htotal
    exact rewrites_eq_iff.mp hnil
  | cons g' gs ih =>
    obtain ⟨c, f', rfl⟩ := List.exists_cons_of_ne_nil hf
    rw [join_cons] at h htotal
    rw [List.length_cons] at htotal
    -- one rewrite for each word, and none besides
    have hrest := length_le_rewrites hf r g' gs
    have hword := rewrites_word_lt hf r (join (c :: f') g' gs)
    have hgap := rewrites_append_le (c :: f') r g (c :: f' ++ join (c :: f') g' gs)
    have hq : Quiet (c :: f') (rewrite (c :: f') r (c :: f' ++ join (c :: f') g' gs)) g :=
      rewrites_eq_iff.mp (by omega)
    rw [(rewrite_quiet hq).1, join_cons] at h
    replace h := List.append_cancel_left h
    rw [h] at hq
    cases quiet_or_lastAt (c :: f') (rewrite (c :: f') r (join (c :: f') g' gs)) f' with
    | inl hquiet =>
      rw [rewrite_front hquiet] at h
      have hsame := List.append_cancel_left h
      have hshift : rewrite (c :: f') r (join (c :: f') (f' ++ g') gs) = join r (f' ++ g') gs := by
        rw [join_append, join_append, (rewrite_quiet hquiet).1, hsame]
      refine ⟨(quiet_insert hf hlt.le _ g).mp hq, ih hshift ?_⟩
      rw [List.tail_cons, join_append, (rewrite_quiet hquiet).2]
      omega
    | inr hlast =>
      -- the rewrite inside the word: then the word begins `r`, and would be rewritten itself
      exfalso
      obtain ⟨p, hlast⟩ := hlast
      obtain ⟨hr, hn⟩ := rewrite_lastAt hlast
      obtain ⟨hp, hmatch, -⟩ := hlast
      have hsplit : c :: f' ++ join (c :: f') g' gs =
          c :: f'.take p ++ (f'.drop p ++ join (c :: f') g' gs) := by
        rw [List.cons_append, List.cons_append, ← List.append_assoc, List.take_append_drop]
      rw [hsplit] at h hword hgap htotal
      have hfront : Quiet (c :: f') (rewrite (c :: f') r (f'.drop p ++ join (c :: f') g' gs))
          (c :: f'.take p) := rewrites_eq_iff.mp (by omega)
      rw [(rewrite_quiet hfront).1, hr] at h
      have hper : (c :: f').drop (p + 1) <+: c :: f' := by
        rw [List.drop_succ_cons]
        apply List.prefix_of_prefix_length_le (List.prefix_append _ _) hmatch
        rw [List.length_drop, List.length_cons]
        omega
      have hpre := prefix_of_period (Nat.succ_pos p) hper hlt.le h
      apply hfront.1
      rw [hr, ← List.cons_append, h]
      exact hpre.trans (List.prefix_append r _)

theorem rewrite_join_iff (hf : f ≠ []) (hlt : f.length < r.length) (g : List α)
    (gs : List (List α)) : rewrite f r (join f g gs) = join r g gs ↔ Apart f r g gs :=
  ⟨apart_of_rewrite hf hlt, rewrite_join hf hlt.le⟩

theorem rewrite_eq_replaceAll_iff (hf : f ≠ []) (hlt : f.length < r.length) (t : List α) :
    rewrite f r t = replaceAll f r t ↔ Apart f r (cut f 0 t).1 (cut f 0 t).2 := by
  rw [← rewrite_join_iff hf hlt, join_cut hf]
  rfl

theorem mem_replaceAll (hf : f ≠ []) (h : c ∈ replaceAll f r t) : c ∈ t ∨ c ∈ r := by
  have hjoin : ∀ (g : List α) (gs : List (List α)), c ∈ join r g gs → c ∈ join f g gs ∨ c ∈ r := by
    intro g gs
    induction gs generalizing g with
    | nil => exact fun h => .inl (by simpa using h)
    | cons g' gs ih =>
      intro h
      rw [join_cons] at h ⊢
      simp only [List.mem_append] at h ⊢
      obtain h | h | h := h
      · exact .inl (.inl h)
      · exact .inr h
      · exact (ih g' h).imp_left fun h => .inr (.inr h)
  rw [← join_cut hf t]
  exact hjoin _ _ h

/-! How many there are. -/

theorem length_le_occurrences (hf : f ≠ []) (g : List α) (gs : List (List α)) :
    gs.length ≤ occurrences f (join f g gs) := by
  induction gs generalizing g with
  | nil => exact Nat.zero_le _
  | cons g' gs ih =>
    rw [join_cons]
    cases quiet_or_first f (g ++ (f ++ join f g' gs)) with
    | inl h =>
      have hin : f <:+: g ++ (f ++ join f g' gs) := ⟨g, join f g' gs, by simp⟩
      exact absurd hin ((quiet_nil_iff hf).mp h)
    | inr h =>
      obtain ⟨g₀, w, he, hq⟩ := h
      -- the first one does not begin behind the first word
      have hle : g₀.length ≤ g.length := by
        by_contra hlt
        apply quiet_iff_drop.mp hq g.length (by omega)
        have hdrop : g₀.drop g.length ++ (f ++ w) = f ++ join f g' gs := by
          rw [← List.drop_append_of_le_length (by omega), ← he, List.drop_left]
        rw [hdrop]
        exact List.prefix_append _ _
      have hw : w = (g.drop g₀.length ++ f).drop f.length ++ join f g' gs := by
        have h₁ := congrArg (List.drop (g₀.length + f.length)) he
        rw [← List.drop_drop, ← List.drop_drop, List.drop_append_of_le_length hle, List.drop_left,
          List.drop_left, ← List.append_assoc, List.drop_append_of_le_length (by simp)] at h₁
        exact h₁.symm
      rw [he, occurrences_first hf hq, List.length_cons, hw, ← join_append]
      exact Nat.succ_le_succ (ih _)

theorem rewrite_append (h : Unlinked f r) (hle : f.length ≤ r.length) {z : List α}
    (hz : rewrite f r z = r ++ v) (a : List α) :
    rewrite f r (a ++ z) = rewrite f r a ++ (r ++ v) ∧
      rewrites f r (a ++ z) = rewrites f r a + rewrites f r z := by
  induction a with
  | nil => exact ⟨hz, by simp [rewrites]⟩
  | cons c a ih =>
    obtain ⟨hr, hn⟩ := ih
    have hiff : f <+: c :: (rewrite f r a ++ (r ++ v)) ↔ f <+: c :: rewrite f r a := by
      constructor
      · exact h.prefix_of_append hle (List.cons_ne_nil _ _)
      · exact fun hp => hp.trans (List.prefix_append (c :: rewrite f r a) (r ++ v))
    rw [List.cons_append, rewrite, rewrites, rewrite, rewrites, hr, hn]
    simp only [hiff]
    split
    · next hp =>
      refine ⟨?_, by omega⟩
      rw [← List.cons_append, List.drop_append_of_le_length hp.length_le, List.append_assoc]
    · exact ⟨rfl, by omega⟩

theorem exists_join_of_unlinked (h : Unlinked f r) (hle : f.length ≤ r.length) (t : List α) :
    ∃ g gs, join f g gs = t ∧ gs.length = rewrites f r t := by
  induction hn : t.length using Nat.strongRecOn generalizing t with
  | _ n ih =>
    cases quiet_or_lastAt f [] t with
    | inl hq =>
      have hnone := (rewrite_quiet (r := r) (z := []) hq).2
      rw [List.append_nil] at hnone
      exact ⟨t, [], by simp, by simp [hnone, rewrites]⟩
    | inr hlast =>
      obtain ⟨p, hlast⟩ := hlast
      obtain ⟨hr, hone⟩ := rewrite_lastAt (r := r) (z := []) hlast
      obtain ⟨hp, hmatch, -⟩ := hlast
      rw [List.append_nil] at hr hone hmatch
      obtain ⟨w, hw⟩ := hmatch
      obtain ⟨g, gs, hjoin, hlen⟩ := ih p (hn ▸ hp) (t.take p) (List.length_take_of_le hp.le)
      have hmany := (rewrite_append h hle hr (t.take p)).2
      rw [List.take_append_drop, hone, ← hlen] at hmany
      refine ⟨g, gs ++ [w], ?_, by rw [List.length_append, hmany]; rfl⟩
      have hconcat : join f g (gs ++ [w]) = join f g gs ++ (f ++ w) := by simp [join]
      rw [hconcat, hjoin, hw, List.take_append_drop]

theorem rewrite_self (hf : f ≠ []) (r : List α) : rewrite f r f = r := by
  obtain ⟨c, f', rfl⟩ := List.exists_cons_of_ne_nil hf
  have hshort : Quiet (c :: f') (rewrite (c :: f') r []) f' := by
    apply quiet_of_short
    simp [rewrite]
  have hfront := rewrite_front hshort
  rw [List.append_nil] at hfront
  rw [hfront, rewrite, List.append_nil]

theorem two_le_rewrites (hx : x ≠ []) (hpre : y <+: r) :
    2 ≤ rewrites (x ++ y) r (x ++ (x ++ y)) := by
  have hf : x ++ y ≠ [] := List.append_ne_nil_of_left_ne_nil hx y
  have hword := rewrites_word_lt hf r []
  have hle := rewrites_append_le (x ++ y) r x (x ++ y)
  rw [List.append_nil] at hword
  have hmore : rewrites (x ++ y) r (x ++ (x ++ y)) ≠ rewrites (x ++ y) r (x ++ y) := by
    intro hsame
    have hq := rewrites_eq_iff.mp hsame
    rw [rewrite_self hf] at hq
    apply quiet_iff_drop.mp hq 0 (List.length_pos_iff.mpr hx)
    exact (List.prefix_append_right_inj x).mpr hpre
  omega

theorem occurrences_lt_two (hf : f ≠ []) (h : t.length < 2 * f.length) : occurrences f t < 2 := by
  have hlen := length_replaceAll hf [] t
  rw [List.length_nil, Nat.mul_zero] at hlen
  by_contra hmany
  have hmul := Nat.mul_le_mul_right f.length (Nat.not_lt.mp hmany)
  omega

/-- Of every list there are as many from the right as from the left exactly if no end of the
word begins its replacement. -/
theorem rewrites_eq_iff_unlinked (hf : f ≠ []) (hle : f.length ≤ r.length) :
    (∀ t, rewrites f r t = occurrences f t) ↔ Unlinked f r := by
  constructor
  · intro h y hy hsuf hne hpre
    obtain ⟨x, rfl⟩ := hsuf
    have hx : x ≠ [] := fun h0 => hne (by rw [h0]; rfl)
    have hypos := List.length_pos_iff.mpr hy
    have htwo := two_le_rewrites hx hpre
    have hone := occurrences_lt_two (t := x ++ (x ++ y)) hf (by
      simp only [List.length_append]
      omega)
    rw [h] at htwo
    omega
  · intro h t
    obtain ⟨g, gs, hjoin, hlen⟩ := exists_join_of_unlinked h hle t
    have hle' := length_le_occurrences hf g gs
    rw [hjoin, hlen] at hle'
    exact Nat.le_antisymm hle' (occurrences_le_rewrites hf r t)

end Words

end RasPiArduino.Rewriting
