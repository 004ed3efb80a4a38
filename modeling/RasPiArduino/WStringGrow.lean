import RasPiArduino.WStringReplace

/-! The growing branch of replace(): the places to replace are counted from the left, and
replaced from the right, by lastIndexOf() on what the buffer holds by then. -/
namespace RasPiArduino.WString
open CMemory Rewriting
variable {s find replace y : WString} {t f r rest frest : List UInt8} {a a₁ a₂ v w z : List UInt8}
  {diff : Int} {i n p k size : Nat}

/-! The last place. -/

theorem strstr_cases (hne : f ≠ []) (t : List UInt8) :
    (strstr t f = none ∧ Quiet f [] t) ∨
      ∃ g w, t = g ++ (f ++ w) ∧ strstr t f = some g.length ∧ Quiet f (f ++ w) g := by
  cases quiet_or_first f t with
  | inl h => exact .inl ⟨strstr_none hne h, h⟩
  | inr h =>
    obtain ⟨g, w, rfl, hq⟩ := h
    exact .inr ⟨g, w, rfl, strstr_first hq, hq⟩

theorem lastIndexLoop_past {b : List UInt8} {i : Nat} (h : i < p) (n : Nat) (found : Int) :
    lastIndexLoop b f i n p found = .ok found := by
  cases n with
  | zero => rfl
  | succ n => rw [lastIndexLoop, if_neg (by omega)]

/-- The loop has passed `a₁`; what it finds is the last place in `a₂`. -/
theorem lastIndexLoop_spec (hne : f ≠ []) (hnul : 0 ∉ a₁ ++ (a₂ ++ v))
    (hi : i + 1 = a₁.length + a₂.length) (hn : a₂.length ≤ n) (rest : List UInt8) (found : Int) :
    ∃ j, lastIndexLoop (a₁ ++ (a₂ ++ v) ++ 0 :: rest) f i n a₁.length found = .ok j ∧
      ((Quiet f v a₂ ∧ j = found) ∨
        ∃ p, LastAt f v a₂ p ∧ j = position (some (a₁.length + p))) := by
  induction n generalizing a₁ a₂ found with
  | zero =>
    obtain rfl := List.eq_nil_of_length_eq_zero (Nat.le_zero.mp hn)
    exact ⟨found, rfl, .inl ⟨trivial, rfl⟩⟩
  | succ n ih =>
    by_cases hpos : a₂.length = 0
    · obtain rfl := List.eq_nil_of_length_eq_zero hpos
      exact ⟨found, lastIndexLoop_past (by omega) _ _, .inl ⟨trivial, rfl⟩⟩
    have hread := cstring_drop hnul (i := a₁.length) (by simp) rest
    rw [List.drop_left] at hread
    rw [lastIndexLoop, if_pos (by omega), hread, ok_bind]
    cases strstr_cases hne (a₂ ++ v) with
    | inl h =>
      obtain ⟨hstr, hq⟩ := h
      rw [quiet_append, List.append_nil] at hq
      exact ⟨found, by rw [hstr], .inl ⟨hq.1, rfl⟩⟩
    | inr h =>
      obtain ⟨g, w, hsplit, hstr, hq⟩ := h
      rw [hstr]
      dsimp only
      by_cases hin : g.length < a₂.length
      · -- a place in `a₂`; the loop goes on behind it
        obtain ⟨u, rfl⟩ : g <+: a₂ := by
          apply List.prefix_of_prefix_length_le _ (List.prefix_append a₂ v) hin.le
          rw [hsplit]
          exact List.prefix_append _ _
        obtain ⟨c, a₃, rfl⟩ := List.exists_cons_of_length_pos (l := u) (by simpa using hin)
        rw [List.append_assoc] at hsplit
        have hmatch : f <+: c :: a₃ ++ v := by
          rw [List.append_cancel_left hsplit]
          exact List.prefix_append _ _
        have hshift : a₁ ++ (g ++ c :: a₃ ++ v) = a₁ ++ (g ++ [c]) ++ (a₃ ++ v) := by simp
        have hplace : a₁.length + g.length + 1 = (a₁ ++ (g ++ [c])).length := by
          simp only [List.length_append, List.length_singleton]
          omega
        rw [hshift] at hnul
        rw [List.length_append, List.length_cons] at hi hn
        obtain ⟨j, hj, h⟩ := ih hnul (by omega) (by omega) (position (some (a₁.length + g.length)))
        rw [if_pos (by omega), hshift, hplace]
        refine ⟨j, hj, .inr ?_⟩
        cases h with
        | inl h =>
          exact ⟨g.length, (LastAt.append (p := 0) ⟨by simp, hmatch, h.1⟩ g), h.2⟩
        | inr h =>
          obtain ⟨p, hlast, hjp⟩ := h
          refine ⟨_, (hlast.append [c]).append g, ?_⟩
          rw [hjp, ← hplace, List.length_singleton]
          congr 2
          omega
      · -- the first place is behind `a₂`, and so is the loop
        obtain ⟨g', rfl⟩ : a₂ <+: g := by
          apply List.prefix_of_prefix_length_le (List.prefix_append a₂ v) _ (by omega)
          rw [hsplit]
          exact List.prefix_append _ _
        rw [List.append_assoc] at hsplit
        have hq' := (quiet_append.mp hq).1
        rw [← List.append_cancel_left hsplit] at hq'
        rw [List.length_append, if_neg (by omega)]
        exact ⟨found, lastIndexLoop_past (by omega) _ _, .inl ⟨hq', rfl⟩⟩

theorem position_eq (h : p < 2^31) : position (some p) = p := by
  unfold position
  exact bmod_of_lt (by omega) (by omega)

theorem lastIndexOfString_spec (hs : Holds s (a ++ v) rest) (hf : Holds find f frest) (hne : f ≠ [])
    (hi : i + 1 = a.length) (hlt : a.length ≤ 2^31) :
    (Quiet f v a ∧ s.lastIndexOfString find i = .ok (-1)) ∨
      ∃ p, LastAt f v a p ∧ s.lastIndexOfString find i = .ok p := by
  have hslen := hs.len
  have hflen := hf.len
  have hpos := List.length_pos_iff.mpr hne
  rw [List.length_append] at hslen
  rw [lastIndexOfString]
  split
  · next hskip =>
    refine .inl ⟨quiet_of_short (by omega), rfl⟩
  · have hnul : 0 ∉ [] ++ (a ++ v) := hs.noNul
    obtain ⟨j, hj, h⟩ := lastIndexLoop_spec hne hnul (i := i) (n := i + 1)
      (by simpa using hi) (by omega) rest (-1)
    simp only [List.nil_append, List.length_nil] at hj
    rw [if_neg (by omega), hs.buffer, hf.buffer]
    simp only [Buffer.bytes, ok_bind, cstring_append hf.noNul, hj]
    cases h with
    | inl h => exact .inl ⟨h.1, by rw [h.2]⟩
    | inr h =>
      obtain ⟨p, hlast, hjp⟩ := h
      have hp := hlast.1
      rw [List.length_nil, Nat.zero_add, position_eq (by omega)] at hjp
      exact .inr ⟨p, hlast, by rw [hjp]⟩

theorem lastIndexOfString_quiet (hs : Holds s (a ++ v) rest) (hf : Holds find f frest)
    (hne : f ≠ []) (hi : i + 1 = a.length) (hlt : a.length ≤ 2^31) (hq : Quiet f v a) :
    s.lastIndexOfString find i = .ok (-1) := by
  cases lastIndexOfString_spec hs hf hne hi hlt with
  | inl h => exact h.2
  | inr h =>
    obtain ⟨p, hlast, -⟩ := h
    exact absurd hq hlast.not_quiet

theorem lastIndexOfString_last (hs : Holds s (a ++ v) rest) (hf : Holds find f frest)
    (hne : f ≠ []) (hi : i + 1 = a.length) (hlt : a.length ≤ 2^31) (hlast : LastAt f v a p) :
    s.lastIndexOfString find i = .ok p := by
  cases lastIndexOfString_spec hs hf hne hi hlt with
  | inl h => exact absurd h.1 hlast.not_quiet
  | inr h =>
    obtain ⟨q, hlast', hq⟩ := h
    rw [hq, hlast.unique hlast']

/-! A turn of the loop from the right. -/

theorem longerTurn_none (hs : Holds s (a ++ v) rest) (hf : Holds find f frest) (hne : f ≠ [])
    (hlt : a.length ≤ 2^31) (hq : Quiet f v a) :
    longerTurn find replace diff s (a.length - 1) = .ok none := by
  rw [longerTurn]
  split
  · rfl
  · next hpos =>
    obtain ⟨i, hi⟩ : ∃ i, i + 1 = a.length := ⟨a.length - 1, by omega⟩
    have hindex : ((a.length : Int) - 1).toNat = i := by omega
    rw [hindex, lastIndexOfString_quiet hs hf hne hi hlt hq]
    rfl

/-- What is behind the word moves on, and the longer word takes its place. -/
theorem memmove_insert (g u : List UInt8) {d : Nat} (hlen : r.length = f.length + d)
    (hroom : d ≤ rest.length) : ∃ b₁ b₂,
    memmove (g ++ (f ++ u) ++ 0 :: rest) (g.length + f.length + d) (g.length + f.length) u.length
      = .ok b₁ ∧ put b₁ (g.length + f.length + u.length + d) 0 = .ok b₂ ∧
      memcpy b₂ g.length r = .ok (g ++ (r ++ u) ++ 0 :: rest.drop d) := by
  obtain ⟨e, he⟩ : ∃ e, e = u ++ 0 :: rest := ⟨_, rfl⟩
  have helen : e.length = u.length + (rest.length + 1) := by simp [he]
  have hread : ((g ++ (f ++ u) ++ 0 :: rest).drop (g.length + f.length)).take u.length = u := by
    rw [List.append_assoc, ← List.drop_drop, List.drop_left, List.append_assoc, List.drop_left,
      List.take_left]
  have hsplit : g ++ (f ++ u) ++ 0 :: rest = g ++ (f ++ e.take d) ++ e.drop d := by
    rw [List.append_assoc, List.append_assoc, List.append_assoc, List.append_assoc,
      List.take_append_drop, he]
  have hplace : g.length + f.length + d = (g ++ (f ++ e.take d)).length := by
    simp only [List.length_append, List.length_take]
    omega
  have hmove := memcpy_fits (d := g ++ (f ++ e.take d)) (t := u) (r := e.drop d) (by
    rw [List.length_drop]
    omega)
  obtain ⟨x, hx⟩ : ∃ x, (e.drop d).drop u.length = x :: rest.drop d := by
    rw [List.drop_drop, Nat.add_comm, ← List.drop_drop, he, List.drop_left,
      List.drop_eq_getElem_cons (by simp; omega), List.drop_succ_cons]
    exact ⟨_, rfl⟩
  rw [hx] at hmove
  have hput := put_append (g ++ (f ++ e.take d) ++ u) (rest.drop d) x 0
  have hcopy := memcpy_fits (d := g) (t := r) (r := f ++ (e.take d ++ (u ++ 0 :: rest.drop d))) (by
    simp only [List.length_append, List.length_take]
    omega)
  have hback : (f ++ (e.take d ++ (u ++ 0 :: rest.drop d))).drop r.length =
      u ++ 0 :: rest.drop d := by
    rw [hlen, ← List.drop_drop, List.drop_left, List.drop_left' (by
      rw [List.length_take]
      omega)]
  refine ⟨g ++ (f ++ e.take d) ++ u ++ x :: rest.drop d,
    g ++ (f ++ (e.take d ++ (u ++ 0 :: rest.drop d))), ?_, ?_, ?_⟩
  · rw [memmove, hread, if_pos rfl, hsplit, hplace, hmove]
    simp
  · have hend : g.length + f.length + u.length + d = (g ++ (f ++ e.take d) ++ u).length := by
      rw [List.length_append, ← hplace]
      omega
    rw [hend, hput]
    simp
  · rw [hcopy, hback]
    simp

theorem longerTurn_eq {g u : List UInt8} (hs : Holds s (a ++ v) rest) (hf : Holds find f frest)
    (hne : f ≠ []) (hr : Contents replace r) (hlt : a.length ≤ 2^31) (hlast : LastAt f v a g.length)
    (hsplit : a ++ v = g ++ (f ++ u)) :
    longerTurn find replace diff s (a.length - 1) = (do
      let b ← memmove (g ++ (f ++ u) ++ 0 :: rest) (g.length + f.length + diff.toNat)
        (g.length + f.length) u.length
      let b ← put b (addInt s.len diff) 0
      let b ← memcpy b g.length r
      .ok (some ({ s with buffer := .block b, len := addInt s.len diff },
        (g.length : Int) - 1))) := by
  have hp := hlast.1
  obtain ⟨i, hi⟩ : ∃ i, i + 1 = a.length := ⟨a.length - 1, by omega⟩
  have hindex : ((a.length : Int) - 1).toNat = i := by omega
  have hslen := hs.len
  rw [hsplit, List.length_append, List.length_append] at hslen
  have hminus : minus s.len (g.length + f.length) = u.length := by
    have hfits := hs.fits
    have hcap := hs.capacity
    rw [← hs.len] at hcap
    rw [minus_of_le (by omega) (by omega)]
    omega
  rw [longerTurn, if_neg (by omega), hindex, lastIndexOfString_last hs hf hne hi hlt hlast, ok_bind,
    if_neg (by omega)]
  simp only [Int.toNat_natCast, hs.buffer, Buffer.bytes, ok_bind, hf.len, hminus, readBytes_eq hr,
    hsplit]

/-- The last place is replaced if the buffer has room for it. -/
theorem longerTurn_lastAt (hs : Holds s (a ++ v) rest) (hf : Holds find f frest) (hne : f ≠ [])
    (hr : Contents replace r) (hle : f.length ≤ r.length) (hdiff : diff = r.length - f.length)
    (hlt : a.length ≤ 2^31) (hlast : LastAt f v a p)
    (hroom : s.len + r.length ≤ s.capacity + f.length) : ∃ y rest',
    longerTurn find replace diff s (a.length - 1) = .ok (some (y, p - 1)) ∧
      Holds y (a.take p ++ (r ++ (a.drop p ++ v).drop f.length)) rest' ∧
      y.capacity = s.capacity := by
  obtain ⟨hsplit, hp⟩ := hlast.split
  generalize a.take p = g at hsplit hp ⊢
  generalize (a.drop p ++ v).drop f.length = u at hsplit ⊢
  subst hp
  obtain ⟨d, hd⟩ : ∃ d, r.length = f.length + d := ⟨r.length - f.length, by omega⟩
  have hslen := hs.len
  have hcap := hs.capacity
  have hfits := hs.fits
  rw [← hs.len] at hcap
  rw [hsplit, List.length_append, List.length_append] at hslen
  have hlen : addInt s.len diff = g.length + f.length + u.length + d :=
    addInt_eq (by omega) (by omega)
  obtain ⟨b₁, b₂, hmove, hput, hcopy⟩ := memmove_insert g u hd (show d ≤ rest.length by omega)
  have htoNat : diff.toNat = d := by omega
  refine ⟨{ s with
    buffer := .block (g ++ (r ++ u) ++ 0 :: rest.drop d), len := addInt s.len diff },
    rest.drop d, ?_, ⟨rfl, ?_, ?_, ?_, hfits⟩, rfl⟩
  · rw [longerTurn_eq hs hf hne hr hlt hlast hsplit, htoNat, hmove, ok_bind, hlen, hput, ok_bind,
      hcopy, ok_bind]
  · simp only [hlen, List.length_append]
    omega
  · simp only [List.length_append, List.length_drop]
    omega
  · have hnul := hs.noNul
    rw [hsplit] at hnul
    simp only [List.mem_append, not_or] at hnul ⊢
    exact ⟨hnul.1, hr.noNul, hnul.2.2⟩

theorem longerTurn_fails (hs : Holds s (a ++ v) rest) (hf : Holds find f frest) (hne : f ≠ [])
    (hr : Contents replace r) (hle : f.length ≤ r.length) (hdiff : diff = r.length - f.length)
    (hlt : a.length ≤ 2^31) (hlast : LastAt f v a p)
    (hroom : s.capacity + f.length < s.len + r.length) (y : Option (WString × Int)) :
    longerTurn find replace diff s (a.length - 1) ≠ .ok y := by
  intro hy
  obtain ⟨hsplit, hp⟩ := hlast.split
  generalize a.take p = g at hsplit hp
  generalize (a.drop p ++ v).drop f.length = u at hsplit
  subst hp
  have hslen := hs.len
  have hcap := hs.capacity
  have hfits := hs.fits
  have hpos := List.length_pos_iff.mpr hne
  rw [← hs.len] at hcap
  rw [hsplit, List.length_append, List.length_append] at hslen
  rw [longerTurn_eq hs hf hne hr hlt hlast hsplit] at hy
  obtain ⟨b₁, hmove, hy⟩ := bind_eq_ok.mp hy
  obtain ⟨b₂, hput, hy⟩ := bind_eq_ok.mp hy
  obtain ⟨b₃, hcopy, -⟩ := bind_eq_ok.mp hy
  obtain ⟨hlen₁, hin⟩ := memmove_eq_ok hmove
  obtain ⟨hterm, hb₂⟩ := put_eq_ok hput
  simp only [List.length_append, List.length_cons] at hlen₁ hin
  have hlen₂ : b₂.length = b₁.length := by rw [hb₂, List.length_set]
  have hword : g.length + r.length ≤ b₂.length := by
    by_contra hout
    rw [memcpy_outside (List.ne_nil_of_length_pos (by omega)) (by omega)] at hcopy
    cases hcopy
  -- all of the new text but the NUL was in the block, so the length has not wrapped
  have hall : g.length + r.length + u.length ≤ s.capacity + 1 := by
    by_cases hu : u.length = 0
    · omega
    · have := hin hu
      omega
  have hlen : addInt s.len diff = g.length + r.length + u.length :=
    addInt_eq (by omega) (by omega)
  omega

structure Longer (find replace : WString) (f r : List UInt8) (d : Nat) : Prop where
  find : ∃ frest, Holds find f frest
  replace : Contents replace r
  ne : f ≠ []
  len : r.length = f.length + d

/-- What has been rewritten so far is behind `a`. A turn ends the loop, or replaces the last
place if there is room. -/
theorem longerTurn_cases {d : Nat} (h : Longer find replace f r d)
    (hs : Holds s (a ++ rewrite f r z) rest) (hlt : a.length ≤ 2^31) :
    (Quiet f (rewrite f r z) a ∧ longerTurn find replace d s (a.length - 1) = .ok none) ∨
    ∃ a' z', a' ++ z' = a ++ z ∧ a'.length < a.length ∧
      (a' ++ rewrite f r z').length = s.len + d ∧ rewrites f r z < rewrites f r z' ∧
      ((s.len + d ≤ s.capacity ∧ ∃ y rest',
        longerTurn find replace d s (a.length - 1) = .ok (some (y, a'.length - 1)) ∧
        Holds y (a' ++ rewrite f r z') rest' ∧ y.capacity = s.capacity) ∨
      (s.capacity < s.len + d ∧ ∀ y, longerTurn find replace d s (a.length - 1) ≠ .ok y)) := by
  obtain ⟨frest, hf⟩ := h.find
  have hlen := h.len
  cases quiet_or_lastAt f (rewrite f r z) a with
  | inl hq => exact .inl ⟨hq, longerTurn_none hs hf h.ne hlt hq⟩
  | inr hl =>
    obtain ⟨p, hlast⟩ := hl
    have hp := hlast.1
    obtain ⟨hsplit, hplen⟩ := hlast.split
    obtain ⟨hrw, hmany⟩ := rewrite_lastAt hlast
    refine .inr ⟨a.take p, a.drop p ++ z, ?_, by omega, ?_, by omega, ?_⟩
    · rw [← List.append_assoc, List.take_append_drop]
    · have hslen := hs.len
      rw [hsplit] at hslen
      rw [hrw, hslen]
      simp only [List.length_append]
      omega
    · rw [hrw, hplen]
      by_cases hroom : s.len + d ≤ s.capacity
      · exact .inl ⟨hroom, longerTurn_lastAt hs hf h.ne h.replace (by omega) (by omega) hlt hlast
          (by omega)⟩
      · exact .inr ⟨by omega, longerTurn_fails hs hf h.ne h.replace (by omega) (by omega) hlt hlast
          (by omega)⟩

/-! The loop. -/

/-- Every turn of the loop is made within the block, and leaves a length of at most `size`. -/
def EachTurn (find replace : WString) (diff : Int) (size : Nat) : Nat → WString → Int → Prop
  | 0, _, _ => True
  | n+1, s, index =>
    match longerTurn find replace diff s index with
    | .error _ => False
    | .ok none => True
    | .ok (some (s, index)) => s.len ≤ size ∧ EachTurn find replace diff size n s index

theorem longerLoop_spec {d : Nat} (h : Longer find replace f r d)
    (hs : Holds s (a ++ rewrite f r z) rest) (hlt : a.length ≤ 2^31) (hn : a.length ≤ n) :
    ((rewrite f r (a ++ z)).length ≤ s.capacity → ∃ y rest',
      longerLoop find replace d n s (a.length - 1) = .ok y ∧
        Holds y (rewrite f r (a ++ z)) rest') ∧
    (s.capacity < (rewrite f r (a ++ z)).length → ∀ y,
      longerLoop find replace d n s (a.length - 1) ≠ .ok y) := by
  induction n generalizing a s z rest with
  | zero =>
    obtain rfl := List.eq_nil_of_length_eq_zero (Nat.le_zero.mp hn)
    have hcap := hs.capacity
    rw [List.nil_append] at hs hcap ⊢
    exact ⟨fun _ => ⟨s, rest, rfl, hs⟩, fun hout => by omega⟩
  | succ n ih =>
    cases longerTurn_cases h hs hlt with
    | inl hnone =>
      obtain ⟨hq, hturn⟩ := hnone
      have hcap := hs.capacity
      rw [longerLoop, hturn, (rewrite_quiet hq).1]
      exact ⟨fun _ => ⟨s, rest, rfl, hs⟩, fun hout => by omega⟩
    | inr hsome =>
      obtain ⟨a', z', hsplit, hshort, hlen, -, hturn⟩ := hsome
      have hgrown := length_append_rewrite_le (by rw [h.len]; omega) a' z' (f := f) (r := r)
      rw [hsplit] at hgrown
      cases hturn with
      | inl hroom =>
        obtain ⟨-, y, rest', hturn, hy, hcap⟩ := hroom
        have hrest := ih hy (by omega) (by omega)
        rw [hsplit, hcap] at hrest
        rw [longerLoop, hturn]
        exact hrest
      | inr hfull =>
        refine ⟨fun hfits => by omega, fun _ y hy => ?_⟩
        rw [longerLoop] at hy
        obtain ⟨x, hx, -⟩ := bind_eq_ok.mp hy
        exact hfull.2 x hx

theorem longerLoop_of_eachTurn {index : Int} (h : EachTurn find replace diff size n s index) :
    ∃ y, longerLoop find replace diff n s index = .ok y := by
  induction n generalizing s index with
  | zero => exact ⟨s, rfl⟩
  | succ n ih =>
    rw [EachTurn] at h
    rw [longerLoop]
    cases hx : longerTurn find replace diff s index with
    | error e =>
      rw [hx] at h
      exact h.elim
    | ok x =>
      rw [hx] at h
      cases x with
      | none => exact ⟨s, rfl⟩
      | some x => exact ih h.2

/-- A size that the block has room for is enough if the rewritten text is no longer. -/
theorem eachTurn_iff {d : Nat} (h : Longer find replace f r d)
    (hs : Holds s (a ++ rewrite f r z) rest) (hlt : a.length ≤ 2^31) (hn : a.length ≤ n)
    (hsize : size ≤ s.capacity) :
    EachTurn find replace d size n s (a.length - 1) ↔
      rewrites f r (a ++ z) = rewrites f r z ∨ (rewrite f r (a ++ z)).length ≤ size := by
  induction n generalizing a s z rest with
  | zero =>
    obtain rfl := List.eq_nil_of_length_eq_zero (Nat.le_zero.mp hn)
    exact iff_of_true trivial (.inl rfl)
  | succ n ih =>
    cases longerTurn_cases h hs hlt with
    | inl hnone =>
      obtain ⟨hq, hturn⟩ := hnone
      rw [EachTurn, hturn]
      exact iff_of_true trivial (.inl (rewrite_quiet hq).2)
    | inr hsome =>
      obtain ⟨a', z', hsplit, hshort, hlen, hmore, hturn⟩ := hsome
      have hgrown := length_append_rewrite_le (by rw [h.len]; omega) a' z' (f := f) (r := r)
      have hmany := rewrites_append_le f r a' z'
      rw [hsplit] at hgrown hmany
      cases hturn with
      | inl hroom =>
        obtain ⟨-, y, rest', hturn, hy, hcap⟩ := hroom
        have hrest := ih hy (by omega) (by omega) (by omega)
        have hylen := hy.len
        rw [EachTurn, hturn]
        dsimp only
        rw [hrest, hsplit]
        constructor
        · intro hok
          obtain ⟨hle, hdone | hdone⟩ := hok
          · rw [← hsplit] at hdone ⊢
            rw [(rewrite_quiet (rewrites_eq_iff.mp hdone)).1]
            exact .inr (by omega)
          · exact .inr hdone
        · intro hok
          obtain hsame | hle := hok
          · omega
          · exact ⟨by omega, .inr hle⟩
      | inr hfull =>
        refine iff_of_false (fun heach => ?_) (by omega)
        rw [EachTurn] at heach
        cases hx : longerTurn find replace d s (a.length - 1) with
        | error e => rw [hx] at heach; exact heach
        | ok x => exact hfull.2 x hx

end RasPiArduino.WString
