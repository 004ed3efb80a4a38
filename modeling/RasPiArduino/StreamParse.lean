import RasPiArduino.Print
import RasPiArduino.TimedStream

/-! Stream::parseInt(), and that it reads what print() writes. -/
namespace RasPiArduino.TimedStream
open CMemory Numerals

inductive LookaheadMode where
  | skipAll
  | skipNone
  | skipWhitespace
  deriving DecidableEq, Repr

variable {σ : Type}

def peekNextDigit (d : Device σ) (timeout : Nat) (lookahead : LookaheadMode)
    (detectDecimal : Bool) : Nat → σ → Option (Int × σ)
  | 0, _ => none
  | n+1, s => do
    let (c, s) ← timedPeek d timeout n s
    if c < 0 ∨ c = 45 ∨ (48 ≤ c ∧ c ≤ 57) ∨ (detectDecimal = true ∧ c = 46) then some (c, s)
    else match lookahead with
      | .skipNone => some (-1, s)
      | .skipWhitespace =>
        if c = 32 ∨ c = 9 ∨ c = 13 ∨ c = 10 then
          peekNextDigit d timeout lookahead detectDecimal n (d.read s).2
        else some (-1, s)
      | .skipAll => peekNextDigit d timeout lookahead detectDecimal n (d.read s).2

/-- The value of a long, modulo 2^32. -/
def long (v : Int) : Int := Int.bmod v (2^32)

def accept (ignore : UInt8) (c : Int) (isNegative : Bool) (value : Int) : Bool × Int :=
  if c = ignore.toNat then (isNegative, value)
  else if c = 45 then (true, value)
  else if 48 ≤ c ∧ c ≤ 57 then (isNegative, long (value * 10 + c - 48))
  else (isNegative, value)

def parseLoop (d : Device σ) (timeout : Nat) (ignore : UInt8) :
    Nat → σ → Int → Bool → Int → Option (Bool × Int × σ)
  | 0, _, _, _, _ => none
  | n+1, s, c, isNegative, value => do
    let (isNegative, value) := accept ignore c isNegative value
    let (_, s) := d.read s
    let (c, s) ← timedPeek d timeout n s
    if (48 ≤ c ∧ c ≤ 57) ∨ c = ignore.toNat then parseLoop d timeout ignore n s c isNegative value
    else some (isNegative, value, s)

def parseInt (d : Device σ) (timeout : Nat) (lookahead : LookaheadMode) (ignore : UInt8) (n : Nat)
    (s : σ) : Option (Int × σ) := do
  let (c, s) ← peekNextDigit d timeout lookahead false n s
  if c < 0 then some (0, s)
  else do
    let (isNegative, value, s) ← parseLoop d timeout ignore n s c false 0
    some (if isNegative then long (-value) else value, s)

/-- `u` is `t` with more chars `ignore` behind its first digit. -/
def Inserted (ignore : UInt8) (t u : List UInt8) : Prop :=
  ∃ sg c v w, t = sg ++ c :: v ∧ u = sg ++ c :: w ∧ IsDigit c ∧ (∀ x ∈ sg, ¬ IsDigit x) ∧
    w.filter (· ≠ ignore) = v

variable {d : Device σ} {timeout n m : Nat} {lookahead : LookaheadMode} {detectDecimal : Bool}
  {ignore c : UInt8} {s : σ} {t u v w suf : List UInt8} {ds : List Nat}

theorem peekNextDigit_mono {r : Int × σ}
    (h : peekNextDigit d timeout lookahead detectDecimal n s = some r) (hle : n ≤ m) :
    peekNextDigit d timeout lookahead detectDecimal m s = some r := by
  induction n generalizing m s with
  | zero => cases h
  | succ n ih =>
    cases m with
    | zero => omega
    | succ m =>
      rw [peekNextDigit] at h ⊢
      obtain ⟨x, hx, h⟩ := Option.bind_eq_some_iff.mp h
      refine Option.bind_eq_some_iff.mpr ⟨x, timedPeek_mono hx (by omega), ?_⟩
      dsimp only at h ⊢
      split at h
      · next hc => rwa [if_pos hc]
      · next hc =>
        rw [if_neg hc]
        cases lookahead with
        | skipNone => exact h
        | skipAll => exact ih h (by omega)
        | skipWhitespace =>
          dsimp only at h ⊢
          split at h
          · next hw =>
            rw [if_pos hw]
            exact ih h (by omega)
          · next hw => rwa [if_neg hw]

theorem parseLoop_mono {c : Int} {neg : Bool} {value : Int} {r : Bool × Int × σ}
    (h : parseLoop d timeout ignore n s c neg value = some r) (hle : n ≤ m) :
    parseLoop d timeout ignore m s c neg value = some r := by
  induction n generalizing m s c neg value with
  | zero => cases h
  | succ n ih =>
    cases m with
    | zero => omega
    | succ m =>
      rw [parseLoop] at h ⊢
      obtain ⟨x, hx, h⟩ := Option.bind_eq_some_iff.mp h
      refine Option.bind_eq_some_iff.mpr ⟨x, timedPeek_mono hx (by omega), ?_⟩
      dsimp only at h ⊢
      split at h
      · next hc =>
        rw [if_pos hc]
        exact ih h (by omega)
      · next hc => rwa [if_neg hc]

/-- What is neither a digit nor a minus sign is skipped. -/
theorem peekNextDigit_skips (D : Delivery d timeout) (hpre : ∀ x ∈ u, ¬ IsDigit x ∧ x ≠ 45)
    (hc : IsDigit c ∨ c = 45) (h : D.holds (u ++ c :: w) s) :
    ∃ n s', peekNextDigit d timeout .skipAll false n s = some ((c.toNat : Int), s') ∧
      D.holds w (d.read s').2 := by
  induction u generalizing s with
  | nil =>
    obtain ⟨n, s', hn, -, hread⟩ := D.peek_byte h
    refine ⟨n + 1, s', ?_, hread⟩
    rw [peekNextDigit, hn]
    dsimp only [Option.bind_eq_bind, Option.bind_some]
    rw [if_pos]
    cases hc with
    | inl hdigit =>
      obtain ⟨hlow, hhigh⟩ := hdigit
      omega
    | inr hminus =>
      subst hminus
      exact .inr (.inl rfl)
  | cons x u ih =>
    obtain ⟨hdigit, hminus⟩ := hpre x List.mem_cons_self
    obtain ⟨n, s₁, hn, -, hread⟩ := D.peek_byte h
    obtain ⟨m, s', hm, hrest⟩ := ih (fun y hy => hpre y (List.mem_cons_of_mem x hy)) hread
    refine ⟨max n m + 1, s', ?_, hrest⟩
    rw [peekNextDigit, timedPeek_mono hn (Nat.le_max_left n m)]
    dsimp only [Option.bind_eq_bind, Option.bind_some]
    rw [if_neg]
    · exact peekNextDigit_mono hm (Nat.le_max_right n m)
    · have hne : x.toNat ≠ 45 := fun h45 => hminus (UInt8.toNat_inj.mp h45)
      unfold IsDigit at hdigit
      simp only [Bool.false_eq_true, false_and, or_false]
      omega

theorem goesOn_iff (x ignore : UInt8) :
    ((48 ≤ (x.toNat : Int) ∧ (x.toNat : Int) ≤ 57) ∨ (x.toNat : Int) = ignore.toNat) ↔
      IsDigit x ∨ x = ignore := by
  have hsame : (x.toNat : Int) = ignore.toNat ↔ x = ignore :=
    Int.ofNat_inj.trans UInt8.toNat_inj
  have hdigit : (48 ≤ (x.toNat : Int) ∧ (x.toNat : Int) ≤ 57) ↔ IsDigit x := by
    rw [IsDigit]
    omega
  rw [hsame, hdigit]

theorem timedPeek_stops (D : Delivery d timeout)
    (hsuf : ∀ x ∈ suf.head?, ¬ IsDigit x ∧ x ≠ ignore) (h : D.holds suf s) :
    ∃ n s' y, timedPeek d timeout n s = some (y, s') ∧ D.holds suf s' ∧
      ¬ ((48 ≤ y ∧ y ≤ 57) ∨ y = ignore.toNat) := by
  cases suf with
  | nil =>
    obtain ⟨n, s', hn, hs'⟩ := D.peek_end h
    exact ⟨n, s', -1, hn, hs', by omega⟩
  | cons y suf =>
    obtain ⟨n, s', hn, hs', -⟩ := D.peek_byte h
    refine ⟨n, s', y.toNat, hn, hs', ?_⟩
    rw [goesOn_iff, not_or]
    exact hsuf y rfl

/-- The loop goes on over digits and ignored chars, and stops in front of another one. -/
theorem parseLoop_spec (D : Delivery d timeout) (hv : ∀ x ∈ v, IsDigit x ∨ x = ignore)
    (hsuf : ∀ x ∈ suf.head?, ¬ IsDigit x ∧ x ≠ ignore) (c : UInt8) (neg : Bool) (value : Int)
    (h : D.holds (v ++ suf) (d.read s).2) :
    ∃ n s', parseLoop d timeout ignore n s c.toNat neg value =
      some (((c :: v).foldl (fun p x => accept ignore x.toNat p.1 p.2) (neg, value)).1,
        ((c :: v).foldl (fun p x => accept ignore x.toNat p.1 p.2) (neg, value)).2, s') ∧
      D.holds suf s' := by
  induction v generalizing s c neg value with
  | nil =>
    obtain ⟨n, s', y, hn, hs', hstop⟩ := timedPeek_stops D hsuf h
    refine ⟨n + 1, s', ?_, hs'⟩
    rw [parseLoop]
    dsimp only
    rw [hn]
    dsimp only [Option.bind_eq_bind, Option.bind_some]
    rw [if_neg hstop]
    rfl
  | cons x v ih =>
    obtain ⟨n, s₁, hn, -, hread⟩ := D.peek_byte h
    obtain ⟨m, s', hm, hs'⟩ := ih (fun y hy => hv y (List.mem_cons_of_mem x hy)) x
      (accept ignore c.toNat neg value).1 (accept ignore c.toNat neg value).2 hread
    refine ⟨max n m + 1, s', ?_, hs'⟩
    rw [parseLoop]
    dsimp only
    rw [timedPeek_mono hn (Nat.le_max_left n m)]
    dsimp only [Option.bind_eq_bind, Option.bind_some]
    rw [if_pos ((goesOn_iff x ignore).mpr (hv x List.mem_cons_self))]
    exact parseLoop_mono hm (Nat.le_max_right n m)

/-! The value of a numeral. -/

def parsed (ignore : UInt8) (t : List UInt8) (p : Bool × Int) : Bool × Int :=
  t.foldl (fun p x => accept ignore x.toNat p.1 p.2) p

theorem parsed_filter (ignore : UInt8) (u : List UInt8) (p : Bool × Int) :
    parsed ignore (u.filter (· ≠ ignore)) p = parsed ignore u p := by
  induction u generalizing p with
  | nil => rfl
  | cons x u ih =>
    by_cases hx : x = ignore
    · have hskip : accept ignore x.toNat p.1 p.2 = p := by rw [accept, if_pos (by rw [hx])]
      rw [List.filter_cons_of_neg (by simp [hx]), ih]
      rw [parsed, parsed, List.foldl_cons, hskip]
    · rw [List.filter_cons_of_pos (by simp [hx])]
      exact ih _

theorem long_step (v k : Int) : long (long v * 10 + k - 48) = long (v * 10 + k - 48) := by
  unfold long
  rw [Int.add_sub_assoc, Int.add_sub_assoc, ← Int.bmod_add_bmod, Int.bmod_mul_bmod,
    Int.bmod_add_bmod]

theorem long_of_range {v : Int} (hlow : -2^31 ≤ v) (hhigh : v < 2^31) : long v = v := by
  apply Int.bmod_eq_of_le
  · omega
  · omega

theorem long_neg_long (v : Int) : long (-long v) = long (-v) := by
  unfold long
  rw [← Int.neg_one_mul, ← Int.neg_one_mul v, Int.mul_comm, Int.bmod_mul_bmod, Int.mul_comm]

theorem accept_digit (hignore : ¬ IsDigit ignore) {k : Nat} (hk : k < 10) (neg : Bool) (v : Int) :
    accept ignore (Print.digit k).toNat neg (long v) = (neg, long (v * 10 + k)) := by
  have hne : ¬ ((k + 48 : Nat) : Int) = ignore.toNat := by
    intro he
    apply hignore
    rw [IsDigit, ← Int.ofNat.inj he]
    omega
  have hvalue : v * 10 + ((k + 48 : Nat) : Int) - 48 = v * 10 + k := by omega
  rw [accept, Print.digit_toNat hk, if_neg hne, if_neg (by omega), if_pos (by omega), long_step, hvalue]

theorem parsed_digits (hignore : ¬ IsDigit ignore) (hds : ∀ k ∈ ds, k < 10) (neg : Bool) :
    parsed ignore (ds.map Print.digit) (neg, 0) = (neg, long (value 10 ds)) := by
  induction ds using List.reverseRecOn with
  | nil => rfl
  | append_singleton ds k ih =>
    have hk := accept_digit hignore (hds k (by simp)) neg (value 10 ds)
    have hrest := ih fun j hj => hds j (List.mem_append_left _ hj)
    rw [parsed] at hrest ⊢
    rw [List.map_append, List.foldl_append, hrest, value_append]
    simpa using hk

theorem parsed_text {v : Int} (hlow : -2^31 ≤ v) (hhigh : v < 2^31) (hignore : ¬ IsDigit ignore)
    (hminus : ignore ≠ 45) : ∃ value, parsed ignore (Print.text 10 v) (false, 0) =
      (decide (v < 0), value) ∧ (if v < 0 then long (-value) else value) = v := by
  have hds := (isNumeral_numeral (show 2 ≤ 10 by omega) v.natAbs).digit
  have hvalue := value_numeral 10 v.natAbs
  refine ⟨long v.natAbs, ?_, ?_⟩
  · rw [Print.text]
    by_cases hneg : v < 0
    · have hsign : accept ignore (45 : UInt8).toNat false 0 = (true, 0) := by
        have hne : ¬ ((45 : UInt8).toNat : Int) = ignore.toNat := by
          intro he
          exact hminus (UInt8.toNat_inj.mp (Int.ofNat.inj he)).symm
        rw [accept, if_neg hne]
        rfl
      rw [if_pos hneg, List.singleton_append]
      have hrest := parsed_digits hignore hds true
      rw [hvalue, parsed] at hrest
      rw [parsed, List.foldl_cons, hsign, hrest, decide_eq_true hneg]
    · rw [if_neg hneg, List.nil_append, parsed_digits hignore hds, hvalue, decide_eq_false hneg]
  · split
    · rw [long_neg_long, long_of_range (by omega) (by omega)]
      omega
    · rw [long_of_range (by omega) (by omega)]
      omega

/-! The way back. -/

theorem printed_text {v : Int} {junk : List UInt8} {k : Nat} (hlow : -2^31 ≤ v) (hhigh : v < 2^31)
    (h : Print.printLong Print.log [] v 10 junk = .ok (t, k)) : t = Print.text 10 v := by
  obtain ⟨k', hk', -⟩ := Print.printLong_prints Print.log [] hlow hhigh junk
  rw [h, Print.written_log, List.nil_append] at hk'
  exact (Prod.mk.inj (Except.ok.inj hk')).1

theorem inserted_digits {v : List UInt8} {sg : List UInt8} (h : ∀ x ∈ sg ++ c :: v, IsDigit x)
    (hsg : ∀ x ∈ sg, ¬ IsDigit x) : sg = [] := by
  cases sg with
  | nil => rfl
  | cons x sg => exact absurd (h x (by simp)) (hsg x List.mem_cons_self)

theorem digit_or_ignored (h : ∀ x ∈ w.filter (· ≠ ignore), IsDigit x) :
    ∀ x ∈ w, IsDigit x ∨ x = ignore := by
  intro x hx
  by_cases hsame : x = ignore
  · exact .inr hsame
  · exact .inl (h x (List.mem_filter.mpr ⟨hx, by simp [hsame]⟩))

theorem inserted_text {v : Int} (hignore : ¬ IsDigit ignore) (hminus : ignore ≠ 45)
    (h : Inserted ignore (Print.text 10 v) u) :
    u.filter (· ≠ ignore) = Print.text 10 v ∧ ∃ x w, u = x :: w ∧ (IsDigit x ∨ x = 45) ∧
      ∀ y ∈ w, IsDigit y ∨ y = ignore := by
  obtain ⟨sg, c, v', w, ht, rfl, hc, hsg, hfilter⟩ := h
  have hdigits := Print.isDigit_numeral v.natAbs
  have hcne : c ≠ ignore := fun he => hignore (he ▸ hc)
  rw [Print.text] at ht ⊢
  by_cases hneg : v < 0
  · rw [if_pos hneg, List.singleton_append] at ht ⊢
    cases sg with
    | nil =>
      obtain rfl := (List.cons.inj ht).1
      exact absurd hc (by decide)
    | cons x sg =>
      obtain rfl := (List.cons.inj ht).1
      have htail : (numeral 10 v.natAbs).map Print.digit = sg ++ c :: v' := (List.cons.inj ht).2
      rw [htail] at hdigits
      obtain rfl := inserted_digits hdigits fun y hy => hsg y (List.mem_cons_of_mem _ hy)
      rw [htail, ← hfilter]
      refine ⟨by simp [Ne.symm hminus, hcne], 45, c :: w, rfl, .inr rfl, ?_⟩
      apply digit_or_ignored
      rw [List.filter_cons_of_pos (by simp [hcne]), hfilter]
      exact hdigits
  · rw [if_neg hneg, List.nil_append] at ht ⊢
    rw [ht] at hdigits
    obtain rfl := inserted_digits hdigits hsg
    rw [ht, ← hfilter]
    refine ⟨by simp [hcne], c, w, rfl, .inl hc, ?_⟩
    apply digit_or_ignored
    rw [hfilter]
    exact fun y hy => hdigits y (List.mem_cons_of_mem c hy)

/-- parseInt() returns the number that was printed, and leaves what is behind its numeral. -/
theorem parseInt_print (D : Delivery d timeout) {v : Int} (hlow : -2^31 ≤ v) (hhigh : v < 2^31)
    {junk : List UInt8} {k : Nat} (hprint : Print.printLong Print.log [] v 10 junk = .ok (t, k))
    {pre : List UInt8} (hpre : ∀ x ∈ pre, ¬ IsDigit x ∧ x ≠ 45) (hignore : ¬ IsDigit ignore)
    (hminus : ignore ≠ 45) (hins : Inserted ignore t u)
    (hsuf : ∀ x ∈ suf.head?, ¬ IsDigit x ∧ x ≠ ignore) (h : D.holds (pre ++ (u ++ suf)) s) :
    ∃ n s', parseInt d timeout .skipAll ignore n s = some (v, s') ∧ D.holds suf s' := by
  obtain rfl := printed_text hlow hhigh hprint
  obtain ⟨hfilter, x, w, rfl, hx, hw⟩ := inserted_text hignore hminus hins
  obtain ⟨n, s₁, hn, hread⟩ := peekNextDigit_skips D hpre hx h
  obtain ⟨m, s', hm, hs'⟩ := parseLoop_spec D hw hsuf x false 0 hread
  obtain ⟨value, hvalue, hresult⟩ := parsed_text hlow hhigh hignore hminus
  rw [← hfilter, parsed_filter] at hvalue
  refine ⟨max n m, s', ?_, hs'⟩
  rw [← parsed, hvalue] at hm
  rw [parseInt, peekNextDigit_mono hn (Nat.le_max_left n m)]
  dsimp only [Option.bind_eq_bind, Option.bind_some]
  rw [if_neg (by omega), parseLoop_mono hm (Nat.le_max_right n m)]
  dsimp only [Option.bind_some]
  simp only [decide_eq_true_eq, hresult]

/-- "x-1,2,y" with commas ignored. -/
theorem parseInt_print_grouped : ∃ n s', parseInt queue 5 .skipAll 44 n
    ([120, 45, 49, 44, 50, 44, 121], 0) = some (-12, s') ∧
      (queueDelivery (show 5 < 2^32 by norm_num)).holds [121] s' := by
  have hprint : Print.printLong Print.log [] (-12) 10 [] = .ok ([45, 49, 50], 3) := by
    decide +kernel
  have hins : Inserted 44 [45, 49, 50] [45, 49, 44, 50, 44] :=
    ⟨[45], 49, [50], [44, 50, 44], rfl, rfl, by decide,
      List.forall_mem_singleton.mpr (by decide), rfl⟩
  have hpre : ∀ x ∈ [120], ¬ IsDigit x ∧ x ≠ 45 := List.forall_mem_singleton.mpr (by decide)
  have hsuf : ∀ x ∈ [121].head?, ¬ IsDigit x ∧ x ≠ 44 := by
    intro x hx
    obtain rfl := Option.some.inj hx
    decide
  exact parseInt_print (queueDelivery (show 5 < 2^32 by norm_num)) (by omega) (by omega) hprint hpre
    (by decide) (by decide) hins hsuf rfl

end RasPiArduino.TimedStream
