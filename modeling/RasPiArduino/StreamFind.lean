import RasPiArduino.Matching
import RasPiArduino.Occurrence
import RasPiArduino.TimedStream

/-! Stream::find() and findUntil(): which data they find the target in. -/
namespace RasPiArduino.TimedStream
open Matching Occurrence
variable {σ : Type}

/-- The char at a place of a C string, as an int; a char is unsigned. -/
def charAt (t : List UInt8) (i : Nat) : Int := ((t ++ [0]).getD i 0).toNat

def findTurn (target terminator : List UInt8) (c : Int) (index termIndex : Nat) :
    Bool ⊕ (Nat × Nat) :=
  let index := if c ≠ charAt target index then 0 else index
  if c = charAt target index ∧ index + 1 ≥ target.length then .inl true
  else
    let index := if c = charAt target index then index + 1 else index
    if terminator.length > 0 ∧ c = charAt terminator termIndex then
      if termIndex + 1 ≥ terminator.length then .inl false else .inr (index, termIndex + 1)
    else .inr (index, 0)

def findLoop (d : Device σ) (timeout : Nat) (target terminator : List UInt8) :
    Nat → Nat → Nat → σ → Option (Bool × σ)
  | 0, _, _, _ => none
  | n+1, index, termIndex, s => do
    let (c, s) ← timedRead d timeout n s
    if c > 0 then
      match findTurn target terminator c index termIndex with
      | .inl found => some (found, s)
      | .inr (index, termIndex) => findLoop d timeout target terminator n index termIndex s
    else some (false, s)

def findUntil (d : Device σ) (timeout : Nat) (target terminator : List UInt8) (n : Nat) (s : σ) :
    Option (Bool × σ) :=
  if charAt target 0 = 0 then some (true, s) else findLoop d timeout target terminator n 0 0 s

def find (d : Device σ) (timeout : Nat) (target : List UInt8) (n : Nat) (s : σ) :
    Option (Bool × σ) :=
  findUntil d timeout target [] n s

def EndsAt (u t : List UInt8) (e : Nat) : Prop :=
  ∃ g w, t = g ++ (u ++ w) ∧ e = g.length + u.length

/-- An occurrence of the target ends no later than any of the terminator. -/
def TargetFirst (target terminator t : List UInt8) : Prop :=
  ∃ e, EndsAt target t e ∧ (terminator ≠ [] → ∀ e', EndsAt terminator t e' → e ≤ e')

/-- What the result should be, and what should be left to read. -/
structure Finds (target terminator t : List UInt8) (found : Bool) (rest : List UInt8) : Prop where
  found : found = true ↔ TargetFirst target terminator t
  onTarget : TargetFirst target terminator t → ∀ e, IsLeast {e | EndsAt target t e} e →
    rest = t.drop e
  onTerminator : terminator ≠ [] → ¬ TargetFirst target terminator t →
    ∀ e, IsLeast {e | EndsAt terminator t e} e → rest = t.drop e

/-- Of the two words the one that should be met is met: in front of it there is no NUL, and
what is there falls into pieces. -/
structure Clear (target terminator t : List UInt8) : Prop where
  onTarget : TargetFirst target terminator t → ∀ g w, t = g ++ (target ++ w) →
    IsLeast {e | EndsAt target t e} (g.length + target.length) →
    0 ∉ g ∧ Falls target (target ++ w) g
  onTerminator : terminator ≠ [] → ¬ TargetFirst target terminator t →
    ∀ g w, t = g ++ (terminator ++ w) →
    IsLeast {e | EndsAt terminator t e} (g.length + terminator.length) →
    0 ∉ g ∧ (Skips terminator g ∨ w = [])

def scan (target terminator : List UInt8) : Nat → Nat → List UInt8 → Bool × List UInt8
  | _, _, [] => (false, [])
  | i, j, c :: t =>
    if c = 0 then (false, t)
    else if retry target i c = target.length then (true, t)
    else if terminator ≠ [] ∧ restart terminator j c = terminator.length then (false, t)
    else scan target terminator (retry target i c) (restart terminator j c) t

variable {d : Device σ} {timeout n m i j e : Nat} {s : σ} {c : UInt8}
  {target terminator t u g w rest p : List UInt8}

theorem findLoop_mono {r : Bool × σ} (h : findLoop d timeout target terminator n i j s = some r)
    (hle : n ≤ m) : findLoop d timeout target terminator m i j s = some r := by
  induction n generalizing m i j s with
  | zero => cases h
  | succ n ih =>
    cases m with
    | zero => omega
    | succ m =>
      rw [findLoop] at h ⊢
      obtain ⟨x, hx, h⟩ := Option.bind_eq_some_iff.mp h
      refine Option.bind_eq_some_iff.mpr ⟨x, timedRead_mono hx (by omega), ?_⟩
      dsimp only at h ⊢
      split at h
      · next hc =>
        rw [if_pos hc]
        cases hturn : findTurn target terminator x.1 i j with
        | inl found =>
          rw [hturn] at h
          exact h
        | inr indices =>
          rw [hturn] at h
          exact ih h (by omega)
      · next hc => rwa [if_neg hc]

theorem charAt_iff (hc : c ≠ 0) (t : List UInt8) (i : Nat) :
    (c.toNat : Int) = charAt t i ↔ t[i]? = some c := by
  rw [charAt, Int.ofNat_inj, UInt8.toNat_inj, List.getD_eq_getElem?_getD]
  by_cases hi : i < t.length
  · rw [List.getElem?_append_left hi, List.getElem?_eq_getElem hi]
    simp [eq_comm]
  · have hnul : ((t ++ [0])[i]?).getD 0 = 0 := by
      rw [List.getElem?_append_right (by omega)]
      cases i - t.length <;> rfl
    rw [hnul, List.getElem?_eq_none (by omega)]
    simp [hc]

theorem termTurn_eq (hc : c ≠ 0) (terminator : List UInt8) (index j : Nat) :
    (if terminator.length > 0 ∧ (c.toNat : Int) = charAt terminator j then
      if j + 1 ≥ terminator.length then .inl false else .inr (index, j + 1)
    else (.inr (index, 0) : Bool ⊕ (Nat × Nat))) =
      if terminator ≠ [] ∧ restart terminator j c = terminator.length then .inl false
      else .inr (index, restart terminator j c) := by
  simp only [charAt_iff hc]
  by_cases hj : terminator[j]? = some c
  · have hlt := (List.getElem?_eq_some_iff.mp hj).1
    have hne : terminator ≠ [] := List.ne_nil_of_length_pos (by omega)
    rw [restart_match hj, if_pos ⟨by omega, hj⟩]
    by_cases hlast : j + 1 = terminator.length
    · rw [if_pos hlast.ge, if_pos ⟨hne, hlast⟩]
    · rw [if_neg (by omega), if_neg (fun h => hlast h.2)]
  · rw [restart_mismatch hj, if_neg (fun h => hj h.2), if_neg]
    intro h
    exact h.1 (List.eq_nil_of_length_eq_zero h.2.symm)

theorem findTurn_eq (hne : target ≠ []) (hc : c ≠ 0) (terminator : List UInt8) (i j : Nat) :
    findTurn target terminator c.toNat i j =
      if retry target i c = target.length then .inl true
      else if terminator ≠ [] ∧ restart terminator j c = terminator.length then .inl false
      else .inr (retry target i c, restart terminator j c) := by
  have hpos := List.length_pos_iff.mpr hne
  have hreset : (if (c.toNat : Int) ≠ charAt target i then 0 else i) =
      if target[i]? = some c then i else 0 := by
    simp only [ne_eq, charAt_iff hc, ite_not]
  simp only [findTurn, hreset, termTurn_eq hc]
  by_cases hi : target[i]? = some c
  · have hlt := (List.getElem?_eq_some_iff.mp hi).1
    simp only [if_pos hi, retry_match hi, (charAt_iff hc target i).mpr hi, true_and, if_true]
    by_cases hlast : i + 1 = target.length
    · rw [if_pos hlast.ge, if_pos hlast]
    · rw [if_neg (by omega), if_neg hlast]
  · simp only [if_neg hi, retry_mismatch hi]
    by_cases h0 : target[0]? = some c
    · simp only [retry_match h0, (charAt_iff hc target 0).mpr h0, true_and, if_true]
      by_cases hlast : 0 + 1 = target.length
      · rw [if_pos hlast.ge, if_pos hlast]
      · rw [if_neg (by omega), if_neg hlast]
    · have hmiss : ¬ (c.toNat : Int) = charAt target 0 := fun h => h0 ((charAt_iff hc target 0).mp h)
      simp only [retry_zero h0, hmiss, false_and, if_false]
      rw [if_neg (show ¬ 0 = target.length by omega)]

theorem findLoop_turn {s₁ : σ} (hn : timedRead d timeout n s = some ((c.toNat : Int), s₁))
    (hne : target ≠ []) (hc : c ≠ 0) :
    findLoop d timeout target terminator (n + 1) i j s =
      if retry target i c = target.length then some (true, s₁)
      else if terminator ≠ [] ∧ restart terminator j c = terminator.length then some (false, s₁)
      else findLoop d timeout target terminator n (retry target i c) (restart terminator j c) s₁ := by
  have hcpos : (c.toNat : Int) > 0 := by
    have hne0 : c.toNat ≠ 0 := fun h0 => hc (UInt8.toNat_inj.mp h0)
    omega
  rw [findLoop, hn]
  dsimp only [Option.bind_eq_bind, Option.bind_some]
  rw [if_pos hcpos, findTurn_eq hne hc]
  by_cases hfound : retry target i c = target.length
  · simp only [if_pos hfound]
  · simp only [if_neg hfound]
    by_cases hlast : terminator ≠ [] ∧ restart terminator j c = terminator.length
    · simp only [if_pos hlast]
    · simp only [if_neg hlast]

theorem findLoop_scan (D : Delivery d timeout) (hne : target ≠ []) (h : D.holds t s) (i j : Nat) :
    ∃ n s', findLoop d timeout target terminator n i j s =
      some ((scan target terminator i j t).1, s') ∧
        D.holds (scan target terminator i j t).2 s' := by
  induction t generalizing s i j with
  | nil =>
    obtain ⟨n, s', hn, hs'⟩ := D.read_end h
    refine ⟨n + 1, s', ?_, hs'⟩
    rw [findLoop, hn]
    rfl
  | cons c t ih =>
    obtain ⟨n, s₁, hn, hs₁⟩ := D.read_byte h
    rw [scan]
    by_cases hc : c = 0
    · subst hc
      refine ⟨n + 1, s₁, ?_, hs₁⟩
      rw [findLoop, hn]
      rfl
    · rw [if_neg hc]
      split
      · next hfound =>
        refine ⟨n + 1, s₁, ?_, hs₁⟩
        rw [findLoop_turn hn hne hc, if_pos hfound]
      · next hfound =>
        split
        · next hterm =>
          refine ⟨n + 1, s₁, ?_, hs₁⟩
          rw [findLoop_turn hn hne hc, if_neg hfound, if_pos hterm]
        · next hterm =>
          obtain ⟨m, s', hm, hs'⟩ := ih hs₁ (retry target i c) (restart terminator j c)
          refine ⟨max n m + 1, s', ?_, hs'⟩
          have hread := timedRead_mono hn (Nat.le_max_left n m)
          rw [findLoop_turn hread hne hc, if_neg hfound, if_neg hterm]
          exact findLoop_mono hm (Nat.le_max_right n m)

/-! The scan. -/

theorem scan_true (h : scan target terminator i j t = (true, w)) :
    hit (retry target) target.length i t = some w ∧ ∃ p, t = p ++ w ∧ 0 ∉ p := by
  induction t generalizing i j with
  | nil => cases h
  | cons c t ih =>
    rw [scan] at h
    split at h
    · cases h
    · next hc =>
      rw [hit]
      split at h
      · next hfound =>
        obtain rfl := (Prod.mk.inj h).2
        rw [if_pos hfound]
        exact ⟨rfl, [c], rfl, by simpa using Ne.symm hc⟩
      · next hfound =>
        split at h
        · cases h
        · obtain ⟨hhit, p, rfl, hp⟩ := ih h
          rw [if_neg hfound]
          exact ⟨hhit, c :: p, rfl, by simpa using ⟨Ne.symm hc, hp⟩⟩

/-- A scan that does not find the target ends at a NUL, or at the terminator, or at the end. -/
theorem scan_false (hne : terminator ≠ []) (h : scan target terminator i j t = (false, w)) :
    ∃ p, t = p ++ w ∧ ((∃ q, p = q ++ [0]) ∨
      0 ∉ p ∧ (hit (restart terminator) terminator.length j t = some w ∨ w = [])) := by
  induction t generalizing i j with
  | nil =>
    obtain rfl := (Prod.mk.inj h).2
    exact ⟨[], rfl, .inr ⟨List.not_mem_nil, .inr rfl⟩⟩
  | cons c t ih =>
    rw [scan] at h
    split at h
    · next hc =>
      obtain rfl := (Prod.mk.inj h).2
      exact ⟨[c], rfl, .inl ⟨[], by rw [hc]; rfl⟩⟩
    · next hc =>
      rw [hit]
      split at h
      · cases h
      · split at h
        · next hterm =>
          obtain rfl := (Prod.mk.inj h).2
          rw [if_pos hterm.2]
          exact ⟨[c], rfl, .inr ⟨by simpa using Ne.symm hc, .inl rfl⟩⟩
        · next hterm =>
          obtain ⟨p, rfl, hend⟩ := ih h
          refine ⟨c :: p, rfl, ?_⟩
          cases hend with
          | inl hnul =>
            obtain ⟨q, rfl⟩ := hnul
            exact .inl ⟨c :: q, rfl⟩
          | inr hend =>
            rw [if_neg fun hlast => hterm ⟨hne, hlast⟩]
            exact .inr ⟨by simpa using ⟨Ne.symm hc, hend.1⟩, hend.2⟩

theorem cons_of_append (h : c :: t = p ++ w) (hlen : w.length ≤ t.length) :
    ∃ q, p = c :: q ∧ t = q ++ w := by
  cases p with
  | nil =>
    rw [List.nil_append] at h
    rw [← h, List.length_cons] at hlen
    omega
  | cons x q =>
    obtain ⟨hx, ht⟩ := List.cons.inj h
    exact ⟨q, by rw [hx], ht⟩

theorem scan_of_target (hw : hit (retry target) target.length i t = some w) (ht : t = p ++ w)
    (hp : 0 ∉ p) (hterm : terminator ≠ [] →
      ∀ w' ∈ hit (restart terminator) terminator.length j t, w'.length ≤ w.length) :
    scan target terminator i j t = (true, w) := by
  induction t generalizing i j p with
  | nil => cases hw
  | cons c t ih =>
    obtain ⟨q, rfl, htq⟩ := cons_of_append ht (Nat.le_of_lt_succ (length_lt_of_hit hw))
    obtain ⟨hc, hq⟩ := not_or.mp (List.mem_cons.not.mp hp)
    rw [hit] at hw hterm
    rw [scan, if_neg (Ne.symm hc)]
    split at hw
    · next hfound =>
      obtain rfl := Option.some.inj hw
      rw [if_pos hfound]
    · next hfound =>
      rw [if_neg hfound]
      split
      · next hlast =>
        have hle := hterm hlast.1 t (by rw [if_pos hlast.2]; rfl)
        have hlt := length_lt_of_hit hw
        omega
      · next hlast =>
        refine ih hw htq hq fun hne w' hw' => hterm hne w' ?_
        rwa [if_neg fun he => hlast ⟨hne, he⟩]

theorem scan_of_terminator (hne : terminator ≠ [])
    (hw : hit (restart terminator) terminator.length j t = some w) (ht : t = p ++ w) (hp : 0 ∉ p)
    (hbefore : ∀ w' ∈ hit (retry target) target.length i t, w'.length < w.length) :
    scan target terminator i j t = (false, w) := by
  induction t generalizing i j p with
  | nil => cases hw
  | cons c t ih =>
    obtain ⟨q, rfl, htq⟩ := cons_of_append ht (Nat.le_of_lt_succ (length_lt_of_hit hw))
    obtain ⟨hc, hq⟩ := not_or.mp (List.mem_cons.not.mp hp)
    rw [hit] at hw hbefore
    rw [scan, if_neg (Ne.symm hc)]
    split at hw
    · next hlast =>
      obtain rfl := Option.some.inj hw
      rw [if_neg, if_pos ⟨hne, hlast⟩]
      intro hfound
      have hlt := hbefore t (by rw [if_pos hfound]; rfl)
      omega
    · next hlast =>
      have hfound : ¬ retry target i c = target.length := by
        intro hfound
        have hlt := hbefore t (by rw [if_pos hfound]; rfl)
        have hlen := length_lt_of_hit hw
        omega
      rw [if_neg hfound, if_neg fun h => hlast h.2]
      refine ih hw htq hq fun w' hw' => hbefore w' ?_
      rwa [if_neg hfound]

theorem scan_at_end (hnul : 0 ∉ t) (htarget : hit (retry target) target.length i t = none)
    (hterm : terminator ≠ [] →
      ∀ w' ∈ hit (restart terminator) terminator.length j t, w' = []) :
    scan target terminator i j t = (false, []) := by
  induction t generalizing i j with
  | nil => rfl
  | cons c t ih =>
    obtain ⟨hc, hnul⟩ := not_or.mp (List.mem_cons.not.mp hnul)
    rw [hit] at htarget hterm
    rw [scan, if_neg (Ne.symm hc)]
    split at htarget
    · cases htarget
    · next hfound =>
      rw [if_neg hfound]
      split
      · next hlast =>
        rw [hterm hlast.1 t (by rw [if_pos hlast.2]; rfl)]
      · next hlast =>
        refine ih hnul htarget fun hne w' hw' => hterm hne w' ?_
        rwa [if_neg fun he => hlast ⟨hne, he⟩]

/-! Which of the words ends first. -/

theorem endsAt_of_hit {step : Nat → UInt8 → Nat} (h : Tracks u step) (hu : u ≠ [])
    (hw : hit step u.length 0 t = some w) : ∃ e, EndsAt u t e ∧ t.length = e + w.length := by
  obtain ⟨g, rfl⟩ := hit_sound_from_start h hu hw
  refine ⟨_, ⟨g, w, rfl, rfl⟩, ?_⟩
  simp only [List.length_append]
  omega

theorem exists_least (h : ∃ e, EndsAt u t e) : ∃ e, IsLeast {e | EndsAt u t e} e := by
  classical
  exact ⟨Nat.find h, Nat.find_spec h, fun _ he => Nat.find_min' h he⟩

theorem drop_ends (g u w : List UInt8) : (g ++ (u ++ w)).drop (g.length + u.length) = w := by
  rw [← List.append_assoc, ← List.length_append, List.drop_left]

theorem scan_target_iff (htn : 0 ∉ target) (hne : target ≠ []) (ht : t = g ++ (target ++ w))
    (hfirst : terminator ≠ [] → ∀ e', EndsAt terminator t e' → g.length + target.length ≤ e') :
    scan target terminator 0 0 t = (true, w) ↔ 0 ∉ g ∧ Falls target (target ++ w) g := by
  rw [← hit_retry_iff hne, ← ht]
  have hsplit : t = (g ++ target) ++ w := by rw [ht, List.append_assoc]
  constructor
  · intro h
    obtain ⟨hhit, p, hp, hnul⟩ := scan_true h
    refine ⟨fun hmem => hnul ?_, hhit⟩
    rw [← List.append_cancel_right (hsplit.symm.trans hp)]
    exact List.mem_append_left _ hmem
  · intro h
    refine scan_of_target h.2 hsplit ?_ ?_
    · rw [List.mem_append, not_or]
      exact ⟨h.1, htn⟩
    · intro hterm w' hw'
      obtain ⟨e', he', hlen⟩ := endsAt_of_hit (tracks_restart terminator) hterm hw'
      have hle := hfirst hterm e' he'
      have htlen := congrArg List.length ht
      simp only [List.length_append] at htlen
      omega

theorem met_of_scan (hmn : 0 ∉ terminator) (hterm : terminator ≠ [])
    (ht : t = (g ++ terminator) ++ w) (h : scan target terminator 0 0 t = (false, w)) :
    0 ∉ g ∧ (hit (restart terminator) terminator.length 0 t = some w ∨ w = []) := by
  obtain ⟨p, hp, hend⟩ := scan_false hterm h
  have hpg := List.append_cancel_right (ht.symm.trans hp)
  cases hend with
  | inl hnul =>
    obtain ⟨q, rfl⟩ := hnul
    obtain ⟨m, x, rfl⟩ := (List.eq_nil_or_concat terminator).resolve_left hterm
    rw [List.concat_eq_append, ← List.append_assoc] at hpg
    obtain ⟨-, rfl⟩ := List.append_singleton_inj.mp hpg
    exact absurd (by simp) hmn
  | inr hend =>
    refine ⟨fun hmem => hend.1 ?_, hend.2⟩
    rw [← hpg]
    exact List.mem_append_left _ hmem

/-- If the terminator ends first, the scan ends there exactly if it is hit there, or if it ends
there anyway. -/
theorem scan_terminator_iff (hmn : 0 ∉ terminator) (hne : target ≠ []) (hterm : terminator ≠ [])
    (ht : t = g ++ (terminator ++ w))
    (hleast : ∀ e, EndsAt terminator t e → g.length + terminator.length ≤ e)
    (hfirst : ∀ e, EndsAt target t e → g.length + terminator.length < e) :
    scan target terminator 0 0 t = (false, w) ↔ 0 ∉ g ∧ (Skips terminator g ∨ w = []) := by
  rw [← hit_restart_iff (w := w) hterm, ← ht]
  have hsplit : t = (g ++ terminator) ++ w := by rw [ht, List.append_assoc]
  have htlen := congrArg List.length ht
  simp only [List.length_append] at htlen
  constructor
  · exact met_of_scan hmn hterm hsplit
  · intro h
    have hnul : 0 ∉ g ++ terminator := by
      rw [List.mem_append, not_or]
      exact ⟨h.1, hmn⟩
    have hbefore : ∀ w' ∈ hit (retry target) target.length 0 t, w'.length < w.length := by
      intro w' hw'
      obtain ⟨e, he, hlen⟩ := endsAt_of_hit (tracks_retry target) hne hw'
      have hlt := hfirst e he
      omega
    cases h.2 with
    | inl hhit => exact scan_of_terminator hterm hhit hsplit hnul hbefore
    | inr hnil =>
      subst hnil
      apply scan_at_end
      · rw [hsplit, List.append_nil]
        exact hnul
      · cases hhit : hit (retry target) target.length 0 t with
        | none => rfl
        | some w' =>
          have hlt := hbefore w' hhit
          simp at hlt
      · intro _ w' hw'
        obtain ⟨e', he', hlen⟩ := endsAt_of_hit (tracks_restart terminator) hterm hw'
        have hle := hleast e' he'
        rw [List.length_nil] at htlen
        exact List.eq_nil_of_length_eq_zero (by omega)

theorem TargetFirst.of_least (h : TargetFirst target terminator t)
    (he : IsLeast {e | EndsAt target t e} e) (hterm : terminator ≠ []) :
    ∀ e', EndsAt terminator t e' → e ≤ e' := by
  obtain ⟨k, hk, hfirst⟩ := h
  exact fun e' he' => (he.2 hk).trans (hfirst hterm e' he')

theorem lt_of_not_targetFirst (h : ¬ TargetFirst target terminator t)
    (he : IsLeast {e | EndsAt terminator t e} e) : ∀ k, EndsAt target t k → e < k := by
  intro k hk
  by_contra hle
  exact h ⟨k, hk, fun _ e' he' => (not_lt.mp hle).trans (he.2 he')⟩

theorem targetFirst_of_scan (hne : target ≠ []) (h : scan target terminator 0 0 t = (true, w))
    (hnone : terminator ≠ [] → ∀ e, ¬ EndsAt terminator t e) : TargetFirst target terminator t := by
  obtain ⟨e, he, -⟩ := endsAt_of_hit (tracks_retry target) hne (scan_true h).1
  exact ⟨e, he, fun hterm e' he' => absurd he' (hnone hterm e')⟩

theorem Clear.scan_target (h : Clear target terminator t) (hne : target ≠ []) (htn : 0 ∉ target)
    (hf : TargetFirst target terminator t) (he : IsLeast {e | EndsAt target t e} e) :
    scan target terminator 0 0 t = (true, t.drop e) := by
  obtain ⟨g, w, ht, rfl⟩ := he.1
  have hmet := h.onTarget hf g w ht he
  rw [(scan_target_iff htn hne ht fun hterm => hf.of_least he hterm).mpr hmet, ht, drop_ends]

theorem Clear.scan_terminator (h : Clear target terminator t) (hne : target ≠ [])
    (hmn : 0 ∉ terminator) (hterm : terminator ≠ []) (hf : ¬ TargetFirst target terminator t)
    (he : IsLeast {e | EndsAt terminator t e} e) :
    scan target terminator 0 0 t = (false, t.drop e) := by
  obtain ⟨g, w, ht, rfl⟩ := he.1
  have hmet := h.onTerminator hterm hf g w ht he
  have hiff := scan_terminator_iff hmn hne hterm ht (fun e hk => he.2 hk)
    (lt_of_not_targetFirst hf he)
  rw [hiff.mpr hmet, ht, drop_ends]

theorem clear_of_finds (hne : target ≠ []) (htn : 0 ∉ target) (hmn : 0 ∉ terminator)
    (h : Finds target terminator t (scan target terminator 0 0 t).1
      (scan target terminator 0 0 t).2) : Clear target terminator t := by
  constructor
  · intro hf g w ht hleast
    have hrest := h.onTarget hf _ hleast
    rw [ht, drop_ends, ← ht] at hrest
    exact (scan_target_iff htn hne ht fun hterm => hf.of_least hleast hterm).mp
      (Prod.ext (h.found.mpr hf) hrest)
  · intro hterm hf g w ht hleast
    have hrest := h.onTerminator hterm hf _ hleast
    rw [ht, drop_ends, ← ht] at hrest
    have hfound : (scan target terminator 0 0 t).1 = false := by
      rw [← Bool.not_eq_true]
      exact fun htrue => hf (h.found.mp htrue)
    exact (scan_terminator_iff hmn hne hterm ht (fun e he => hleast.2 he)
      (lt_of_not_targetFirst hf hleast)).mp (Prod.ext hfound hrest)

theorem finds_of_clear (hne : target ≠ []) (htn : 0 ∉ target) (hmn : 0 ∉ terminator)
    (h : Clear target terminator t) : Finds target terminator t
      (scan target terminator 0 0 t).1 (scan target terminator 0 0 t).2 := by
  by_cases hf : TargetFirst target terminator t
  · obtain ⟨e, hleast⟩ := exists_least ⟨_, hf.choose_spec.1⟩
    rw [h.scan_target hne htn hf hleast]
    refine ⟨iff_of_true rfl hf, fun _ e he => ?_, fun _ hnot => absurd hf hnot⟩
    rw [he.unique hleast]
  · refine ⟨iff_of_false ?_ hf, fun htrue => absurd htrue hf, fun hterm _ e he => ?_⟩
    · intro hfound
      by_cases hocc : terminator ≠ [] ∧ ∃ e, EndsAt terminator t e
      · obtain ⟨e, hleast⟩ := exists_least hocc.2
        rw [h.scan_terminator hne hmn hocc.1 hf hleast] at hfound
        cases hfound
      · exact hf (targetFirst_of_scan hne (Prod.ext hfound rfl)
          fun hterm e he => hocc ⟨hterm, e, he⟩)
    · rw [h.scan_terminator hne hmn hterm hf he]

theorem finds_scan_iff (hne : target ≠ []) (htn : 0 ∉ target) (hmn : 0 ∉ terminator) :
    Finds target terminator t (scan target terminator 0 0 t).1 (scan target terminator 0 0 t).2 ↔
      Clear target terminator t :=
  ⟨clear_of_finds hne htn hmn, finds_of_clear hne htn hmn⟩

/-! The calls. -/

theorem findUntil_eq (hne : target ≠ []) (htn : 0 ∉ target) (n : Nat) (s : σ) :
    findUntil d timeout target terminator n s = findLoop d timeout target terminator n 0 0 s := by
  cases target with
  | nil => exact absurd rfl hne
  | cons c target =>
    rw [findUntil, if_neg]
    intro h0
    have hc : c ≠ 0 := fun h => htn (h ▸ List.mem_cons_self)
    apply hc
    exact UInt8.toNat_inj.mp (Int.ofNat.inj h0)

def Searched (D : Delivery d timeout) (call : Nat → Option (Bool × σ))
    (target terminator t : List UInt8) : Prop :=
  ∃ n found s' rest, call n = some (found, s') ∧ D.holds rest s' ∧
    Finds target terminator t found rest

theorem searched_iff (D : Delivery d timeout) (hne : target ≠ []) (htn : 0 ∉ target)
    (hmn : 0 ∉ terminator) (h : D.holds t s) :
    Searched D (fun n => findUntil d timeout target terminator n s) target terminator t ↔
      Clear target terminator t := by
  have hloop : ∃ n s', findLoop d timeout target terminator n 0 0 s =
      some ((scan target terminator 0 0 t).1, s') ∧
        D.holds (scan target terminator 0 0 t).2 s' := findLoop_scan D hne h 0 0
  obtain ⟨m, s₁, hm, hs₁⟩ := hloop
  rw [← finds_scan_iff hne htn hmn]
  constructor
  · rintro ⟨n, found, s', rest, hn, hs', hfinds⟩
    have hn := (findUntil_eq hne htn n s).symm.trans hn
    have heq := (findLoop_mono hn (Nat.le_max_left n m)).symm.trans
      (findLoop_mono hm (Nat.le_max_right n m))
    obtain ⟨rfl, rfl⟩ := Prod.mk.inj (Option.some.inj heq)
    rwa [D.unique hs' hs₁] at hfinds
  · intro hfinds
    exact ⟨m, _, s₁, _, (findUntil_eq hne htn m s).trans hm, hs₁, hfinds⟩

/-- findUntil(), and find() as the one with an empty terminator, do what they should exactly
where the word that ends first is met. -/
theorem findUntil_iff (D : Delivery d timeout) (hne : target ≠ []) (htn : 0 ∉ target)
    (hmn : 0 ∉ terminator) (h : D.holds t s) :
    (Searched D (fun n => findUntil d timeout target terminator n s) target terminator t ↔
      Clear target terminator t) ∧
    (Searched D (fun n => find d timeout target n s) target [] t ↔ Clear target [] t) :=
  ⟨searched_iff D hne htn hmn h, searched_iff D hne htn List.not_mem_nil h⟩

/-- "b" in "ab", with the terminator "c". -/
theorem findUntil_iff_behind :
    (Searched (queueDelivery (show 5 < 2^32 by omega))
      (fun n => findUntil queue 5 [98] [99] n ([97, 98], 0)) [98] [99] [97, 98] ↔
      Clear [98] [99] [97, 98]) ∧
    (Searched (queueDelivery (show 5 < 2^32 by omega))
      (fun n => find queue 5 [98] n ([97, 98], 0)) [98] [] [97, 98] ↔ Clear [98] [] [97, 98]) :=
  findUntil_iff (queueDelivery (show 5 < 2^32 by omega)) (by simp) (by simp) (by simp) rfl

/-- The target "aab" is in "aaab", and is not found there. -/
theorem target_missed :
    TargetFirst [97, 97, 98] [] [97, 97, 97, 98] ∧
      findUntil queue 5 [97, 97, 98] [] 20 ([97, 97, 97, 98], 0) = some (false, ([], 10)) := by
  refine ⟨⟨4, ⟨[97], [], rfl, rfl⟩, fun h => absurd rfl h⟩, ?_⟩
  decide

end RasPiArduino.TimedStream
