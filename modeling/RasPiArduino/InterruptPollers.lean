import RasPiArduino.Interrupts
import RasPiArduino.Transition

/-! The threads of _isr_check_task next to the calls of the sketch: how many of them poll. -/
namespace RasPiArduino.Isr
open RasPiArduino.Transition

structure Change where
  poller : Nat
  state : BitVec 64
  changed : BitVec 32
  deriving DecidableEq, Repr

/-- Where a thread of _isr_check_task is: at the loop condition, at the read of the levels, in
front of the loop over the changes, at the test in front of usleep(100), in it, at
pthread_exit, and behind it. -/
inductive Poller where
  | test
  | sample
  | dispatch (c : Change)
  | rest
  | sleep
  | leave
  | gone
  deriving DecidableEq, Repr

def Poller.polls : Poller → Bool
  | .leave | .gone => false
  | _ => true

def Poller.held : Poller → Option Change
  | .dispatch c => some c
  | _ => none

/-- `createFailed` says that a pthread_create of attachInterrupt has failed; the two lists are
what pollers found changed and what they dispatched. -/
structure Threads where
  isr : State
  levels : Levels
  pollers : List Poller
  createFailed : Bool
  sampled : List Change
  dispatched : List Change
  deriving DecidableEq, Repr

/-- The result of pthread_create is part of an attach. -/
inductive Turn where
  | attach (pin fn : Nat) (mode : Int) (created : Bool)
  | detach (pin : Nat)
  | levels (l : Levels)
  | poller (i : Nat)
  deriving DecidableEq, Repr

def idle (l : Levels) : Threads := ⟨initial, l, [], false, [], []⟩

def advance (s : Threads) (i : Nat) (p : Poller) : Option Threads :=
  let goto (s : Threads) (q : Poller) : Threads := { s with pollers := s.pollers.set i q }
  match p with
  | .test => some (goto s (if s.isr.reg ≠ 0 then .sample else .leave))
  | .sample =>
    let (state, changed) := sample s.isr s.levels
    let c : Change := ⟨i, state, changed⟩
    some (if changed ≠ 0 then goto { s with sampled := s.sampled ++ [c] } (.dispatch c)
      else goto s .rest)
  | .dispatch c => some (goto { s with
      isr := (dispatch s.isr c.state c.changed).2
      dispatched := s.dispatched ++ [c] } .rest)
  | .rest => some (goto s (if s.isr.reg ≠ 0 then .sleep else .test))
  | .sleep => some (goto s .test)
  | .leave => some (goto s .gone)
  | .gone => none

def turn (s : Threads) : Turn → Option Threads
  | .attach pin fn mode created =>
    let (start, isr) := attachInterrupt s.isr s.levels pin fn mode
    some (if start then
        if created then { s with isr := isr, pollers := s.pollers ++ [.test] }
        else { s with isr := isr, createFailed := true }
      else { s with isr := isr })
  | .detach pin => some { s with isr := detachInterrupt s.isr pin }
  | .levels l => some { s with levels := l }
  | .poller i => s.pollers[i]?.bind (advance s i)

def held (ps : List Poller) : List Change := ps.filterMap Poller.held

/-- One poller at most that has not decided to exit, and one at least while a pin is
registered; what was found changed is dispatched, or held by the only poller that holds
anything. -/
structure OnePoller (s : Threads) : Prop where
  atMost : ∀ (i j : Nat) p q, s.pollers[i]? = some p → s.pollers[j]? = some q →
    p.polls = true → q.polls = true → i = j
  atLeast : s.isr.reg ≠ 0 → s.createFailed = false →
    ∃ (i : Nat) (p : Poller), s.pollers[i]? = some p ∧ p.polls = true
  holder : (held s.pollers).length ≤ 1
  changes : s.sampled = s.dispatched ++ held s.pollers

/-- An attach starts a poller only when every earlier one has decided to exit. -/
def LoneStart (s : Threads) : Turn → Prop
  | .attach pin _ _ created => pin < 46 → s.isr.reg = 0 → created = true →
    ∀ p ∈ s.pollers, p.polls = false
  | _ => True

variable {s t : Threads} {i : Nat} {p q : Poller}

theorem held_none (h : p.polls = false) : p.held = none := by
  cases p <;> first | rfl | cases h

theorem held_eq {ps : List Poller}
    (h : ∀ (j : Nat) q, ps[j]? = some q → q.polls = true → j = i) (hi : ps[i]? = some p) :
    held ps = p.held.toList := by
  induction ps generalizing i with
  | nil => simp at hi
  | cons a ps ih =>
    cases i with
    | zero =>
      obtain rfl : a = p := by simpa using hi
      have hrest : held ps = [] := by
        refine List.filterMap_eq_nil_iff.mpr fun q hq => held_none ?_
        obtain ⟨j, hj⟩ := List.getElem?_of_mem hq
        rw [Bool.eq_false_iff]
        intro hpolls
        exact absurd (h (j+1) q (by simpa using hj) hpolls) (by omega)
      rw [held, List.filterMap_cons]
      cases ha : a.held with
      | none => exact hrest
      | some c => exact congrArg (c :: ·) hrest
    | succ i =>
      have ha : a.held = none := by
        refine held_none (Bool.eq_false_iff.mpr fun hpolls => ?_)
        exact absurd (h 0 a (by simp) hpolls) (by omega)
      rw [held, List.filterMap_cons, ha]
      refine ih (fun j q hj hq => ?_) (by simpa using hi)
      have := h (j+1) q (by simpa using hj) hq
      omega

theorem held_eq_nil {ps : List Poller} (h : ∀ p ∈ ps, p.polls = false) : held ps = [] :=
  List.filterMap_eq_nil_iff.mpr fun p hp => held_none (h p hp)

theorem held_append_test (ps : List Poller) : held (ps ++ [.test]) = held ps := by
  simp [held, Poller.held]

theorem held_set {ps : List Poller} (hi : ps[i]? = some p) (hq : q.held = p.held) :
    held (ps.set i q) = held ps := by
  induction ps generalizing i with
  | nil => rfl
  | cons a ps ih =>
    cases i with
    | zero =>
      obtain rfl : a = p := by simpa using hi
      rw [List.set_cons_zero, held, held, List.filterMap_cons, List.filterMap_cons, hq]
    | succ i =>
      have htail : List.filterMap Poller.held (ps.set i q) = List.filterMap Poller.held ps :=
        ih (by simpa using hi)
      rw [List.set_cons_succ, held, held, List.filterMap_cons, List.filterMap_cons, htail]

theorem held_length_le {ps : List Poller} (h : ∀ (i j : Nat) p q, ps[i]? = some p →
    ps[j]? = some q → p.polls = true → q.polls = true → i = j) : (held ps).length ≤ 1 := by
  by_cases hp : ∃ p ∈ ps, p.polls = true
  · obtain ⟨p, hp, hpolls⟩ := hp
    obtain ⟨i, hi⟩ := List.getElem?_of_mem hp
    rw [held_eq (fun j q hj hq => h j i q p hj hi hq hpolls) hi]
    cases p.held <;> simp
  · rw [held_eq_nil fun p hmem => Bool.eq_false_iff.mpr fun hpolls => hp ⟨p, hmem, hpolls⟩]
    simp

theorem getElem?_set_some {ps : List Poller} {j : Nat} (h : (ps.set i q)[j]? = some p) :
    (j = i ∧ p = q) ∨ (j ≠ i ∧ ps[j]? = some p) := by
  rw [List.getElem?_set] at h
  by_cases hj : i = j
  · simp only [hj, if_true] at h
    split at h
    · exact .inl ⟨hj.symm, (Option.some.inj h).symm⟩
    · cases h
  · exact .inr ⟨Ne.symm hj, by simpa [hj] using h⟩

theorem OnePoller.move (h : OnePoller s) (hi : s.pollers[i]? = some p)
    (hpolls : q.polls = true → p.polls = true)
    (hreg : t.isr.reg = s.isr.reg) (hfail : t.createFailed = s.createFailed)
    (hps : t.pollers = s.pollers.set i q)
    (hleave : p.polls = true → q.polls = false → s.isr.reg = 0)
    (hlog : s.sampled = s.dispatched ++ p.held.toList → t.sampled = t.dispatched ++ q.held.toList)
    (hidle : p.polls = false → t.sampled = s.sampled ∧ t.dispatched = s.dispatched) :
    OnePoller t := by
  have hlt : i < s.pollers.length := (List.getElem?_eq_some_iff.mp hi).1
  have hset : t.pollers[i]? = some q := by rw [hps, List.getElem?_set_self hlt]
  have hmost (j k : Nat) p' q' (hj : t.pollers[j]? = some p') (hk : t.pollers[k]? = some q')
      (hp' : p'.polls = true) (hq' : q'.polls = true) : j = k := by
    rw [hps] at hj hk
    obtain ⟨rfl, rfl⟩ | ⟨-, hj'⟩ := getElem?_set_some hj <;>
      obtain ⟨hki, rfl⟩ | ⟨-, hk'⟩ := getElem?_set_some hk
    · exact hki.symm
    · exact h.atMost _ _ _ _ hi hk' (hpolls hp') hq'
    · exact (h.atMost _ _ _ _ hj' hi hp' (hpolls hq')).trans hki.symm
    · exact h.atMost _ _ _ _ hj' hk' hp' hq'
  refine ⟨hmost, fun hr hf => ?_, held_length_le hmost, ?_⟩
  · obtain ⟨j, a, hj, ha⟩ := h.atLeast (hreg ▸ hr) (hfail ▸ hf)
    by_cases hji : j = i
    · subst hji
      obtain rfl : a = p := by simpa [hj] using hi
      refine ⟨j, q, hset, ?_⟩
      rw [← Bool.not_eq_false]
      exact fun hq => hr (hreg ▸ hleave ha hq)
    · exact ⟨j, a, by rw [hps, List.getElem?_set_ne (Ne.symm hji), hj], ha⟩
  · cases hp : p.polls with
    | true =>
      have hothers (j : Nat) (a : Poller) (hj : s.pollers[j]? = some a) (ha : a.polls = true) :
          j = i := h.atMost j i a p hj hi ha hp
      have hothers' (j : Nat) (a : Poller) (hj : t.pollers[j]? = some a) (ha : a.polls = true) :
          j = i := by
        rw [hps] at hj
        obtain ⟨hji, -⟩ | ⟨-, hj⟩ := getElem?_set_some hj
        · exact hji
        · exact hothers j a hj ha
      rw [held_eq hothers' hset]
      exact hlog (by rw [h.changes, held_eq hothers hi])
    | false =>
      have hq : q.held = p.held := by
        rw [held_none hp, held_none]
        rw [Bool.eq_false_iff]
        exact fun hq => absurd (hpolls hq) (by simp [hp])
      rw [(hidle hp).1, (hidle hp).2, h.changes, hps, held_set hi hq]

theorem idle_onePoller (l : Levels) : OnePoller (idle l) :=
  ⟨fun i _ _ _ hi => absurd hi (by simp [idle]), fun h => absurd rfl h, by simp [idle, held],
    rfl⟩

theorem OnePoller.poller (h : OnePoller s) (ht : turn s (.poller i) = some t) : OnePoller t := by
  obtain ⟨p, hi, ht⟩ := Option.bind_eq_some_iff.mp ht
  have hidle (hp : p.polls = true) {P : Prop} (hnot : p.polls = false) : P := by
    rw [hp] at hnot
    cases hnot
  cases p with
  | test =>
    obtain rfl : _ = t := Option.some.inj ht
    by_cases hr : s.isr.reg = 0
    · simp only [hr, ne_eq, not_true_eq_false, if_false]
      exact h.move hi (fun _ => rfl) rfl rfl rfl (fun _ _ => hr) id (hidle rfl)
    · simp only [hr, ne_eq, not_false_eq_true, if_true]
      exact h.move hi (fun _ => rfl) rfl rfl rfl (fun _ hq => by cases hq) id (hidle rfl)
  | sample =>
    simp only [advance, Option.some.injEq] at ht
    split at ht
    · subst ht
      refine h.move hi (fun _ => rfl) rfl rfl rfl (fun _ hq => by cases hq) (fun hlog => ?_)
        (hidle rfl)
      simp only [Poller.held, Option.toList_none, List.append_nil] at hlog
      simp only [Poller.held, Option.toList_some, hlog]
    · subst ht
      exact h.move hi (fun _ => rfl) rfl rfl rfl (fun _ hq => by cases hq) id (hidle rfl)
  | dispatch c =>
    obtain rfl : _ = t := Option.some.inj ht
    refine h.move hi (fun _ => rfl) rfl rfl rfl (fun _ hq => by cases hq) (fun hlog => ?_)
      (hidle rfl)
    simpa [Poller.held] using hlog
  | rest =>
    obtain rfl : _ = t := Option.some.inj ht
    by_cases hr : s.isr.reg = 0
    · simp only [hr, ne_eq, not_true_eq_false, if_false]
      exact h.move hi (fun _ => rfl) rfl rfl rfl (fun _ hq => by cases hq) id (hidle rfl)
    · simp only [hr, ne_eq, not_false_eq_true, if_true]
      exact h.move hi (fun _ => rfl) rfl rfl rfl (fun _ hq => by cases hq) id (hidle rfl)
  | sleep =>
    obtain rfl : _ = t := Option.some.inj ht
    exact h.move hi (fun _ => rfl) rfl rfl rfl (fun _ hq => by cases hq) id (hidle rfl)
  | leave =>
    obtain rfl : _ = t := Option.some.inj ht
    exact h.move hi (fun hq => by cases hq) rfl rfl rfl (fun hp => by cases hp) id
      (fun _ => ⟨rfl, rfl⟩)
  | gone => cases ht

theorem attachInterrupt_fst {s : State} {l : Levels} {pin fn : Nat} {mode : Int} :
    (attachInterrupt s l pin fn mode).1 = true ↔ pin < 46 ∧ s.reg = 0 := by
  rw [attachInterrupt]
  split <;> simp [*]

theorem attachInterrupt_reg {s : State} {l : Levels} {pin fn : Nat} {mode : Int}
    (h : (attachInterrupt s l pin fn mode).2.reg ≠ 0)
    (hstart : (attachInterrupt s l pin fn mode).1 = false) : s.reg ≠ 0 := by
  intro hr
  rw [attachInterrupt] at h hstart
  split at h
  · next hp => simp [hp, hr] at hstart
  · exact h hr

theorem detachInterrupt_reg {s : State} {pin : Nat} (h : (detachInterrupt s pin).reg ≠ 0) :
    s.reg ≠ 0 := by
  intro hr
  rw [detachInterrupt] at h
  split at h
  · exact h (by simp [hr])
  · exact h hr

/-- A new poller is the only one exactly when no earlier one polls. -/
theorem OnePoller.start_iff (h : OnePoller s) (isr : State) :
    OnePoller { s with isr := isr, pollers := s.pollers ++ [.test] } ↔
      ∀ p ∈ s.pollers, p.polls = false := by
  have hnew : (s.pollers ++ [Poller.test])[s.pollers.length]? = some .test := by simp
  have hold {j : Nat} {p : Poller} (hj : s.pollers[j]? = some p) :
      (s.pollers ++ [Poller.test])[j]? = some p := by
    rw [List.getElem?_append_left (List.getElem?_eq_some_iff.mp hj).1, hj]
  constructor
  · intro ht p hp
    obtain ⟨j, hj⟩ := List.getElem?_of_mem hp
    rw [Bool.eq_false_iff]
    intro hpolls
    have hjl : j = s.pollers.length := ht.atMost _ _ _ _ (hold hj) hnew hpolls rfl
    have hlt := (List.getElem?_eq_some_iff.mp hj).1
    omega
  · intro hp
    have honly {j : Nat} {q : Poller} (hj : (s.pollers ++ [Poller.test])[j]? = some q)
        (hq : q.polls = true) : j = s.pollers.length := by
      by_cases hlt : j < s.pollers.length
      · rw [List.getElem?_append_left hlt] at hj
        exact absurd (hp q (List.mem_of_getElem? hj)) (by simp [hq])
      · have := (List.getElem?_eq_some_iff.mp hj).1
        simp only [List.length_append, List.length_singleton] at this
        omega
    refine ⟨fun i j p q hi hj hpi hqj => (honly hi hpi).trans (honly hj hqj).symm,
      fun _ _ => ⟨_, _, hnew, rfl⟩, ?_, ?_⟩
    · rw [held_append_test]
      exact h.holder
    · rw [held_append_test]
      exact h.changes

theorem OnePoller.turn_iff (h : OnePoller s) (a : Turn) (ht : turn s a = some t) :
    OnePoller t ↔ LoneStart s a := by
  cases a with
  | attach pin fn mode created =>
    simp only [turn] at ht
    cases hstart : (attachInterrupt s.isr s.levels pin fn mode).1 with
    | false =>
      simp only [hstart, Bool.false_eq_true, if_false, Option.some.injEq] at ht
      subst ht
      refine iff_of_true ⟨h.atMost, fun hr hf => h.atLeast (attachInterrupt_reg hr hstart) hf,
        h.holder, h.changes⟩ fun hp hr => ?_
      have hstarts := hstart.symm.trans (attachInterrupt_fst.mpr ⟨hp, hr⟩)
      cases hstarts
    | true =>
      obtain ⟨hp, hr⟩ := attachInterrupt_fst.mp hstart
      cases created with
      | true =>
        simp only [hstart, if_true, Option.some.injEq] at ht
        subst ht
        rw [h.start_iff]
        exact ⟨fun hidle _ _ _ => hidle, fun hl => hl hp hr rfl⟩
      | false =>
        simp only [hstart, if_true, Bool.false_eq_true, if_false, Option.some.injEq] at ht
        subst ht
        exact iff_of_true ⟨h.atMost, (fun _ hf => by cases hf), h.holder, h.changes⟩
          (fun _ _ hc => by cases hc)
  | detach pin =>
    obtain rfl : _ = t := Option.some.inj ht
    exact iff_of_true ⟨h.atMost, fun hr => h.atLeast (detachInterrupt_reg hr), h.holder,
      h.changes⟩ trivial
  | levels l =>
    obtain rfl : _ = t := Option.some.inj ht
    exact iff_of_true ⟨h.atMost, h.atLeast, h.holder, h.changes⟩ trivial
  | poller i => exact iff_of_true (h.poller ht) trivial

/-- In the states of a run there is the one poller that is wanted if and only if each attach
that starts one finds that the earlier ones have decided to exit. -/
theorem one_poller_iff (l : Levels) (as : List Turn) :
    Along turn (fun _ _ t => OnePoller t) as (idle l) ↔
      Along turn (fun s a _ => LoneStart s a) as (idle l) :=
  along_invariant_iff (fun _ a _ hs ht => hs.turn_iff a ht) (idle_onePoller l)

/-- Pin 5 is detached and attached again while the poller sleeps. -/
theorem attach_in_sleep_starts_second :
    ¬ ∀ l as, Along turn (fun _ _ t => OnePoller t) as (idle l) := by
  intro h
  have h₀ := h ⟨0, 0⟩ [.attach 5 1 3 true, .poller 0, .poller 0, .poller 0, .detach 5,
    .attach 5 1 3 true]
  have h₁ := (along_cons_of_step rfl).mp h₀
  have h₂ := (along_cons_of_step rfl).mp h₁.2
  have h₃ := (along_cons_of_step rfl).mp h₂.2
  have h₄ := (along_cons_of_step rfl).mp h₃.2
  have h₅ := (along_cons_of_step rfl).mp h₄.2
  have h₆ := (along_cons_of_step rfl).mp h₅.2
  exact absurd (h₆.1.atMost 0 1 .sleep .test (by decide) (by decide) rfl rfl) (by decide)

theorem pollers_unbounded (l : Levels) (n : Nat) : ∃ as s, run turn as (idle l) = some s ∧
    s.isr.reg = 0 ∧ s.pollers = List.replicate n .test := by
  induction n with
  | zero => exact ⟨[], idle l, rfl, rfl, rfl⟩
  | succ n ih =>
    obtain ⟨as, s, hrun, hr, hps⟩ := ih
    have hstart : (attachInterrupt s.isr s.levels 5 1 3).1 = true :=
      attachInterrupt_fst.mpr ⟨by decide, hr⟩
    have hattach : turn s (.attach 5 1 3 true) = some { s with
        isr := (attachInterrupt s.isr s.levels 5 1 3).2, pollers := s.pollers ++ [.test] } := by
      simp only [turn, hstart, if_true]
    refine ⟨as ++ [.attach 5 1 3 true, .detach 5], _,
      run_append_some.mpr ⟨s, hrun, run_cons_some.mpr ⟨_, hattach, rfl⟩⟩, ?_, ?_⟩
    · have hbits : (0 ||| widen (bv 5)) &&& widen (~~~bv 5) = 0 := by decide
      simpa [detachInterrupt, attachInterrupt, hr] using hbits
    · rw [List.replicate_succ', hps]

end RasPiArduino.Isr
