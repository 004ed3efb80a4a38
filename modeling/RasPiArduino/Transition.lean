import Mathlib.Logic.Basic
import Mathlib.Data.List.Basic

/-! Finite runs of a partial step function over labels. A label carries every
choice of the environment, so that a run is determined by its labels. -/
namespace RasPiArduino.Transition
variable {S L : Type*} {step : S → L → Option S}

/-- The state reached by the labels, `none` once a label is not enabled. -/
def run (step : S → L → Option S) : List L → S → Option S
  | [], s => some s
  | l :: ls, s => (step s l).bind (run step ls)

def Along (step : S → L → Option S) (Q : S → L → S → Prop) : List L → S → Prop
  | [], _ => True
  | l :: ls, s => match step s l with
    | none => True
    | some t => Q s l t ∧ Along step Q ls t

instance Along.decidable (Q : S → L → S → Prop) [∀ s l t, Decidable (Q s l t)] :
    ∀ (ls : List L) (s : S), Decidable (Along step Q ls s)
  | [], _ => isTrue trivial
  | l :: ls, s => by
    unfold Along
    exact match step s l with
      | none => isTrue trivial
      | some t => @instDecidableAnd _ _ _ (Along.decidable Q ls t)

@[simp] theorem run_nil (s : S) : run step [] s = some s := rfl

theorem run_cons (l : L) (ls : List L) (s : S) :
    run step (l :: ls) s = (step s l).bind (run step ls) := rfl

theorem run_cons_some {l : L} {ls : List L} {s t : S} :
    run step (l :: ls) s = some t ↔ ∃ m, step s l = some m ∧ run step ls m = some t := by
  simp [run_cons, Option.bind_eq_some_iff]

theorem run_append (ls ms : List L) (s : S) :
    run step (ls ++ ms) s = (run step ls s).bind (run step ms) := by
  induction ls generalizing s with
  | nil => rfl
  | cons l ls ih =>
    cases h : step s l with
    | none => simp [run_cons, h]
    | some m => simpa [run_cons, h] using ih m

theorem run_append_some {ls ms : List L} {s t : S} :
    run step (ls ++ ms) s = some t ↔ ∃ m, run step ls s = some m ∧ run step ms m = some t := by
  simp [run_append, Option.bind_eq_some_iff]

theorem along_cons_of_step {Q : S → L → S → Prop} {l : L} {ls : List L} {s t : S}
    (h : step s l = some t) :
    Along step Q (l :: ls) s ↔ Q s l t ∧ Along step Q ls t := by
  simp [Along, h]

theorem Along.imp {P Q : S → L → S → Prop} (h : ∀ s l t, P s l t → Q s l t)
    {ls : List L} {s : S} (hp : Along step P ls s) : Along step Q ls s := by
  induction ls generalizing s with
  | nil => trivial
  | cons l ls ih =>
    cases hm : step s l with
    | none => simp [Along, hm]
    | some m =>
      rw [along_cons_of_step hm] at hp ⊢
      exact ⟨h s l m hp.1, ih hp.2⟩

theorem Along.and {P Q : S → L → S → Prop} {ls : List L} {s : S} (hp : Along step P ls s)
    (hq : Along step Q ls s) : Along step (fun s l t => P s l t ∧ Q s l t) ls s := by
  induction ls generalizing s with
  | nil => trivial
  | cons l ls ih =>
    cases hm : step s l with
    | none => simp [Along, hm]
    | some m =>
      rw [along_cons_of_step hm] at hp hq ⊢
      exact ⟨⟨hp.1, hq.1⟩, ih hp.2 hq.2⟩

/-- What one step preserves, a run preserves: the steps may assume `Q`. -/
theorem run_invariant {I : S → Prop} {Q : S → L → S → Prop}
    (hstep : ∀ s l t, I s → step s l = some t → Q s l t → I t)
    {ls : List L} {s t : S} (hs : I s) (hr : run step ls s = some t)
    (hq : Along step Q ls s) : I t := by
  induction ls generalizing s with
  | nil =>
    obtain rfl : s = t := by simpa using hr
    exact hs
  | cons l ls ih =>
    obtain ⟨m, hm, hr⟩ := run_cons_some.mp hr
    obtain ⟨hl, hq⟩ := (along_cons_of_step hm).mp hq
    exact ih (hstep s l m hs hm hl) hr hq

theorem run_invariant' {I : S → Prop} (hstep : ∀ s l t, I s → step s l = some t → I t)
    {ls : List L} {s t : S} (hs : I s) (hr : run step ls s = some t) : I t := by
  induction ls generalizing s with
  | nil =>
    obtain rfl : s = t := by simpa using hr
    exact hs
  | cons l ls ih =>
    obtain ⟨m, hm, hr⟩ := run_cons_some.mp hr
    exact ih (hstep s l m hs hm) hr

theorem Along.of_invariant {I : S → Prop} {Q P : S → L → S → Prop}
    (hstep : ∀ s l t, I s → step s l = some t → Q s l t → I t ∧ P s l t)
    {ls : List L} {s : S} (hs : I s) (hq : Along step Q ls s) : Along step P ls s := by
  induction ls generalizing s with
  | nil => trivial
  | cons l ls ih =>
    cases hm : step s l with
    | none => simp [Along, hm]
    | some m =>
      rw [along_cons_of_step hm] at hq ⊢
      obtain ⟨hi, hp⟩ := hstep s l m hs hm hq.1
      exact ⟨hp, ih hi hq.2⟩

theorem along_iff {I : S → Prop} {R P Q : S → L → S → Prop}
    (h : ∀ s l t, I s → step s l = some t → R s l t → I t ∧ (P s l t ↔ Q s l t))
    {ls : List L} {s : S} (hs : I s) (hr : Along step R ls s) :
    Along step P ls s ↔ Along step Q ls s := by
  induction ls generalizing s with
  | nil => exact Iff.rfl
  | cons l ls ih =>
    cases hm : step s l with
    | none => simp [Along, hm]
    | some m =>
      rw [along_cons_of_step hm] at hr
      obtain ⟨hi, hpq⟩ := h s l m hs hm hr.1
      rw [along_cons_of_step hm, along_cons_of_step hm, hpq, ih hi hr.2]

theorem along_iff_of_keeps {I : S → Prop} {P Q : S → L → S → Prop}
    (h : ∀ s l t, I s → step s l = some t → (P s l t ↔ Q s l t) ∧ (Q s l t → I t))
    {ls : List L} {s : S} (hs : I s) : Along step P ls s ↔ Along step Q ls s := by
  induction ls generalizing s with
  | nil => exact Iff.rfl
  | cons l ls ih =>
    cases ht : step s l with
    | none => simp [Along, ht]
    | some t =>
      obtain ⟨hpq, hi⟩ := h s l t hs ht
      rw [along_cons_of_step ht, along_cons_of_step ht, hpq]
      exact and_congr_right fun hq => ih (hi hq)

/-- A step that keeps the property of its state exactly under a condition: the property
holds in the states of a run if and only if its steps meet the condition. -/
theorem along_invariant_iff {I : S → Prop} {Q : S → L → S → Prop}
    (h : ∀ s l t, I s → step s l = some t → (I t ↔ Q s l t)) {ls : List L} {s : S} (hs : I s) :
    Along step (fun _ _ t => I t) ls s ↔ Along step Q ls s :=
  along_iff_of_keeps (fun s l t hs ht => ⟨h s l t hs ht, (h s l t hs ht).mpr⟩) hs

theorem along_of_forall {P : S → L → S → Prop} (h : ∀ s l t, P s l t) (ls : List L) (s : S) :
    Along step P ls s := by
  induction ls generalizing s with
  | nil => trivial
  | cons l ls ih =>
    unfold Along
    split
    · trivial
    · exact ⟨h _ _ _, ih _⟩

theorem along_of_labels {P : L → Prop} {ls : List L} (h : ∀ l ∈ ls, P l) (s : S) :
    Along step (fun _ l _ => P l) ls s := by
  induction ls generalizing s with
  | nil => trivial
  | cons l ls ih =>
    unfold Along
    split
    · trivial
    · exact ⟨h l List.mem_cons_self, ih (fun m hm => h m (List.mem_cons_of_mem l hm)) _⟩

def Reaches (step : S → L → Option S) (s t : S) : Prop := ∃ ls, run step ls s = some t

theorem Reaches.refl (s : S) : Reaches step s s := ⟨[], rfl⟩

theorem Reaches.head {l : L} {s m t : S} (h : step s l = some m) (ht : Reaches step m t) :
    Reaches step s t := by
  obtain ⟨ls, hr⟩ := ht
  exact ⟨l :: ls, run_cons_some.mpr ⟨m, h, hr⟩⟩

theorem reaches_of_measure {I G : S → Prop} (μ : S → Nat)
    (hstep : ∀ s, I s → ¬ G s → ∃ l t, step s l = some t ∧ I t ∧ μ t < μ s)
    {s : S} (hs : I s) : ∃ t, Reaches step s t ∧ I t ∧ G t := by
  induction hn : μ s using Nat.strongRecOn generalizing s with
  | _ n ih =>
    by_cases hg : G s
    · exact ⟨s, Reaches.refl s, hs, hg⟩
    · obtain ⟨l, m, hm, hi, hlt⟩ := hstep s hs hg
      obtain ⟨t, ht, hit, hgt⟩ := ih (μ m) (hn ▸ hlt) hi rfl
      exact ⟨t, Reaches.head hm ht, hit, hgt⟩

/-! Infinite schedules: a label whose turn comes while it is not enabled waits. -/

def trace (step : S → L → Option S) (σ : Nat → L) (s : S) : Nat → S
  | 0 => s
  | n+1 => (step (trace step σ s n) (σ n)).getD (trace step σ s n)

/-- Every label gets its turn again and again. -/
def Fair (σ : Nat → L) : Prop := ∀ l n, ∃ m, n ≤ m ∧ σ m = l

def AlongTrace (step : S → L → Option S) (Q : S → L → S → Prop) (σ : Nat → L) (s : S) : Prop :=
  ∀ n t, step (trace step σ s n) (σ n) = some t → Q (trace step σ s n) (σ n) t

theorem trace_succ_of_step {σ : Nat → L} {s t : S} {n : Nat}
    (h : step (trace step σ s n) (σ n) = some t) : trace step σ s (n+1) = t := by
  simp [trace, h]

theorem trace_succ_of_none {σ : Nat → L} {s : S} {n : Nat}
    (h : step (trace step σ s n) (σ n) = none) :
    trace step σ s (n+1) = trace step σ s n := by
  simp [trace, h]

theorem trace_invariant {I : S → Prop} {Q : S → L → S → Prop}
    (hstep : ∀ s l t, I s → step s l = some t → Q s l t → I t)
    {σ : Nat → L} {s : S} (hs : I s) (hq : AlongTrace step Q σ s) (n : Nat) :
    I (trace step σ s n) := by
  induction n with
  | zero => exact hs
  | succ n ih =>
    cases h : step (trace step σ s n) (σ n) with
    | none => rwa [trace_succ_of_none h]
    | some t =>
      rw [trace_succ_of_step h]
      exact hstep _ _ _ ih h (hq n t h)

/-- Outside the goal every step either changes nothing or lowers the measure, and some
label lowers it: then each fair schedule comes to the goal. -/
theorem fair_reaches {I G : S → Prop} {Q : S → L → S → Prop} (μ : S → Nat)
    (hstep : ∀ s l t, I s → step s l = some t → Q s l t → I t ∧ (t = s ∨ μ t < μ s))
    (hprog : ∀ s, I s → ¬ G s → ∃ l t, step s l = some t ∧ μ t < μ s)
    {σ : Nat → L} {s : S} (hσ : Fair σ) (hs : I s) (hq : AlongTrace step Q σ s) :
    ∃ n, G (trace step σ s n) := by
  have hinv := trace_invariant (fun s l t hi h hql => (hstep s l t hi h hql).1) hs hq
  -- from time n on the state stays, or the measure drops below what it was at n
  have hdrop : ∀ n d, trace step σ s (n+d) = trace step σ s n ∨
      ∃ m, μ (trace step σ s m) < μ (trace step σ s n) := by
    intro n d
    induction d with
    | zero => exact .inl rfl
    | succ d ih =>
      obtain he | hm := ih
      · cases h : step (trace step σ s (n+d)) (σ (n+d)) with
        | none => exact .inl ((trace_succ_of_none h).trans he)
        | some t =>
          obtain ⟨-, rfl | hlt⟩ := hstep _ _ _ (hinv (n+d)) h (hq (n+d) t h)
          · exact .inl ((trace_succ_of_step h).trans he)
          · exact .inr ⟨n+d+1, by rw [trace_succ_of_step h, ← he]; exact hlt⟩
      · exact .inr hm
  have hmain : ∀ k n, μ (trace step σ s n) = k → ∃ m, G (trace step σ s m) := by
    intro k
    induction k using Nat.strongRecOn with
    | _ k ih =>
      rintro n rfl
      by_cases hg : G (trace step σ s n)
      · exact ⟨n, hg⟩
      · obtain ⟨l, t, hl, hlt⟩ := hprog _ (hinv n) hg
        obtain ⟨m, hnm, rfl⟩ := hσ l n
        obtain ⟨d, rfl⟩ := Nat.exists_eq_add_of_le hnm
        obtain he | ⟨m, hm⟩ := hdrop n d
        · refine ih (μ t) hlt (n+d+1) ?_
          rw [trace_succ_of_step (t := t) (by rw [he]; exact hl)]
        · exact ih _ hm m rfl
  exact hmain _ 0 rfl

end RasPiArduino.Transition
