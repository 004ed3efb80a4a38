import Mathlib.Data.List.Basic

/-! Machines that answer one operation after the other. `none` is an access outside the
memory of the machine: nothing is said of its state after that. -/
namespace RasPiArduino.Machine
variable {S Q O R : Type*} {f : S → O → Option (R × S)}

def answers (f : S → O → Option (R × S)) : List O → S → Option (List R × S)
  | [], s => some ([], s)
  | o :: os, s => match f s o with
    | none => none
    | some (r, t) => (answers f os t).map fun (rs, u) => (r :: rs, u)

/-- `C` holds of each operation when its turn comes. -/
def While (f : S → O → Option (R × S)) (C : S → O → Prop) : List O → S → Prop
  | [], _ => True
  | o :: os, s => C s o ∧ match f s o with
    | none => True
    | some (_, t) => While f C os t

/-- Every operation is answered, and `P` holds of the state before it, the operation,
the answer and the state after. -/
def Keeps (f : S → O → Option (R × S)) (P : S → O → R → S → Prop) : List O → S → Prop
  | [], _ => True
  | o :: os, s => match f s o with
    | none => False
    | some (r, t) => P s o r t ∧ Keeps f P os t

instance While.decidable (C : S → O → Prop) [∀ s o, Decidable (C s o)] :
    ∀ (os : List O) (s : S), Decidable (While f C os s)
  | [], _ => isTrue trivial
  | o :: os, s => by
    unfold While
    exact @instDecidableAnd _ _ _ (match f s o with
      | none => isTrue trivial
      | some (_, t) => While.decidable C os t)

instance Keeps.decidable (P : S → O → R → S → Prop) [∀ s o r t, Decidable (P s o r t)] :
    ∀ (os : List O) (s : S), Decidable (Keeps f P os s)
  | [], _ => isTrue trivial
  | o :: os, s => by
    unfold Keeps
    exact match f s o with
      | none => isFalse id
      | some (_, t) => @instDecidableAnd _ _ _ (Keeps.decidable P os t)

theorem answers_cons {o : O} {os : List O} {s t : S} {r : R} (h : f s o = some (r, t)) :
    answers f (o :: os) s = (answers f os t).map fun a => (r :: a.1, a.2) := by
  simp [answers, h]

theorem answers_total (h : ∀ s o, ∃ a, f s o = some a) (os : List O) (s : S) :
    ∃ a, answers f os s = some a := by
  induction os generalizing s with
  | nil => exact ⟨_, rfl⟩
  | cons o os ih =>
    obtain ⟨⟨r, t⟩, hf⟩ := h s o
    obtain ⟨a, ha⟩ := ih t
    exact ⟨_, by rw [answers_cons hf, ha]; rfl⟩

theorem keeps_cons {P : S → O → R → S → Prop} {o : O} {os : List O} {s : S} :
    Keeps f P (o :: os) s ↔ ∃ r t, f s o = some (r, t) ∧ P s o r t ∧ Keeps f P os t := by
  cases h : f s o with
  | none => simp [Keeps, h]
  | some a =>
    obtain ⟨r, t⟩ := a
    simp [Keeps, h, and_assoc]

theorem answers_cons_some {o : O} {os : List O} {s u : S} {rs : List R}
    (h : answers f (o :: os) s = some (rs, u)) :
    ∃ r t rs', f s o = some (r, t) ∧ answers f os t = some (rs', u) ∧ rs = r :: rs' := by
  cases hf : f s o with
  | none => simp [answers, hf] at h
  | some a =>
    obtain ⟨r, t⟩ := a
    obtain ⟨b, hb, he⟩ := Option.map_eq_some_iff.mp ((answers_cons hf).symm.trans h)
    obtain ⟨rfl, rfl⟩ := Prod.mk.inj he
    exact ⟨r, t, b.1, rfl, hb, rfl⟩

theorem While.append {C : S → O → Prop} {os os' : List O} {s t : S} {rs : List R}
    (h : While f C (os ++ os') s) (ha : answers f os s = some (rs, t)) :
    While f C os s ∧ While f C os' t := by
  induction os generalizing s rs with
  | nil =>
    obtain ⟨-, rfl⟩ : [] = rs ∧ s = t := by simpa [answers] using ha
    exact ⟨trivial, h⟩
  | cons o os ih =>
    obtain ⟨r, u, rs', hf, ha', -⟩ := answers_cons_some ha
    obtain ⟨hc, hw⟩ := h
    simp only [hf] at hw
    obtain ⟨h₁, h₂⟩ := ih hw ha'
    exact ⟨⟨hc, by simpa only [hf] using h₁⟩, h₂⟩

theorem answers_invariant {D : O → Prop} {I : S → Prop}
    (hI : ∀ s o r t, D o → I s → f s o = some (r, t) → I t) {os : List O} (hD : ∀ o ∈ os, D o)
    {s t : S} {rs : List R} (hs : I s) (ha : answers f os s = some (rs, t)) : I t := by
  induction os generalizing s rs with
  | nil =>
    obtain ⟨-, rfl⟩ : [] = rs ∧ s = t := by simpa [answers] using ha
    exact hs
  | cons o os ih =>
    obtain ⟨ho, hos⟩ := List.forall_mem_cons.mp hD
    obtain ⟨r, u, rs', hf, ha', -⟩ := answers_cons_some ha
    exact ih hos (hI s o r u ho hs hf) ha'

/-- What an operation keeps whose turn comes under the condition, a run keeps. -/
theorem While.invariant {I : S → Prop} {C : S → O → Prop}
    (hI : ∀ s o r t, I s → C s o → f s o = some (r, t) → I t) {os : List O} {s t : S}
    {rs : List R} (hs : I s) (h : While f C os s) (ha : answers f os s = some (rs, t)) : I t := by
  induction os generalizing s rs with
  | nil =>
    obtain ⟨-, rfl⟩ : [] = rs ∧ s = t := by simpa [answers] using ha
    exact hs
  | cons o os ih =>
    obtain ⟨r, u, rs', hf, ha', -⟩ := answers_cons_some ha
    obtain ⟨hc, hw⟩ := h
    simp only [hf] at hw
    exact ih (hI s o r u hs hc hf) hw ha'

/-- Where the condition on the next operation is what `P` needs, and it keeps the
invariant, the condition on a run is what `P` needs along it. The operations are those
of `D`. -/
theorem keeps_iff_while_of {D : O → Prop} {I : S → Prop} {C : S → O → Prop}
    {P : S → O → R → S → Prop}
    (hP : ∀ s o, D o → I s → (C s o ↔ ∃ r t, f s o = some (r, t) ∧ P s o r t))
    (hI : ∀ s o r t, D o → I s → C s o → f s o = some (r, t) → I t)
    {os : List O} (hD : ∀ o ∈ os, D o) {s : S} (hs : I s) :
    Keeps f P os s ↔ While f C os s := by
  induction os generalizing s with
  | nil => exact Iff.rfl
  | cons o os ih =>
    obtain ⟨ho, hos⟩ := List.forall_mem_cons.mp hD
    cases hf : f s o with
    | none =>
      have hC : ¬ C s o := by simp [hP s o ho hs, hf]
      simp [Keeps, While, hf, hC]
    | some a =>
      obtain ⟨r, t⟩ := a
      have hC : C s o ↔ P s o r t := by simp [hP s o ho hs, hf]
      simp only [Keeps, While, hf, ← hC]
      exact and_congr_right fun hc => ih hos (hI s o r t ho hs hc hf)

theorem keeps_of_while {I : S → Prop} {C : S → O → Prop} {P : S → O → R → S → Prop}
    (h : ∀ s o, I s → C s o → ∃ r t, f s o = some (r, t) ∧ P s o r t ∧ I t)
    {os : List O} {s : S} (hs : I s) (hw : While f C os s) : Keeps f P os s := by
  induction os generalizing s with
  | nil => trivial
  | cons o os ih =>
    obtain ⟨hc, hw⟩ := hw
    obtain ⟨r, t, hf, hp, ht⟩ := h s o hs hc
    exact keeps_cons.mpr ⟨r, t, hf, hp, ih ht (by simpa only [hf] using hw)⟩

theorem keeps_iff_while {I : S → Prop} {C : S → O → Prop} {P : S → O → R → S → Prop}
    (hP : ∀ s o, I s → (C s o ↔ ∃ r t, f s o = some (r, t) ∧ P s o r t))
    (hI : ∀ s o r t, I s → C s o → f s o = some (r, t) → I t)
    (os : List O) {s : S} (hs : I s) : Keeps f P os s ↔ While f C os s :=
  keeps_iff_while_of (D := fun _ => True) (fun s o _ => hP s o) (fun s o r t _ => hI s o r t)
    (fun _ _ => trivial) hs

theorem simulates {g : Q → O → Option (R × Q)} {Rel : S → Q → Prop}
    (h : ∀ s q o r q', Rel s q → g q o = some (r, q') → ∃ s', f s o = some (r, s') ∧ Rel s' q')
    {os : List O} {s : S} {q q' : Q} {rs : List R} (hs : Rel s q)
    (hg : answers g os q = some (rs, q')) : ∃ s', answers f os s = some (rs, s') ∧ Rel s' q' := by
  induction os generalizing s q rs with
  | nil =>
    obtain ⟨rfl, rfl⟩ : [] = rs ∧ q = q' := by simpa [answers] using hg
    exact ⟨s, rfl, hs⟩
  | cons o os ih =>
    obtain ⟨r, u, rs', hq, ha, rfl⟩ := answers_cons_some hg
    obtain ⟨t, hf, ht⟩ := h s q o r u hs hq
    obtain ⟨s', hs', hr⟩ := ih ht ha
    exact ⟨s', by rw [answers_cons hf, hs']; rfl, hr⟩

/-- A machine whose operations, under the condition, are those of an abstract machine in
other words: `φ` of the operations, `ψ` of the answers. -/
theorem While.refines {O' R' : Type*} {g : Q → O' → Option (R' × Q)} {φ : O → O'} {ψ : R → R'}
    {B : S → Q → Prop} {C : S → O → Prop}
    (h : ∀ s q o, B s q → C s o →
      ∃ r t u, f s o = some (r, t) ∧ g q (φ o) = some (ψ r, u) ∧ B t u)
    {os : List O} {s : S} {q : Q} (hs : B s q) (hw : While f C os s) :
    ∃ rs t u, answers f os s = some (rs, t) ∧
      answers g (os.map φ) q = some (rs.map ψ, u) ∧ B t u := by
  induction os generalizing s q with
  | nil => exact ⟨[], s, q, rfl, rfl, hs⟩
  | cons o os ih =>
    obtain ⟨hc, hw⟩ := hw
    obtain ⟨r, t, u, hf, hg, ht⟩ := h s q o hs hc
    simp only [hf] at hw
    obtain ⟨rs, t', u', hfs, hgs, ht'⟩ := ih ht hw
    refine ⟨r :: rs, t', u', by rw [answers_cons hf, hfs]; rfl, ?_, ht'⟩
    rw [List.map_cons, answers_cons hg, hgs]
    rfl

end RasPiArduino.Machine
