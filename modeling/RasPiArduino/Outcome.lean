import Mathlib.Init

/-! Computations that may stop with an error and leave the state as it is then: what holds of the
result they yield, or of the error and the state they stop in. -/
namespace RasPiArduino.Outcome
universe u
variable {ε σ α β : Type u}

/-- From `s` the computation yields a result of `Q`, or stops with an error of `R`. -/
def Yields (m : EStateM ε σ α) (s : σ) (Q : α → σ → Prop) (R : ε → σ → Prop) : Prop :=
  match m s with
  | .ok a t => Q a t
  | .error e t => R e t

variable {m n : EStateM ε σ α} {f : α → EStateM ε σ β} {s t : σ} {a : α} {e : ε}
  {Q Q' : α → σ → Prop} {P : β → σ → Prop} {R R' : ε → σ → Prop}

@[simp] theorem yields_pure : Yields (pure a) s Q R ↔ Q a s := Iff.rfl

@[simp] theorem yields_throw : Yields (throw e : EStateM ε σ α) s Q R ↔ R e s := Iff.rfl

@[simp] theorem yields_get {Q : σ → σ → Prop} :
    Yields (get : EStateM ε σ σ) s Q R ↔ Q s s := Iff.rfl

@[simp] theorem yields_set {Q : PUnit.{u+1} → σ → Prop} :
    Yields (set t : EStateM ε σ PUnit) s Q R ↔ Q ⟨⟩ t := Iff.rfl

@[simp] theorem yields_modify {g : σ → σ} {Q : PUnit.{u+1} → σ → Prop} :
    Yields (modify g : EStateM ε σ PUnit) s Q R ↔ Q ⟨⟩ (g s) := Iff.rfl

@[simp] theorem yields_bind :
    Yields (m >>= f) s P R ↔ Yields m s (fun a t => Yields (f a) t P R) R := by
  unfold Yields
  change (match EStateM.bind m f s with | .ok a t => P a t | .error e t => R e t) ↔ _
  unfold EStateM.bind
  cases m s <;> rfl

@[simp] theorem yields_ite {c : Prop} [Decidable c] :
    Yields (if c then m else n) s Q R ↔ (c → Yields m s Q R) ∧ (¬ c → Yields n s Q R) := by
  split <;> simp [*]

/-- What has failed goes on from the state that it has left. -/
theorem yields_tryCatch {k : ε → EStateM ε σ α} :
    Yields (tryCatch m k) s Q R ↔ Yields m s Q fun e t => Yields (k e) t Q R := by
  have hcatch : tryCatch m k s = match m s with
      | .ok a t => .ok a t
      | .error e t => k e t := by
    change EStateM.tryCatch m k s = _
    unfold EStateM.tryCatch
    cases m s <;> rfl
  unfold Yields
  rw [hcatch]
  cases m s <;> rfl

theorem Yields.mono (h : Yields m s Q R) (hQ : ∀ a t, Q a t → Q' a t)
    (hR : ∀ e t, R e t → R' e t) : Yields m s Q' R' := by
  unfold Yields at *
  cases hm : m s with
  | ok a t => exact hQ a t (by simpa only [hm] using h)
  | error e t => exact hR e t (by simpa only [hm] using h)

theorem Yields.of_ok (h : Yields m s Q R) (hm : m s = .ok a t) : Q a t := by
  simpa only [Yields, hm] using h

theorem Yields.of_error (h : Yields m s Q R) (hm : m s = .error e t) : R e t := by
  simpa only [Yields, hm] using h

theorem Yields.total (h : Yields m s Q R) (hR : ∀ e t, ¬ R e t) : ∃ a t, m s = .ok a t ∧ Q a t := by
  cases hm : m s with
  | ok a t => exact ⟨a, t, rfl, h.of_ok hm⟩
  | error e t => exact absurd (h.of_error hm) (hR e t)

def outcome (m : EStateM ε σ α) (s : σ) : Except ε α × σ :=
  match m s with
  | .ok a t => (.ok a, t)
  | .error e t => (.error e, t)

theorem Yields.outcome {P : Except ε α → σ → Prop}
    (h : Yields m s (fun a t => P (.ok a) t) (fun e t => P (.error e) t)) :
    P (outcome m s).1 (outcome m s).2 := by
  unfold Outcome.outcome
  cases hm : m s with
  | ok a t => exact h.of_ok hm
  | error e t => exact h.of_error hm

end RasPiArduino.Outcome
