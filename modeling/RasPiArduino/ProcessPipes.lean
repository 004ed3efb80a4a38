import RasPiArduino.Transition

/-! The pipes of a Process whose runs come one after the other, and which descriptors it
closes. -/
namespace RasPiArduino.ProcessPipes
open RasPiArduino.Transition

structure Pipe where
  read : Int
  write : Int
  deriving DecidableEq, Repr

structure Pipes where
  input : Pipe
  out : Pipe
  err : Pipe
  deriving DecidableEq, Repr

def Pipes.fds (p : Pipes) : List Int :=
  [p.input.read, p.input.write, p.out.read, p.out.write, p.err.read, p.err.write]

structure Process where
  success : Bool
  executed : Bool
  cmdArray : List String
  execPid : Int
  execResult : Int
  pipes : Pipes
  threadRunning : Bool
  deriving DecidableEq, Repr

/-- A call of close(): whether the object had the descriptor from pipe() and had not closed
it since. -/
structure Closing where
  fd : Int
  own : Bool
  deriving DecidableEq, Repr

/-- The object, the descriptors that are open, those the object has from pipe() and has not
closed, and the calls of close(); `made` records that the last execute() to come so far got
all three pipes. -/
structure World where
  process : Process
  opened : List Int
  own : List Int
  closings : List Closing
  made : Bool
  gone : Bool
  deriving DecidableEq, Repr

/-- The constructor sets all fields but the pipes, which have what the memory held. -/
def start (memory : Pipes) (opened : List Int) : World :=
  { process :=
      { success := false, executed := false, cmdArray := [], execPid := -1, execResult := 0,
        pipes := memory, threadRunning := false }
    opened := opened
    own := []
    closings := []
    made := false
    gone := false }

def spclose (w : World) (fd : Int) : World :=
  { w with
    opened := w.opened.filter (· ≠ fd)
    own := w.own.filter (· ≠ fd)
    closings := w.closings ++ [⟨fd, decide (fd ∈ w.own)⟩] }

def closePipes (w : World) : World := w.process.pipes.fds.foldl spclose w

def pipe (w : World) (p : Pipe) : Option (Nat × Nat) → Option (Pipe × World)
  | none => some (p, w)
  | some (r, s) =>
    if r ≠ s ∧ (r : Int) ∉ w.opened ∧ (s : Int) ∉ w.opened then
      some (⟨r, s⟩, { w with opened := w.opened ++ [↑r, ↑s], own := w.own ++ [↑r, ↑s] })
    else none

/-- How the calls of execute() end: of fork, with -1 or with a child and its exit status. -/
structure Calls where
  input : Option (Nat × Nat)
  out : Option (Nat × Nat)
  err : Option (Nat × Nat)
  child : Option (Nat × UInt8)
  deriving DecidableEq, Repr

def execute (w : World) (r : Calls) : Option World :=
  if w.process.cmdArray = [] then
    some { w with process := { w.process with execResult := -2, threadRunning := false } }
  else do
    let w := closePipes { w with process := { w.process with
      success := false, executed := true, threadRunning := true } }
    let (input, w) ← pipe w w.process.pipes.input r.input
    let (out, w) ← pipe w w.process.pipes.out r.out
    let (err, w) ← pipe w w.process.pipes.err r.err
    let process := { w.process with pipes := ⟨input, out, err⟩ }
    let w := { w with made := r.input.isSome && r.out.isSome && r.err.isSome }
    match r.child with
    | none => some { w with process := { process with
        execPid := -1, threadRunning := false, execResult := -3 } }
    | some (pid, code) => some { w with process := { process with
        execPid := pid, execResult := code.toNat, success := code = 0, threadRunning := false } }

def run (w : World) (created : Bool) (r : Calls) : Option World :=
  if w.process.threadRunning then
    some { w with process := { w.process with execResult := -4 } }
  else if created then execute w r
  else some { w with process := { w.process with threadRunning := false, execResult := -5 } }

def begin (w : World) (cmd : String) : World :=
  { w with process := { w.process with
    cmdArray := [cmd], success := false, executed := false, execPid := -1, execResult := 0,
    threadRunning := false } }

def addParameter (w : World) (param : String) : World :=
  if w.process.threadRunning then w
  else if w.process.cmdArray = [] then w
  else { w with process := { w.process with cmdArray := w.process.cmdArray ++ [param] } }

def destroy (w : World) : World :=
  let w := closePipes { w with process := { w.process with cmdArray := [] } }
  { w with made := false, gone := true }

inductive Event where
  | begin (cmd : String)
  | addParameter (param : String)
  | run (created : Bool) (r : Calls)
  | destroy
  | openOther (fd : Nat)
  | closeOther (fd : Nat)
  deriving DecidableEq, Repr

def step (w : World) : Event → Option World
  | .begin cmd => if w.gone then none else some (begin w cmd)
  | .addParameter param => if w.gone then none else some (addParameter w param)
  | .run created r => if w.gone then none else run w created r
  | .destroy => if w.gone then none else some (destroy w)
  | .openOther fd =>
    if (fd : Int) ∈ w.opened then none else some { w with opened := w.opened ++ [↑fd] }
  | .closeOther fd =>
    if (fd : Int) ∈ w.own then none else some { w with opened := w.opened.filter (· ≠ ↑fd) }

/-- What the step closes, the object had from pipe() and had not closed since. -/
def ClosesOwn (w z : World) : Prop := ∀ x ∈ z.closings.drop w.closings.length, x.own = true

/-- A step that closes the pipes comes after a run that made all three. -/
def AfterMade (w : World) : Event → Prop
  | .run created _ => created = true → w.process.cmdArray ≠ [] → w.made = true
  | .destroy => w.made = true
  | _ => True

structure Known (w : World) : Prop where
  own : ∀ fd ∈ w.own, fd ∈ w.process.pipes.fds
  made : w.made = true → w.process.pipes.fds = w.own ∧ w.own.Nodup
  unmade : w.made = false → w.own.length < 6
  idle : w.process.threadRunning = false

variable {w z : World} {e : Event} {r : Calls} {fds : List Int}

theorem start_known (memory : Pipes) (opened : List Int) : Known (start memory opened) :=
  ⟨by simp [start], by simp [start], by simp [start], rfl⟩

theorem closeAll_spec (w : World) (fds : List Int) : ∃ xs,
    (fds.foldl spclose w).closings = w.closings ++ xs ∧
      ((∀ x ∈ xs, x.own = true) ↔ fds.Nodup ∧ ∀ fd ∈ fds, fd ∈ w.own) ∧
        (fds.foldl spclose w).own = w.own.filter (· ∉ fds) ∧
          (fds.foldl spclose w).process = w.process := by
  induction fds generalizing w with
  | nil => exact ⟨[], by simp, by simp, by simp, rfl⟩
  | cons fd fds ih =>
    obtain ⟨xs, hxs, hown, hrest, hproc⟩ := ih (spclose w fd)
    refine ⟨⟨fd, decide (fd ∈ w.own)⟩ :: xs, ?_, ?_, ?_, hproc⟩
    · rw [List.foldl_cons, hxs, spclose, List.append_assoc]
      rfl
    · simp only [List.forall_mem_cons, hown, spclose, decide_eq_true_eq, List.nodup_cons,
        List.mem_filter, ne_eq]
      constructor
      · intro ⟨hfd, hnd, hall⟩
        exact ⟨⟨fun hm => (hall fd hm).2 rfl, hnd⟩, hfd, fun g hg => (hall g hg).1⟩
      · intro ⟨⟨hfd, hnd⟩, hown, hall⟩
        exact ⟨hown, hnd, fun g hg => ⟨hall g hg, fun he => hfd (he ▸ hg)⟩⟩
    · rw [List.foldl_cons, hrest, spclose, List.filter_filter]
      apply List.filter_congr
      intro g _
      simp [Bool.and_comm]

theorem Known.all_own_iff (h : Known w) : (w.process.pipes.fds.Nodup ∧
    ∀ fd ∈ w.process.pipes.fds, fd ∈ w.own) ↔ w.made = true := by
  cases hm : w.made with
  | true =>
    obtain ⟨hfds, hnd⟩ := h.made hm
    rw [hfds]
    exact iff_of_true ⟨hnd, fun fd hfd => hfd⟩ rfl
  | false =>
    apply iff_of_false _ (by simp)
    intro ⟨hnd, hsub⟩
    have hle := hnd.length_le_of_subset hsub
    have hlt := h.unmade hm
    have hlen : w.process.pipes.fds.length = 6 := rfl
    omega

theorem closePipes_spec (h : Known w) {p : Process} (hp : p.pipes = w.process.pipes) : ∃ xs,
    (closePipes { w with process := p }).closings = w.closings ++ xs ∧
      ((∀ x ∈ xs, x.own = true) ↔ w.made = true) ∧
        (closePipes { w with process := p }).own = [] ∧
          (closePipes { w with process := p }).process = p := by
  obtain ⟨xs, hxs, hown, hrest, hproc⟩ := closeAll_spec { w with process := p } p.pipes.fds
  refine ⟨xs, hxs, ?_, ?_, hproc⟩
  · rw [hown, hp]
    exact h.all_own_iff
  · rw [closePipes, hrest, hp]
    apply List.filter_eq_nil_iff.mpr
    intro fd hfd
    simpa using h.own fd hfd

theorem pipe_spec {p q : Pipe} {a : Option (Nat × Nat)} (h : pipe w p a = some (q, z)) :
    z.process = w.process ∧ z.closings = w.closings ∧
      (a = none ∧ q = p ∧ z.own = w.own ∧ z.opened = w.opened ∨
        a.isSome = true ∧ q.read ≠ q.write ∧ q.read ∉ w.opened ∧ q.write ∉ w.opened ∧
          z.own = w.own ++ [q.read, q.write] ∧ z.opened = w.opened ++ [q.read, q.write]) := by
  cases a with
  | none =>
    obtain ⟨rfl, rfl⟩ := Prod.mk.inj (Option.some.inj h)
    exact ⟨rfl, rfl, .inl ⟨rfl, rfl, rfl, rfl⟩⟩
  | some a =>
    obtain ⟨r, s⟩ := a
    rw [pipe] at h
    split at h
    · next hfresh =>
      obtain ⟨rfl, rfl⟩ := Prod.mk.inj (Option.some.inj h)
      refine ⟨rfl, rfl, .inr ⟨rfl, ?_, hfresh.2.1, hfresh.2.2, rfl, rfl⟩⟩
      exact fun he => hfresh.1 (Int.ofNat_inj.mp he)
    · cases h

theorem pipes_spec {z₁ z₂ z₃ : World} {p₁ p₂ p₃ q₁ q₂ q₃ : Pipe} {a₁ a₂ a₃ : Option (Nat × Nat)}
    (hw : w.own = []) (h₁ : pipe w p₁ a₁ = some (q₁, z₁)) (h₂ : pipe z₁ p₂ a₂ = some (q₂, z₂))
    (h₃ : pipe z₂ p₃ a₃ = some (q₃, z₃)) :
    z₃.process = w.process ∧ z₃.closings = w.closings ∧
      (∀ fd ∈ z₃.own, fd ∈ (Pipes.mk q₁ q₂ q₃).fds) ∧
        ((a₁.isSome && a₂.isSome && a₃.isSome) = true →
          (Pipes.mk q₁ q₂ q₃).fds = z₃.own ∧ z₃.own.Nodup) ∧
          ((a₁.isSome && a₂.isSome && a₃.isSome) = false → z₃.own.length < 6) := by
  obtain ⟨hp₁, hc₁, h₁⟩ := pipe_spec h₁
  obtain ⟨hp₂, hc₂, h₂⟩ := pipe_spec h₂
  obtain ⟨hp₃, hc₃, h₃⟩ := pipe_spec h₃
  refine ⟨hp₃.trans (hp₂.trans hp₁), hc₃.trans (hc₂.trans hc₁), ?_⟩
  obtain ⟨rfl, rfl, ho₁, ht₁⟩ | ⟨hs₁, hne₁, hr₁, hw₁, ho₁, ht₁⟩ := h₁ <;>
    obtain ⟨rfl, rfl, ho₂, ht₂⟩ | ⟨hs₂, hne₂, hr₂, hw₂, ho₂, ht₂⟩ := h₂ <;>
      obtain ⟨rfl, rfl, ho₃, ht₃⟩ | ⟨hs₃, hne₃, hr₃, hw₃, ho₃, ht₃⟩ := h₃
  case inr.inr.inr =>
    rw [ht₁] at ht₂ hr₂ hw₂
    rw [ht₂] at hr₃ hw₃
    rw [ho₃, ho₂, ho₁, hw, hs₁, hs₂, hs₃]
    simp only [List.mem_append, List.mem_cons, List.not_mem_nil, or_false,
      not_or] at hr₂ hw₂ hr₃ hw₃
    refine ⟨by simp [Pipes.fds], fun _ => ⟨rfl, ?_⟩, by simp⟩
    simp only [List.nil_append, List.cons_append, List.nodup_cons, List.mem_cons,
      List.not_mem_nil, or_false, not_or, not_false_eq_true, List.nodup_nil, and_true]
    grind
  all_goals simp_all [Pipes.fds]

theorem closesOwn_append {xs : List Closing} (h : z.closings = w.closings ++ xs) :
    ClosesOwn w z ↔ ∀ x ∈ xs, x.own = true := by
  rw [ClosesOwn, h, List.drop_left]

theorem closesOwn_same (h : z.closings = w.closings) : ClosesOwn w z := by
  have hnone : z.closings = w.closings ++ [] := by rw [h, List.append_nil]
  rw [closesOwn_append hnone]
  simp

theorem execute_spec (h : Known w) (hcmd : w.process.cmdArray ≠ [])
    (hz : execute w r = some z) : (ClosesOwn w z ↔ w.made = true) ∧ Known z := by
  rw [execute, if_neg hcmd] at hz
  obtain ⟨xs, hxs, hown, hnone, hproc⟩ := closePipes_spec h (p := { w.process with
    success := false, executed := true, threadRunning := true }) rfl
  generalize closePipes { w with process := { w.process with
    success := false, executed := true, threadRunning := true } } = v at hz hxs hnone hproc
  obtain ⟨⟨q₁, z₁⟩, h₁, hz⟩ := Option.bind_eq_some_iff.mp hz
  obtain ⟨⟨q₂, z₂⟩, h₂, hz⟩ := Option.bind_eq_some_iff.mp hz
  obtain ⟨⟨q₃, z₃⟩, h₃, hz⟩ := Option.bind_eq_some_iff.mp hz
  obtain ⟨-, hclosings, hsub, hmade, hunmade⟩ := pipes_spec hnone h₁ h₂ h₃
  have hclose (u : World) (hu : u.closings = z₃.closings) : ClosesOwn w u ↔ w.made = true := by
    rw [closesOwn_append (hu.trans (hclosings.trans hxs)), hown]
  cases hchild : r.child with
  | none =>
    rw [hchild] at hz
    obtain rfl := Option.some.inj hz
    exact ⟨hclose _ rfl, hsub, hmade, hunmade, rfl⟩
  | some child =>
    rw [hchild] at hz
    obtain rfl := Option.some.inj hz
    exact ⟨hclose _ rfl, hsub, hmade, hunmade, rfl⟩

/-- Whatever came before, a step closes own descriptors alone exactly if it closes none or
comes after a run that made the pipes. -/
theorem closesOwn_step (h : Known w) (hz : step w e = some z) :
    (ClosesOwn w z ↔ AfterMade w e) ∧ Known z := by
  have hidle := h.idle
  cases e with
  | begin cmd =>
    obtain ⟨-, rfl⟩ : w.gone = false ∧ begin w cmd = z := by simpa [step] using hz
    exact ⟨iff_of_true (closesOwn_same rfl) trivial, h.own, h.made, h.unmade, rfl⟩
  | addParameter param =>
    obtain ⟨-, rfl⟩ : w.gone = false ∧ addParameter w param = z := by simpa [step] using hz
    rw [addParameter, hidle, if_neg (by simp)]
    split
    · exact ⟨iff_of_true (closesOwn_same rfl) trivial, h⟩
    · exact ⟨iff_of_true (closesOwn_same rfl) trivial, h.own, h.made, h.unmade, hidle⟩
  | run created r =>
    obtain ⟨-, hz⟩ : w.gone = false ∧ run w created r = some z := by simpa [step] using hz
    rw [run, hidle, if_neg (by simp)] at hz
    cases created with
    | false =>
      obtain rfl := Option.some.inj hz
      exact ⟨iff_of_true (closesOwn_same rfl) (by simp [AfterMade]), h.own, h.made, h.unmade, rfl⟩
    | true =>
      rw [if_pos rfl] at hz
      by_cases hcmd : w.process.cmdArray = []
      · rw [execute, if_pos hcmd] at hz
        obtain rfl := Option.some.inj hz
        exact ⟨iff_of_true (closesOwn_same rfl) fun _ hne => absurd hcmd hne, h.own, h.made,
          h.unmade, rfl⟩
      · obtain ⟨hiff, hknown⟩ := execute_spec h hcmd hz
        refine ⟨hiff.trans ⟨fun hm _ _ => hm, fun ha => ha rfl hcmd⟩, hknown⟩
  | destroy =>
    obtain ⟨-, rfl⟩ : w.gone = false ∧ destroy w = z := by simpa [step] using hz
    obtain ⟨xs, hxs, hown, hnone, hproc⟩ :=
      closePipes_spec h (p := { w.process with cmdArray := [] }) rfl
    have hempty : (destroy w).own = [] := hnone
    refine ⟨?_, ?_, by simp [destroy], ?_, (congrArg Process.threadRunning hproc).trans hidle⟩
    · rw [closesOwn_append (z := destroy w) hxs, hown]
      rfl
    · rw [hempty]
      simp
    · rw [hempty]
      simp
  | openOther fd =>
    obtain ⟨-, rfl⟩ : (fd : Int) ∉ w.opened ∧ { w with opened := w.opened ++ [↑fd] } = z := by
      simpa [step] using hz
    exact ⟨iff_of_true (closesOwn_same rfl) trivial, h.own, h.made, h.unmade, hidle⟩
  | closeOther fd =>
    obtain ⟨-, rfl⟩ : (fd : Int) ∉ w.own ∧
        { w with opened := w.opened.filter (· ≠ ↑fd) } = z := by
      simpa only [step, Option.ite_none_left_eq_some, Option.some.injEq] using hz
    exact ⟨iff_of_true (closesOwn_same rfl) trivial, h.own, h.made, h.unmade, hidle⟩

/-- In every run the object closes own descriptors alone exactly if each step does that closes
some comes after a run that made all three pipes, and that goes for each step by itself. -/
theorem closes_own_iff (memory : Pipes) (opened : List Int) (events : List Event) :
    (Along step (fun w _ z => ClosesOwn w z) events (start memory opened) ↔
      Along step (fun w e _ => AfterMade w e) events (start memory opened)) ∧
      Along step (fun w e z => ClosesOwn w z ↔ AfterMade w e) events (start memory opened) := by
  have hstep : ∀ w e z, Known w → step w e = some z →
      (ClosesOwn w z ↔ AfterMade w e) ∧ Known z := fun _ _ _ h hz => closesOwn_step h hz
  constructor
  · exact along_iff_of_keeps
      (fun w e z h hz => ⟨(hstep w e z h hz).1, fun _ => (hstep w e z h hz).2⟩)
      (start_known memory opened)
  · exact Along.of_invariant (Q := fun _ _ _ => True) (fun w e z h hz _ => (hstep w e z h hz).symm)
      (start_known memory opened) (along_of_forall (fun _ _ _ => trivial) _ _)

/-- A Process in static memory that is never run: the destructor closes stdin. -/
theorem destructor_closes_stdin : ¬ ∀ memory opened events,
    Along step (fun w _ z => ClosesOwn w z) events (start memory opened) := by
  intro h
  have h₁ := (along_cons_of_step rfl).mp (h ⟨⟨0, 0⟩, ⟨0, 0⟩, ⟨0, 0⟩⟩ [0, 1, 2] [.destroy])
  exact absurd (h₁.1 ⟨0, false⟩ (by decide)) (by decide)

end RasPiArduino.ProcessPipes
