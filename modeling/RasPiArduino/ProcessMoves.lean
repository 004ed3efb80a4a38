import RasPiArduino.ProcessModel
import RasPiArduino.Table

/-! What a step of the Process model can do, said once: one constructor for every
branch of the step functions. The proofs about runs go by cases on these. -/
namespace RasPiArduino.Process
open RasPiArduino.Table

def SketchAct.closes : SketchAct → Option Rest
  | .begin cmd => some (.reset cmd)
  | .close => some .ret
  | .destroy => some .free
  | _ => none

inductive SketchMove (s : State) : SketchAct → State → Prop where
  | closing (a : SketchAct) (r : Rest) : a.closes = some r → s.pc = .idle →
      s.threadRunning = true → SketchMove s a { s with pc := .closing r }
  | notRunning (a : SketchAct) (r : Rest) : a.closes = some r → s.pc = .idle →
      s.threadRunning = false → SketchMove s a { s with pc := r.pc }
  | addParameter (param : String) : s.pc = .idle →
      SketchMove s (.addParameter param) (addParameter s param)
  | alreadyRunning (created : Bool) : s.pc = .idle → s.threadRunning = true →
      SketchMove s (.runAsynchronously created) { s with execResult := -4 }
  | spawn : s.pc = .idle → s.threadRunning = false →
      SketchMove s (.runAsynchronously true)
        { s with
          pc := .assigning
          executors := s.executors ++ [⟨.created, [], s.ghost.begins, none, none, none⟩]
          ghost := { s.ghost with current := some s.executors.length, seenStopped := false } }
  | spawnFails : s.pc = .idle → s.threadRunning = false →
      SketchMove s (.runAsynchronously false)
        { s with
          threadRunning := false
          execResult := -5
          ghost := { s.ghost with current := none, seenStopped := false } }
  | running : s.pc = .idle →
      SketchMove s .running { s with ghost := { s.ghost with seenStopped := !s.threadRunning } }
  | exitValue : s.pc = .idle → SketchMove s .exitValue s
  | read (len : Nat) (env : List UInt8) : s.pc = .idle → SketchMove s (.read len env) (read s len)
  | kill (r : Rest) : s.pc = .closing r →
      SketchMove s .kill { s with children := kill s.execPid s.children, pc := r.pc }
  | reset (cmd : String) : s.pc = .finishing (.reset cmd) → SketchMove s .reset (beginBody s cmd)
  | free : s.pc = .finishing .free → SketchMove s .free { s with cmdArray := [], pc := .gone }
  | assign : s.pc = .assigning → SketchMove s .assign { s with threadRunning := true, pc := .idle }

theorem enterClose_move {s : State} {a : SketchAct} {r : Rest} (ha : a.closes = some r)
    (hpc : s.pc = .idle) : SketchMove s a (enterClose s r) := by
  cases hf : s.threadRunning with
  | true => simpa [enterClose, hf] using SketchMove.closing a r ha hpc hf
  | false => simpa [enterClose, hf] using SketchMove.notRunning a r ha hpc hf

theorem sketchStep_move {s t : State} {a : SketchAct} (h : sketchStep s a = some t) :
    SketchMove s a t := by
  cases a with
  | kill =>
    simp only [sketchStep] at h
    split at h
    · next r hr =>
      obtain rfl := Option.some.inj h
      exact .kill r hr
    · cases h
  | reset =>
    simp only [sketchStep] at h
    split at h
    · next cmd hr =>
      obtain rfl := Option.some.inj h
      exact .reset cmd hr
    · cases h
  | runAsynchronously created =>
    simp only [sketchStep, Option.ite_none_right_eq_some, Option.some.injEq] at h
    obtain ⟨hpc, rfl⟩ := h
    cases hf : s.threadRunning with
    | true => simpa [runAsynchronously, hf] using SketchMove.alreadyRunning created hpc hf
    | false => cases created with
      | true => simpa [runAsynchronously, hf] using SketchMove.spawn hpc hf
      | false => simpa [runAsynchronously, hf] using SketchMove.spawnFails hpc hf
  | begin | close | destroy =>
    simp only [sketchStep, Option.ite_none_right_eq_some, Option.some.injEq] at h
    obtain ⟨hpc, rfl⟩ := h
    exact enterClose_move rfl hpc
  | addParameter param =>
    simp only [sketchStep, Option.ite_none_right_eq_some, Option.some.injEq] at h
    obtain ⟨hpc, rfl⟩ := h
    exact .addParameter param hpc
  | running =>
    simp only [sketchStep, Option.ite_none_right_eq_some, Option.some.injEq] at h
    obtain ⟨hpc, rfl⟩ := h
    exact .running hpc
  | exitValue =>
    simp only [sketchStep, Option.ite_none_right_eq_some, Option.some.injEq] at h
    obtain ⟨hpc, rfl⟩ := h
    exact .exitValue hpc
  | read len env =>
    simp only [sketchStep, Option.ite_none_right_eq_some, Option.some.injEq] at h
    obtain ⟨hpc, rfl⟩ := h
    exact .read len env hpc
  | free =>
    simp only [sketchStep, Option.ite_none_right_eq_some, Option.some.injEq] at h
    obtain ⟨hpc, rfl⟩ := h
    exact .free hpc
  | assign =>
    simp only [sketchStep, Option.ite_none_right_eq_some, Option.some.injEq] at h
    obtain ⟨hpc, rfl⟩ := h
    exact .assign hpc

theorem cleared_cases {p p' : Phase} (h : p.cleared = some p') :
    (p = .noCommand ∨ p = .stored) ∧ p' = .finished ∨ p = .forkFailed ∧ p' = .forkCleared := by
  cases p <;> simp_all [Phase.cleared]

inductive ExecMove (s : State) (i : Nat) (x : Executor) : ExecAct → State → Prop where
  | noCommand : x.phase = .created → s.cmdArray.length = 0 →
      ExecMove s i x .start
        (setExecutor { s with execResult := -2 } i
          { x with phase := .noCommand, result := some (-2) })
  | enter : x.phase = .created → s.cmdArray.length ≠ 0 →
      ExecMove s i x .start
        (setExecutor { s with success := false, executed := true, threadRunning := true } i
          { x with phase := .entered, argv := s.cmdArray })
  | closePipes : x.phase = .entered →
      ExecMove s i x .closePipes
        (setExecutor { s with out := .closed } i { x with phase := .closed })
  | makePipes : x.phase = .closed →
      ExecMove s i x (.makePipes true)
        (setExecutor { s with out := .pipe s.pipes.length, pipes := s.pipes ++ [⟨i, []⟩] } i
          { x with phase := .piped })
  | makePipesFails : x.phase = .closed →
      ExecMove s i x (.makePipes false) (setExecutor s i { x with phase := .piped })
  | forkFails : x.phase = .piped → ExecMove s i x (.fork none) (forkFails s i x)
  | forkChild (pid : Pid) : x.phase = .piped → pid ∉ livePids s.children →
      ExecMove s i x (.fork (some pid)) (forkChild s i x pid)
  | waitpid (k : Nat) (c : Child) (st : WaitStatus) : s.children[k]? = some c →
      c.report = some st → x.phase = .waiting c.pid → c.reaped = false →
      ExecMove s i x (.waitpid k) (waitReturns s i x k c st)
  | store : x.phase = .returned →
      ExecMove s i x .store
        (setExecutor { s with
          execResult := wexitstatus s.execResult
          success := wexitstatus s.execResult == 0 } i { x with phase := .stored })
  | clear (p : Phase) : x.phase.cleared = some p →
      ExecMove s i x .clear
        (setExecutor { s with threadRunning := false } i { x with phase := p })
  | fail : x.phase = .forkCleared →
      ExecMove s i x .fail
        (setExecutor { s with execResult := -3 } i { x with phase := .finished })

theorem execStep_move {s t : State} {i : Nat} {x : Executor} {a : ExecAct}
    (h : execStep s i x a = some t) : ExecMove s i x a t := by
  cases a with
  | start =>
    simp only [execStep, Option.ite_none_right_eq_some, Option.some.injEq] at h
    obtain ⟨hp, rfl⟩ := h
    by_cases hc : s.cmdArray.length = 0
    · simpa [enter, hc] using ExecMove.noCommand hp hc
    · simpa [enter, hc] using ExecMove.enter hp hc
  | makePipes ok =>
    simp only [execStep, Option.ite_none_right_eq_some, Option.some.injEq] at h
    obtain ⟨hp, rfl⟩ := h
    cases ok with
    | true => exact .makePipes hp
    | false => exact .makePipesFails hp
  | fork r =>
    cases r with
    | none =>
      simp only [execStep, Option.ite_none_right_eq_some, Option.some.injEq] at h
      obtain ⟨hp, rfl⟩ := h
      exact .forkFails hp
    | some pid =>
      simp only [execStep, Option.ite_none_right_eq_some, Option.some.injEq] at h
      obtain ⟨⟨hp, hpid⟩, rfl⟩ := h
      exact .forkChild pid hp hpid
  | waitpid k =>
    simp only [execStep] at h
    cases hc : s.children[k]? with
    | none => simp [hc] at h
    | some c =>
      cases hr : c.report with
      | none => simp [hc, hr] at h
      | some st =>
        simp only [hc, hr, Option.ite_none_right_eq_some, Option.some.injEq] at h
        obtain ⟨⟨hp, hu⟩, rfl⟩ := h
        exact .waitpid k c st hc hr hp hu
  | clear =>
    simp only [execStep] at h
    cases hp : x.phase.cleared with
    | none => simp [hp] at h
    | some p =>
      simp only [hp, Option.some.injEq] at h
      subst h
      exact .clear p hp
  | _ =>
    simp only [execStep, Option.ite_none_right_eq_some, Option.some.injEq] at h
    obtain ⟨hp, rfl⟩ := h
    constructor
    exact hp

structure Ident where
  pid : Pid
  owner : Nat
  out : Option Nat
  reaped : Bool
  deriving DecidableEq, Repr

def Child.ident (c : Child) : Ident := ⟨c.pid, c.owner, c.out, c.reaped⟩

theorem dies_ident (c : Child) (st : WaitStatus) : (c.dies st).ident = c.ident := rfl

theorem kill_ident (pid : Int) (cs : List Child) :
    (kill pid cs).map Child.ident = cs.map Child.ident := by
  rw [kill, List.map_map]
  refine List.map_congr_left fun c _ => ?_
  simp only [Function.comp_apply]
  split <;> simp [dies_ident]

theorem act_ident {c c' : Child} {a : ChildAct} (h : c.act a = some c') :
    c'.ident = c.ident := by
  cases a <;> simp only [Child.act, Option.ite_none_right_eq_some, Option.some.injEq] at h <;>
    obtain ⟨-, rfl⟩ := h <;> rfl

/-- A child's step leaves the object, the threads and the other children alone. -/
theorem childStep_cases {cap : Nat} {s t : State} {k : Nat} {c : Child} {a : ChildAct}
    (h : childStep cap s k c a = some t) :
    (∃ b, a = .write b ∧ c.out = none ∧ t = s) ∨
    (∃ b q p, a = .write b ∧ c.life = .running ∧ c.stage = .program ∧ c.out = some q ∧
      s.pipes[q]? = some p ∧ p.data.length < cap ∧
      t = { s with pipes := s.pipes.set q { p with data := p.data ++ [(c.owner, b)] } }) ∨
    (∃ c', c.act a = some c' ∧ (∀ b, a ≠ .write b) ∧
      t = { s with children := s.children.set k c' }) := by
  cases a with
  | write b =>
    simp only [childStep, Child.act] at h
    by_cases hg : c.life = .running ∧ c.stage = .program
    · rw [if_pos hg] at h
      cases ho : c.out with
      | none =>
        rw [ho] at h
        exact .inl ⟨b, rfl, rfl, by simpa using h.symm⟩
      | some q =>
        rw [ho] at h
        cases hp : s.pipes[q]? with
        | none => simp [hp] at h
        | some p =>
          simp only [hp, Option.ite_none_right_eq_some, Option.some.injEq] at h
          exact .inr (.inl ⟨b, q, p, rfl, hg.1, hg.2, rfl, hp, h.1, h.2.symm⟩)
    · simp [if_neg hg] at h
  | _ =>
    simp only [childStep, Option.map_eq_some_iff] at h
    obtain ⟨c', hc, rfl⟩ := h
    exact .inr (.inr ⟨c', hc, by simp, rfl⟩)

theorem child_step_ident {cap : Nat} {s t : State} {k : Nat} {c : Child} {a : ChildAct}
    (hc : s.children[k]? = some c) (h : childStep cap s k c a = some t) :
    t.children.map Child.ident = s.children.map Child.ident := by
  obtain ⟨_, _, _, rfl⟩ | ⟨_, _, _, _, _, _, _, _, _, rfl⟩ | ⟨c', hact, _, rfl⟩ :=
    childStep_cases h
  · rfl
  · rfl
  · exact map_set_eq hc (act_ident hact)

theorem step_cases {cap : Nat} {s t : State} {l : Label} (h : step cap s l = some t) :
    (∃ a, l = .sketch a ∧ SketchMove s a t) ∨
    (∃ i x a, l = .exec i a ∧ s.executors[i]? = some x ∧ ExecMove s i x a t) ∨
    (∃ k c a, l = .child k a ∧ s.children[k]? = some c ∧ childStep cap s k c a = some t) := by
  cases l with
  | sketch a => exact .inl ⟨a, rfl, sketchStep_move h⟩
  | exec i a =>
    obtain ⟨x, hx, h⟩ := Option.bind_eq_some_iff.mp h
    exact .inr (.inl ⟨i, x, a, rfl, hx, execStep_move h⟩)
  | child k a =>
    obtain ⟨c, hc, h⟩ := Option.bind_eq_some_iff.mp h
    exact .inr (.inr ⟨k, c, a, rfl, hc, h⟩)

theorem flag_cleared {cap : Nat} {s t : State} {l : Label} (h : step cap s l = some t)
    (hf : s.threadRunning = true) (ht : t.threadRunning = false) :
    (l = .sketch .reset ∧ ∃ cmd, s.pc = .finishing (.reset cmd)) ∨
    ∃ i x, l = .exec i .clear ∧ s.executors[i]? = some x ∧ x.phase ≠ .finished := by
  obtain ⟨a, rfl, hm⟩ | ⟨i, x, a, rfl, hx, hm⟩ | ⟨k, c, a, rfl, hk, hm⟩ := step_cases h
  · left
    cases hm with
    | reset cmd hpc => exact ⟨rfl, cmd, hpc⟩
    | addParameter => simp [addParameter, hf] at ht
    | read =>
      unfold read at ht
      split at ht <;> simp [hf] at ht
    | _ => simp_all
  · right
    cases hm with
    | clear p hp => exact ⟨i, x, rfl, hx, by rintro he; simp [he, Phase.cleared] at hp⟩
    | _ => simp_all [setExecutor, forkFails, forkChild, waitReturns]
  · obtain ⟨_, _, _, rfl⟩ | ⟨_, _, _, _, _, _, _, _, _, rfl⟩ | ⟨_, _, _, rfl⟩ := childStep_cases hm
      <;> simp_all

end RasPiArduino.Process
