import Mathlib
import RasPiArduino.ProcessMoves

/-! A call of run() to its end: the sketch that polls running(), the executor thread and
the child that writes its output into the pipe and then exits. The three take turns in any
order; a party that is blocked lets its turn pass. -/
namespace RasPiArduino.Process
open RasPiArduino.Transition RasPiArduino.Table

structure Command where
  start : State             -- the object when run() is called
  pid : Pid                 -- what fork will return
  fresh : pid ∉ livePids start.children
  code : UInt8
  out : List UInt8          -- what the child writes to stdout before it exits

inductive Call where
  | entering                -- before runAsynchronously()
  | starting                -- pthread_create has returned
  | polling                 -- while (running()) delay(1)
  | leaving                 -- return exitValue()
  | returned (r : Int)
  deriving DecidableEq, Repr

structure Sys where
  st : State
  call : Call
  todo : List UInt8         -- what the child still has to write

inductive Party where
  | sketch | executor | child
  deriving DecidableEq, Repr

def Command.executor (c : Command) : Nat := c.start.executors.length
def Command.child (c : Command) : Nat := c.start.children.length
def Command.pipe (c : Command) : Nat := c.start.pipes.length

def Command.init (c : Command) : Sys := ⟨c.start, .entering, c.out⟩

def runTurn (cap : Nat) (y : Sys) : Option Sys :=
  match y.call with
  | .entering => (step cap y.st (.sketch (.runAsynchronously true))).map fun s =>
      { y with st := s, call := .starting }
  | .starting => (step cap y.st (.sketch .assign)).map fun s =>
      { y with st := s, call := .polling }
  | .polling => (step cap y.st (.sketch .running)).map fun s =>
      { y with st := s, call := if y.st.threadRunning then .polling else .leaving }
  | .leaving => (step cap y.st (.sketch .exitValue)).map fun s =>
      { y with st := s, call := .returned s.execResult }
  | .returned _ => none

def Phase.act (p : Phase) (pid : Pid) (k : Nat) : Option ExecAct :=
  match p with
  | .created => some .start
  | .entered => some .closePipes
  | .closed => some (.makePipes true)
  | .piped => some (.fork (some pid))
  | .waiting _ => some (.waitpid k)
  | .returned => some .store
  | .noCommand | .stored => some .clear
  | _ => none

def executorTurn (cap : Nat) (c : Command) (y : Sys) : Option Sys :=
  (y.st.executors[c.executor]?).bind fun x => (x.phase.act c.pid c.child).bind fun a =>
    (step cap y.st (.exec c.executor a)).map fun s => { y with st := s }

def childTurn (cap : Nat) (c : Command) (y : Sys) : Option Sys :=
  (y.st.children[c.child]?).bind fun ch => match ch.stage, y.todo with
    | .forked, _ => (step cap y.st (.child c.child (.execvp true))).map fun s =>
        { y with st := s }
    | .program, b :: bs => (step cap y.st (.child c.child (.write b))).map fun s =>
        { y with st := s, todo := bs }
    | .program, [] => (step cap y.st (.child c.child (.exit c.code))).map fun s =>
        { y with st := s }
    | .execFailed, _ => none

def turn (cap : Nat) (c : Command) (y : Sys) : Party → Option Sys
  | .sketch => runTurn cap y
  | .executor => executorTurn cap c y
  | .child => childTurn cap c y

structure Ready (s : State) : Prop where
  idle : s.pc = .idle
  stopped : s.threadRunning = false
  command : s.cmdArray ≠ []

def Exited (c : Command) (y : Sys) : Prop :=
  ∃ ch, y.st.children[c.child]? = some ch ∧ ch.alive = false

def Returned (y : Sys) : Prop := ∃ r, y.call = .returned r

def readAll (s : State) (env : List UInt8) : List Nat → List UInt8
  | [] => []
  | len :: lens => (readBytes s len env).map Prod.snd ++ readAll (read s len) env lens

/-- No deadlock: from every state the child's exit is still ahead, run() returns under
every fair schedule, and then all of the output can be read in order. -/
structure Progresses (cap : Nat) (c : Command) (Q : Sys → Party → Sys → Prop) : Prop where
  advances : ∀ ls y, run (turn cap c) ls c.init = some y → Along (turn cap c) Q ls c.init →
    ∃ z, Reaches (turn cap c) y z ∧ Exited c z
  returns : ∀ σ, Fair σ → AlongTrace (turn cap c) Q σ c.init →
    ∃ n, Returned (trace (turn cap c) σ c.init n)
  delivers : ∀ ls y env lens, run (turn cap c) ls c.init = some y →
    Along (turn cap c) Q ls c.init → Returned y → readAll y.st env lens = c.out.take lens.sum

/-- The executor thread clears the flag only after the sketch has stored that
pthread_create returned 0. -/
def StoredFirst (c : Command) (y : Sys) (p : Party) (_ : Sys) : Prop :=
  p = .executor → y.call = .starting →
    ∀ x : Executor, y.st.executors[c.executor]? = some x → x.phase.cleared = none

/-- The output so far is in the pipe, and the rest is still to come. -/
structure Piped (cap : Nat) (c : Command) (y : Sys) : Prop where
  executed : y.st.executed = true
  out : y.st.out = .pipe c.pipe
  written : ∃ done, y.st.pipes[c.pipe]? = some ⟨c.executor, done.map fun b => (c.executor, b)⟩ ∧
    done ++ y.todo = c.out ∧ done.length ≤ cap

def Works (c : Command) (y : Sys) (ch : Child) : Prop :=
  ch.life = .running ∧ ch.report = none ∧ ch.stage ≠ .execFailed ∨
    ch.life = .dead (.exited c.code) ∧ ch.report = some (.exited c.code) ∧ y.todo = []

/-- What there is in each phase of the executor thread. -/
def At (cap : Nat) (c : Command) (y : Sys) : Phase → Prop
  | .created => y.st.cmdArray ≠ [] ∧ y.st.children = c.start.children ∧
      y.st.pipes = c.start.pipes ∧ y.todo = c.out
  | .entered | .closed => y.st.executed = true ∧ y.st.children = c.start.children ∧
      y.st.pipes = c.start.pipes ∧ y.todo = c.out
  | .piped => Piped cap c y ∧ y.st.children = c.start.children
  | .waiting pid => Piped cap c y ∧ ∃ ch, y.st.children = c.start.children ++ [ch] ∧
      ch.pid = pid ∧ ch.owner = c.executor ∧ ch.out = some c.pipe ∧ ch.reaped = false ∧
      Works c y ch
  | .returned | .stored | .finished => Piped cap c y ∧ y.todo = [] ∧
      ∃ ch, y.st.children = c.start.children ++ [ch] ∧ ch.life = .dead (.exited c.code)
  | _ => False

def Polls (y : Sys) (p : Phase) : Prop :=
  match y.call with
  | .entering => False
  | .starting => y.st.pc = .assigning ∧ y.st.ghost.seenStopped = false
  | .polling => y.st.pc = .idle ∧ y.st.ghost.seenStopped = false ∧
      (p ≠ .finished → y.st.threadRunning = true)
  | .leaving | .returned _ => y.st.pc = .idle ∧ p = .finished

/-- The states of a call, before and after the thread has been created. -/
inductive Runs (cap : Nat) (c : Command) (y : Sys) : Prop where
  | before : y = c.init → Runs cap c y
  | after (x : Executor) : y.st.executors = c.start.executors ++ [x] → At cap c y x.phase →
      Polls y x.phase → Runs cap c y

def Settled (c : Command) (y : Sys) : Prop :=
  ∀ x : Executor, y.st.executors = c.start.executors ++ [x] → x.phase = .finished →
    y.call ≠ .starting ∧ y.st.threadRunning = false

def Call.rank : Call → Nat
  | .entering => 4
  | .starting => 3
  | .polling => 2
  | .leaving => 1
  | .returned _ => 0

def Phase.rank : Phase → Nat
  | .created => 8
  | .entered => 7
  | .closed => 6
  | .piped => 5
  | .waiting _ => 4
  | .returned => 3
  | .stored => 2
  | .finished => 1
  | _ => 0

def Child.rank (ch : Child) : Nat :=
  match ch.life, ch.stage with
  | .dead _, _ => 0
  | _, .forked => 2
  | _, _ => 1

def remaining (c : Command) (y : Sys) : Nat :=
  y.call.rank + (y.st.executors[c.executor]?).elim 9 (fun x => x.phase.rank) +
    (y.st.children[c.child]?).elim 3 Child.rank + y.todo.length

theorem At.frame {cap : Nat} {c : Command} {y z : Sys} {p : Phase} (h : At cap c y p)
    (hcmd : z.st.cmdArray = y.st.cmdArray) (he : z.st.executed = y.st.executed)
    (ho : z.st.out = y.st.out) (hc : z.st.children = y.st.children)
    (hp : z.st.pipes = y.st.pipes) (ht : z.todo = y.todo) : At cap c z p := by
  have hpiped (hy : Piped cap c y) : Piped cap c z :=
    ⟨he ▸ hy.executed, ho ▸ hy.out, by rw [hp, ht]; exact hy.written⟩
  cases p <;> simp only [At, Works, hcmd, he, hc, hp, ht] at h ⊢
  case piped | waiting | returned | stored | finished => exact ⟨hpiped h.1, h.2⟩
  all_goals exact h

section Turns
variable {cap : Nat} {c : Command} {y z : Sys}

inductive RunMove (y : Sys) : Sys → Prop where
  | enter : y.call = .entering → y.st.pc = .idle →
      RunMove y { y with st := runAsynchronously y.st true, call := .starting }
  | assign : y.call = .starting → y.st.pc = .assigning →
      RunMove y { y with st := { y.st with threadRunning := true, pc := .idle }, call := .polling }
  | poll : y.call = .polling → y.st.pc = .idle →
      RunMove y { y with
        st := { y.st with ghost := { y.st.ghost with seenStopped := !y.st.threadRunning } }
        call := if y.st.threadRunning then .polling else .leaving }
  | leave : y.call = .leaving → y.st.pc = .idle →
      RunMove y { y with call := .returned y.st.execResult }

theorem runTurn_move (h : runTurn cap y = some z) : RunMove y z := by
  unfold runTurn at h
  split at h
  case h_1 hcall | h_2 hcall | h_3 hcall | h_4 hcall =>
    simp only [step, sketchStep, Option.map_eq_some_iff, Option.ite_none_right_eq_some,
      Option.some.injEq] at h
    obtain ⟨s, ⟨hpc, rfl⟩, rfl⟩ := h
    first
    | exact .enter hcall hpc
    | exact .assign hcall hpc
    | exact .poll hcall hpc
    | exact .leave hcall hpc
  case h_5 => cases h

theorem runs_sketch (hr : Ready c.start) (h : Runs cap c y) (ht : runTurn cap y = some z) :
    Runs cap c z ∧ (z = y ∨ remaining c z < remaining c y) := by
  have hm := runTurn_move ht
  cases h with
  | before he =>
    subst he
    cases hm with
    | enter hcall hpc =>
      simp only [Command.init, runAsynchronously, hr.stopped, Bool.false_eq_true, if_false, if_true]
      refine ⟨.after _ rfl ⟨hr.command, rfl, rfl, rfl⟩ ⟨rfl, rfl⟩, .inr ?_⟩
      simp [remaining, Command.executor, Call.rank, Phase.rank]
    | assign hcall | poll hcall | leave hcall => cases hcall
  | after x hx hat hp =>
    cases hm with
    | enter hcall => simp [Polls, hcall] at hp
    | assign hcall hpc =>
      simp only [Polls, hcall] at hp
      refine ⟨.after x hx (hat.frame rfl rfl rfl rfl rfl rfl) ⟨rfl, hp.2, fun _ => rfl⟩, .inr ?_⟩
      simp only [remaining, hcall, Call.rank]
      omega
    | poll hcall hpc =>
      simp only [Polls, hcall] at hp
      obtain ⟨-, hseen, hflag⟩ := hp
      cases hf : y.st.threadRunning with
      | true =>
        refine ⟨.after x hx (hat.frame rfl rfl rfl rfl rfl rfl) ?_, .inl ?_⟩
        · simp [Polls, hpc, hf]
        · obtain ⟨st, call, todo⟩ := y
          obtain ⟨_, _, _, _, _, _, _, _, _, _, _, g⟩ := st
          obtain ⟨_, _, _, _⟩ := g
          simp_all
      | false =>
        have hfin : x.phase = .finished := by
          by_contra hn
          simp [hflag hn] at hf
        refine ⟨.after x hx (hat.frame rfl rfl rfl rfl rfl rfl) ?_, .inr ?_⟩
        · simpa [Polls, hpc] using hfin
        · simp only [remaining, hcall, Bool.false_eq_true, if_false, Call.rank]
          omega
    | leave hcall hpc =>
      simp only [Polls, hcall] at hp
      refine ⟨.after x hx (hat.frame rfl rfl rfl rfl rfl rfl) hp, .inr ?_⟩
      simp only [remaining, hcall, Call.rank]
      omega

theorem executor_turn {x : Executor} (hx : y.st.executors = c.start.executors ++ [x]) :
    executorTurn cap c y = some z ↔ ∃ a s, x.phase.act c.pid c.child = some a ∧
      execStep y.st c.executor x a = some s ∧ { y with st := s } = z := by
  simp [executorTurn, step, hx, Command.executor, Option.bind_eq_some_iff]

/-- A step of the thread from `x` to `x'`, which keeps the sketch's part. -/
theorem Runs.executor {x x' : Executor} {s : State}
    (hx : y.st.executors = c.start.executors ++ [x])
    (he : s.executors = y.st.executors.set c.executor x') (hp : Polls y x.phase)
    (hat : At cap c { y with st := s } x'.phase) (hpc : s.pc = y.st.pc)
    (hs : s.ghost.seenStopped = y.st.ghost.seenStopped)
    (hf : x'.phase ≠ .finished → s.threadRunning = true ∨
      x.phase ≠ .finished ∧ s.threadRunning = y.st.threadRunning)
    (hn : x.phase ≠ .finished)
    (hrank : x'.phase.rank + (s.children[c.child]?).elim 3 Child.rank <
      x.phase.rank + (y.st.children[c.child]?).elim 3 Child.rank) :
    Runs cap c { y with st := s } ∧ remaining c { y with st := s } < remaining c y := by
  have hx' : s.executors = c.start.executors ++ [x'] := by simp [he, hx, Command.executor]
  refine ⟨.after x' hx' hat ?_, ?_⟩
  · cases hcall : y.call with
    | entering => simp [Polls, hcall] at hp
    | starting =>
      simp only [Polls, hcall] at hp ⊢
      exact ⟨hpc.trans hp.1, hs.trans hp.2⟩
    | polling =>
      simp only [Polls, hcall] at hp ⊢
      refine ⟨hpc.trans hp.1, hs.trans hp.2.1, fun hn' => ?_⟩
      obtain h | ⟨h, h'⟩ := hf hn'
      · exact h
      · exact h'.trans (hp.2.2 h)
    | leaving | returned =>
      simp only [Polls, hcall] at hp
      exact absurd hp.2 hn
  · simp only [remaining, hx, hx', Command.executor, List.getElem?_concat_length, Option.elim_some]
    omega

theorem runs_executor (h : Runs cap c y)
    (ht : executorTurn cap c y = some z) : Runs cap c z ∧ remaining c z < remaining c y := by
  cases h with
  | before he =>
    subst he
    simp [executorTurn, Command.init, Command.executor] at ht
  | after x hx hat hp =>
    obtain ⟨a, s, ha, hs, rfl⟩ := (executor_turn hx).mp ht
    have hm := execStep_move hs
    cases hph : x.phase <;> simp only [hph, Phase.act, Option.some.injEq, reduceCtorEq] at ha <;>
      simp only [hph, At] at hat
    case created =>
      subst ha
      cases hm with
      | noCommand _ hl => exact absurd (List.eq_nil_of_length_eq_zero hl) hat.1
      | enter =>
        exact Runs.executor hx rfl hp ⟨rfl, hat.2⟩ rfl rfl (fun _ => .inl rfl) (by simp [hph])
          (by simp [setExecutor, hph, Phase.rank])
    case entered =>
      subst ha
      cases hm with
      | closePipes =>
        exact Runs.executor hx rfl hp hat rfl rfl (fun _ => .inr ⟨by simp [hph], rfl⟩)
          (by simp [hph]) (by simp [setExecutor, hph, Phase.rank])
    case closed =>
      subst ha
      cases hm with
      | makePipes =>
        obtain ⟨he, hc, hpi, htd⟩ := hat
        refine Runs.executor hx rfl hp ⟨⟨he, ?_, [], ?_, ?_, ?_⟩, hc⟩ rfl rfl
          (fun _ => .inr ⟨by simp [hph], rfl⟩) (by simp [hph])
          (by simp [setExecutor, hph, Phase.rank])
        · simp [setExecutor, hpi, Command.pipe]
        · simp [setExecutor, hpi, Command.pipe]
        · simpa using htd
        · simp
    case piped =>
      subst ha
      cases hm with
      | forkChild pid' =>
        obtain ⟨hpiped, hc⟩ := hat
        refine Runs.executor hx rfl hp ⟨⟨hpiped.executed, hpiped.out, hpiped.written⟩, _, by
          simp [forkChild, setExecutor, hc]; rfl, rfl, rfl, ?_, rfl, .inl ⟨rfl, rfl, by simp⟩⟩ rfl
          rfl (fun _ => .inr ⟨by simp [hph], rfl⟩) (by simp [hph]) ?_
        · simp [hpiped.out, OutEnd.pipe?]
        · simp [forkChild, setExecutor, hph, hc, Phase.rank, Command.child, Child.rank]
    case waiting pid =>
      subst ha
      cases hm with
      | waitpid k ch st hk hrep hw hu =>
        obtain ⟨hpiped, ch₀, hc, -, -, -, -, hworks⟩ := hat
        obtain rfl : ch₀ = ch := by simpa [hc, Command.child] using hk
        obtain ⟨-, hn, -⟩ | ⟨hl, hrep', htd⟩ := hworks
        · simp [hn] at hrep
        · refine Runs.executor hx rfl hp ⟨⟨hpiped.executed, hpiped.out, hpiped.written⟩, htd,
            { ch₀ with report := none, reaped := st.terminated }, ?_, hl⟩ rfl rfl
            (fun _ => .inr ⟨by simp [hph], rfl⟩) (by simp [hph]) ?_
          · simp [waitReturns, setExecutor, hc, Command.child]
          · simp [waitReturns, setExecutor, hph, hc, Phase.rank, Command.child, Child.rank, hl]
    case returned =>
      subst ha
      cases hm with
      | store =>
        exact Runs.executor hx rfl hp
          ⟨⟨hat.1.executed, hat.1.out, hat.1.written⟩, hat.2⟩ rfl rfl
          (fun _ => .inr ⟨by simp [hph], rfl⟩) (by simp [hph])
          (by simp [setExecutor, hph, Phase.rank])
    case stored =>
      subst ha
      cases hm with
      | clear p hcl =>
        obtain rfl : .finished = p := by simpa [hph, Phase.cleared] using hcl
        exact Runs.executor hx rfl hp ⟨⟨hat.1.executed, hat.1.out, hat.1.written⟩, hat.2⟩ rfl rfl
          (fun hn => absurd rfl hn) (by simp [hph]) (by simp [setExecutor, hph, Phase.rank])

theorem childTurn_none (h : ∀ ch : Child, y.st.children[c.child]? = some ch →
    ∃ st, ch.life = .dead st) : childTurn cap c y = none := by
  cases hk : y.st.children[c.child]? with
  | none => simp [childTurn, hk]
  | some ch =>
    obtain ⟨st, hl⟩ := h ch hk
    simp only [childTurn, hk, Option.bind_some]
    split <;> simp [step, hk, childStep, Child.act, hl]

theorem Runs.child {x : Executor} (ch' : Child) {pid : Pid}
    (hx : y.st.executors = c.start.executors ++ [x]) (hph : x.phase = .waiting pid)
    (hp : Polls y x.phase)
    (hst : z.st = { y.st with children := z.st.children, pipes := z.st.pipes })
    (hcall : z.call = y.call) (hpiped : Piped cap c z)
    (hc : z.st.children = c.start.children ++ [ch'])
    (hpid : ch'.pid = pid) (ho : ch'.owner = c.executor) (hout : ch'.out = some c.pipe)
    (hr : ch'.reaped = false) (hw : Works c z ch')
    (hrank : ch'.rank + z.todo.length <
      (y.st.children[c.child]?).elim 3 Child.rank + y.todo.length) :
    Runs cap c z ∧ remaining c z < remaining c y := by
  have hxz : z.st.executors = y.st.executors := by rw [hst]
  refine ⟨.after x (hxz.trans hx) ?_ ?_, ?_⟩
  · rw [hph]
    exact ⟨hpiped, ch', hc, hpid, ho, hout, hr, hw⟩
  · unfold Polls at hp ⊢
    rw [hcall, hst]
    exact hp
  · simp only [remaining, hxz, hcall, hc, Command.child, List.getElem?_concat_length,
      Option.elim_some] at hrank ⊢
    omega

theorem runs_child (h : Runs cap c y) (ht : childTurn cap c y = some z) :
    Runs cap c z ∧ remaining c z < remaining c y := by
  have hnone (hn : ∀ ch : Child, y.st.children[c.child]? = some ch → ∃ st, ch.life = .dead st) :
      Runs cap c z ∧ remaining c z < remaining c y := by
    simp [childTurn_none hn] at ht
  cases h with
  | before he => exact hnone (by simp [he, Command.init, Command.child])
  | after x hx hat hp =>
    cases hph : x.phase <;> simp only [hph, At] at hat
    case created => exact hnone (by simp [hat.2.1, Command.child])
    case entered | closed => exact hnone (by simp [hat.2.1, Command.child])
    case piped => exact hnone (by simp [hat.2, Command.child])
    case returned | stored | finished =>
      obtain ⟨-, -, ch, hc, hl⟩ := hat
      exact hnone (by simp [hc, hl, Command.child])
    case waiting pid =>
      obtain ⟨hpiped, ch, hc, hpid, ho, hout, hr, hworks⟩ := hat
      have hk : y.st.children[c.child]? = some ch := by simp [hc, Command.child]
      obtain ⟨hl, hrep, hstage⟩ | ⟨hl, -⟩ := hworks
      · simp only [childTurn, hk, Option.bind_some] at ht
        cases hs : ch.stage with
        | execFailed => exact absurd hs hstage
        | forked =>
          simp [hs, step, hk, childStep, Child.act, hl] at ht
          subst ht
          refine Runs.child { ch with stage := .program } hx hph hp rfl rfl
            ⟨hpiped.executed, hpiped.out, hpiped.written⟩ ?_ hpid ho hout hr
            (.inl ⟨hl, hrep, by simp⟩) ?_
          · simp [hc, hl, Command.child]
          · simp [hk, Child.rank, hl, hs]
        | program =>
          cases htd : y.todo with
          | nil =>
            simp [hs, htd, step, hk, childStep, Child.act, hl] at ht
            subst ht
            refine Runs.child (ch.dies (.exited c.code)) hx hph hp rfl rfl
              ⟨hpiped.executed, hpiped.out, by simpa [htd] using hpiped.written⟩ ?_ hpid ho hout hr
              (.inr ⟨rfl, rfl, rfl⟩) ?_
            · simp [hc, Command.child]
            · simp only [hk, Option.elim_some, Child.rank, hl, hs, Child.dies, htd]
              omega
          | cons b bs =>
            obtain ⟨done, hq, hdone, hle⟩ := hpiped.written
            simp [hs, htd, step, hk, childStep, Child.act, hl, hout, hq] at ht
            obtain ⟨hlt, rfl⟩ := ht
            refine Runs.child ch hx hph hp rfl rfl ⟨hpiped.executed, hpiped.out, done ++ [b], ?_⟩
              hc hpid ho hout hr (.inl ⟨hl, hrep, hstage⟩) ?_
            · simpa [row_set_self hq, ho, ← hdone, htd] using Nat.succ_le_of_lt hlt
            · simp [hk, htd]
      · exact hnone (by simp [hk, hl])

theorem runs_turn {p : Party} (hr : Ready c.start) (h : Runs cap c y)
    (ht : turn cap c y p = some z) :
    Runs cap c z ∧ (z = y ∨ remaining c z < remaining c y) := by
  cases p with
  | sketch => exact runs_sketch hr h ht
  | executor => exact (runs_executor h ht).imp_right .inr
  | child => exact (runs_child h ht).imp_right .inr

theorem childTurn_frame (h : childTurn cap c y = some z) :
    z.call = y.call ∧ z.st.executors = y.st.executors ∧
      z.st.threadRunning = y.st.threadRunning := by
  have hstep : ∀ (a : ChildAct) (s : State), step cap y.st (.child c.child a) = some s →
      s.executors = y.st.executors ∧ s.threadRunning = y.st.threadRunning := by
    intro a s hs
    obtain ⟨ch, -, hm⟩ := Option.bind_eq_some_iff.mp hs
    obtain ⟨_, _, _, rfl⟩ | ⟨_, _, _, _, _, _, _, _, _, rfl⟩ | ⟨_, _, _, rfl⟩ :=
      childStep_cases hm <;> exact ⟨rfl, rfl⟩
  obtain ⟨ch, -, h⟩ := Option.bind_eq_some_iff.mp h
  split at h
  · obtain ⟨s, hs, rfl⟩ := Option.map_eq_some_iff.mp h
    exact ⟨rfl, hstep _ s hs⟩
  · obtain ⟨s, hs, rfl⟩ := Option.map_eq_some_iff.mp h
    exact ⟨rfl, hstep _ s hs⟩
  · obtain ⟨s, hs, rfl⟩ := Option.map_eq_some_iff.mp h
    exact ⟨rfl, hstep _ s hs⟩
  · cases h

theorem settled_init : Settled c c.init := by
  intro x hx
  simp [Command.init] at hx

theorem settled_turn {p : Party} (hr : Ready c.start) (h : Runs cap c y) (hs : Settled c y)
    (ht : turn cap c y p = some z) (hq : StoredFirst c y p z) : Settled c z := by
  rintro x' hx' hfin
  cases h with
  | before he =>
    subst he
    cases p with
    | sketch =>
      cases runTurn_move (show runTurn cap c.init = some z from ht) with
      | enter =>
        simp only [Command.init, runAsynchronously, hr.stopped, Bool.false_eq_true, if_false,
          if_true] at hx'
        obtain rfl : _ = x' := by simpa using hx'
        simp at hfin
      | assign hcall | poll hcall | leave hcall => cases hcall
    | executor => simp [turn, executorTurn, Command.init, Command.executor] at ht
    | child => simp [turn, childTurn, Command.init, Command.child] at ht
  | after x hx hat hp =>
    cases p with
    | sketch =>
      cases runTurn_move (show runTurn cap y = some z from ht) with
      | enter hcall => simp [Polls, hcall] at hp
      | assign hcall => exact absurd hcall (hs x' hx' hfin).1
      | poll => exact ⟨by dsimp only; split <;> simp, (hs x' hx' hfin).2⟩
      | leave => exact ⟨by simp, (hs x' hx' hfin).2⟩
    | executor =>
      obtain ⟨a, s, ha, hs', rfl⟩ := (executor_turn hx).mp ht
      have hm := execStep_move hs'
      cases hm with
      | clear p hcl =>
        refine ⟨fun hcall => ?_, rfl⟩
        have hnone := hq rfl hcall x (by simp [hx, Command.executor])
        simp [hnone] at hcl
      | fail hph => simp [At, hph] at hat
      | _ =>
        simp only [setExecutor, forkFails, forkChild, waitReturns, hx, Command.executor,
          List.set_append_right _ _ (Nat.le_refl _), Nat.sub_self, List.set_cons_zero,
          List.append_cancel_left_eq, List.cons.injEq, and_true] at hx'
        simp [← hx'] at hfin
    | child =>
      obtain ⟨hcall, hex, hf⟩ := childTurn_frame ht
      rw [hcall, hf]
      exact hs x' (hex ▸ hx') hfin

theorem executor_enabled {x : Executor} (hx : y.st.executors = c.start.executors ++ [x])
    (hat : At cap c y x.phase) (hn : x.phase ≠ .finished)
    (hw : ∀ pid, x.phase = .waiting pid → ∃ ch, y.st.children[c.child]? = some ch ∧
      ch.report ≠ none ∧ ch.pid = pid ∧ ch.reaped = false) :
    ∃ z, turn cap c y .executor = some z := by
  suffices h : ∃ a s, x.phase.act c.pid c.child = some a ∧
      execStep y.st c.executor x a = some s by
    obtain ⟨a, s, ha, hs⟩ := h
    exact ⟨_, (executor_turn hx).mpr ⟨a, s, ha, hs, rfl⟩⟩
  cases hph : x.phase <;> simp only [hph, At] at hat <;>
    simp only [Phase.act, Option.some.injEq]
  case created | entered | closed | returned => simp [execStep, hph]
  case piped =>
    have hfresh : c.pid ∉ livePids y.st.children := hat.2 ▸ c.fresh
    simp [execStep, hph, hfresh]
  case waiting pid =>
    obtain ⟨ch, hk, hrep, hpid, hreap⟩ := hw pid hph
    obtain ⟨st, hst⟩ := Option.ne_none_iff_exists'.mp hrep
    simp [execStep, hph, hk, hst, hpid, hreap]
  case stored => simp [execStep, hph, Phase.cleared]
  case finished => exact absurd hph hn

/-- The child can move until it has exited, if the pipe has room for all of its output. -/
theorem child_enabled {ch : Child} (hle : c.out.length ≤ cap) (hpiped : Piped cap c y)
    (hk : y.st.children[c.child]? = some ch) (hl : ch.life = .running)
    (hs : ch.stage ≠ .execFailed) (ho : ch.out = some c.pipe) :
    ∃ z, turn cap c y .child = some z := by
  simp only [turn, childTurn, hk, Option.bind_some]
  cases hstage : ch.stage with
  | execFailed => exact absurd hstage hs
  | forked => simp [step, hk, childStep, Child.act, hl, hstage]
  | program =>
    cases htd : y.todo with
    | nil => simp [step, hk, childStep, Child.act, hl, hstage]
    | cons b bs =>
      obtain ⟨done, hq, hdone, -⟩ := hpiped.written
      have hroom : done.length < cap := by
        have := congrArg List.length hdone
        simp [htd] at this
        omega
      simp [step, hk, childStep, Child.act, hl, hstage, ho, hq, hroom]

/-- With room in the pipe for all of the output, a party can move on. -/
theorem turn_enabled (hr : Ready c.start) (hle : c.out.length ≤ cap) (h : Runs cap c y)
    (hs : Settled c y) (hn : ¬ Returned y) :
    ∃ p z, turn cap c y p = some z ∧ remaining c z < remaining c y ∧ StoredFirst c y p z := by
  have hsketch (z : Sys) (ht : runTurn cap y = some z) (hne : z.call ≠ y.call) :
      ∃ p z, turn cap c y p = some z ∧ remaining c z < remaining c y ∧ StoredFirst c y p z := by
    obtain ⟨-, rfl | hlt⟩ := runs_sketch hr h ht
    · exact absurd rfl hne
    · exact ⟨.sketch, z, ht, hlt, by simp [StoredFirst]⟩
  cases h with
  | before he =>
    subst he
    refine hsketch _ (by
      simp only [runTurn, Command.init, step, sketchStep, hr.idle, if_true, Option.map_some]
      rfl) (by simp [Command.init])
  | after x hx hat hp =>
    cases hcall : y.call with
    | entering => simp [Polls, hcall] at hp
    | starting =>
      simp only [Polls, hcall] at hp
      refine hsketch _ (by
        simp only [runTurn, hcall, step, sketchStep, hp.1, if_true, Option.map_some]
        rfl) (by simp [hcall])
    | leaving =>
      simp only [Polls, hcall] at hp
      refine hsketch _ (by
        simp only [runTurn, hcall, step, sketchStep, hp.1, if_true, Option.map_some]
        rfl) (by simp [hcall])
    | returned r => exact absurd ⟨r, hcall⟩ hn
    | polling =>
      simp only [Polls, hcall] at hp
      by_cases hfin : x.phase = .finished
      · have hf := (hs x hx hfin).2
        refine hsketch _ (by
          simp only [runTurn, hcall, step, sketchStep, hp.1, if_true, Option.map_some, hf]
          rfl) (by simp [hcall])
      · have hexec (z : Sys) (ht : turn cap c y .executor = some z) :
            ∃ p z, turn cap c y p = some z ∧ remaining c z < remaining c y ∧
              StoredFirst c y p z :=
          ⟨.executor, z, ht, (runs_executor (.after x hx hat (by simpa [Polls, hcall] using hp))
            ht).2, fun _ hst => by simp [hcall] at hst⟩
        by_cases hw : ∃ pid, x.phase = .waiting pid
        · obtain ⟨pid, hph⟩ := hw
          have hat' := hat
          simp only [hph, At] at hat'
          obtain ⟨hpiped, ch, hc, hpid, -, hout, hreap, hworks⟩ := hat'
          have hk : y.st.children[c.child]? = some ch := by simp [hc, Command.child]
          obtain ⟨hl, -, hstage⟩ | ⟨-, hrep, -⟩ := hworks
          · obtain ⟨z, hz⟩ := child_enabled hle hpiped hk hl hstage hout
            exact ⟨.child, z, hz, (runs_child (.after x hx hat (by simpa [Polls, hcall] using hp))
              hz).2, by simp [StoredFirst]⟩
          · obtain ⟨z, hz⟩ := executor_enabled hx hat hfin (fun pid' hpid' => by
              obtain rfl : pid = pid' := by simpa [hph] using hpid'
              exact ⟨ch, hk, by simp [hrep], hpid, hreap⟩)
            exact hexec z hz
        · obtain ⟨z, hz⟩ := executor_enabled hx hat hfin (fun pid hph => absurd ⟨pid, hph⟩ hw)
          exact hexec z hz

/-- More output than the pipe holds: the child never comes to its exit. -/
theorem not_exited (hlt : cap < c.out.length) (h : Runs cap c y) : ¬ Exited c y := by
  rintro ⟨ch, hk, hal⟩
  have hshort (hp : Piped cap c y) (htd : y.todo = []) : False := by
    obtain ⟨done, -, hdone, hle⟩ := hp.written
    rw [htd, List.append_nil] at hdone
    rw [hdone] at hle
    omega
  cases h with
  | before he => simp [he, Command.init, Command.child] at hk
  | after x hx hat hp =>
    cases hph : x.phase <;> simp only [hph, At] at hat
    case created => simp [hat.2.1, Command.child] at hk
    case entered | closed => simp [hat.2.1, Command.child] at hk
    case piped => simp [hat.2, Command.child] at hk
    case waiting pid =>
      obtain ⟨hpiped, ch', hc, -, -, -, -, ⟨hl, -⟩ | ⟨-, -, htd⟩⟩ := hat
      · obtain rfl : ch' = ch := by simpa [hc, Command.child] using hk
        simp [Child.alive, hl] at hal
      · exact hshort hpiped htd
    case returned | stored | finished => exact hshort hat.1 hat.2.1

/-- The thread has finished, and the flag is set or about to be. -/
structure Hung (c : Command) (y : Sys) : Prop where
  finished : ∀ x : Executor, y.st.executors[c.executor]? = some x → x.phase = .finished
  flag : y.call = .starting ∨ y.call = .polling ∧ y.st.threadRunning = true

theorem hung_turn {p : Party} (h : Hung c y) (ht : turn cap c y p = some z) : Hung c z := by
  cases p with
  | sketch =>
    cases runTurn_move (show runTurn cap y = some z from ht) with
    | enter hcall | leave hcall =>
      obtain hflag | ⟨hflag, -⟩ := h.flag <;> simp [hcall] at hflag
    | assign => exact ⟨h.finished, .inr ⟨rfl, rfl⟩⟩
    | poll hcall =>
      obtain hflag | ⟨-, hf⟩ := h.flag
      · simp [hcall] at hflag
      · exact ⟨h.finished, .inr ⟨by simp [hf], hf⟩⟩
  | executor =>
    obtain ⟨x, hx, hact⟩ := Option.bind_eq_some_iff.mp ht
    simp [h.finished x hx, Phase.act] at hact
  | child =>
    obtain ⟨hcall, hex, hf⟩ := childTurn_frame ht
    exact ⟨by rw [hex]; exact h.finished, by rw [hcall, hf]; exact h.flag⟩

/-- The flag cleared before the sketch stores it: nobody is left to clear it again. -/
theorem late_store_hangs {p : Party} (h : Runs cap c y) (ht : turn cap c y p = some z)
    (hq : ¬ StoredFirst c y p z) {ls : List Party} {w : Sys}
    (hw : run (turn cap c) ls z = some w) : ¬ Returned w := by
  have hung : Hung c z := by
    simp only [StoredFirst, Classical.not_imp, not_forall] at hq
    obtain ⟨rfl, hcall, x, hx, hcl⟩ := hq
    cases h with
    | before he => simp [he, Command.init] at hcall
    | after x' hx' hat hp =>
      obtain rfl : x' = x := by simpa [hx', Command.executor] using hx
      obtain ⟨a, s, ha, hs, rfl⟩ := (executor_turn hx').mp ht
      have hph : x'.phase = .stored := by
        cases hph : x'.phase <;> simp_all [Phase.cleared, At]
      obtain rfl : .clear = a := by simpa [hph, Phase.act] using ha
      simp only [execStep, hph, Phase.cleared, Option.some.injEq] at hs
      subst hs
      refine ⟨fun x hx => ?_, .inl hcall⟩
      obtain rfl : _ = x := by simpa [setExecutor, hx', Command.executor] using hx
      rfl
  rintro ⟨r, hr⟩
  obtain hcall | ⟨hcall, -⟩ := (run_invariant' (fun _ _ _ => hung_turn) hung hw).flag <;>
    simp [hr] at hcall

end Turns

theorem readAll_eq {s : State} {q i : Nat} {data : List UInt8} (env : List UInt8)
    (he : s.executed = true) (ho : s.out = .pipe q)
    (hq : s.pipes[q]? = some ⟨i, data.map fun b => (i, b)⟩) (lens : List Nat) :
    readAll s env lens = data.take lens.sum := by
  induction lens generalizing s data with
  | nil => simp [readAll]
  | cons len lens ih =>
    have hq' : (read s len).pipes[q]? = some ⟨i, (data.drop len).map fun b => (i, b)⟩ := by
      simp [read, he, ho, hq]
    have hrest := ih (s := read s len) (by simp [read, he, ho]) (by simp [read, he, ho]) hq'
    simp only [readAll, hrest, readBytes, he, ho, hq, if_true, List.map_take, List.map_map,
      List.sum_cons]
    rw [List.take_add]
    simp [Function.comp_def]

section Progress
variable {cap : Nat} {c : Command}

theorem returned_exited {y : Sys} (h : Runs cap c y) (hret : Returned y) : Exited c y := by
  obtain ⟨r, hcall⟩ := hret
  cases h with
  | before he => simp [he, Command.init] at hcall
  | after x hx hat hp =>
    simp only [Polls, hcall] at hp
    simp only [hp.2, At] at hat
    obtain ⟨-, -, ch, hc, hl⟩ := hat
    exact ⟨ch, by simp [hc, Command.child], by simp [Child.alive, hl]⟩

theorem returned_delivers {y : Sys} (h : Runs cap c y) (hret : Returned y) (env : List UInt8)
    (lens : List Nat) : readAll y.st env lens = c.out.take lens.sum := by
  obtain ⟨r, hcall⟩ := hret
  cases h with
  | before he => simp [he, Command.init] at hcall
  | after x hx hat hp =>
    simp only [Polls, hcall] at hp
    simp only [hp.2, At] at hat
    obtain ⟨hpiped, htd, -⟩ := hat
    obtain ⟨done, hq, hdone, -⟩ := hpiped.written
    rw [htd, List.append_nil] at hdone
    rw [← hdone]
    exact readAll_eq env hpiped.executed hpiped.out hq lens

variable (hr : Ready c.start)
include hr

theorem runs_of_run {ls : List Party} {y : Sys} (h : run (turn cap c) ls c.init = some y) :
    Runs cap c y :=
  run_invariant' (fun _ _ _ hi ht => (runs_turn hr hi ht).1) (.before rfl) h

theorem settled_of_run {ls : List Party} {y : Sys} (h : run (turn cap c) ls c.init = some y)
    (hq : Along (turn cap c) (StoredFirst c) ls c.init) : Runs cap c y ∧ Settled c y :=
  run_invariant (I := fun y => Runs cap c y ∧ Settled c y)
    (fun _ _ _ hi ht hl => ⟨(runs_turn hr hi.1 ht).1, settled_turn hr hi.1 hi.2 ht hl⟩)
    ⟨.before rfl, settled_init⟩ h hq

theorem not_reaches_exited (hlt : cap < c.out.length) {z : Sys}
    (h : Reaches (turn cap c) c.init z) : ¬ Exited c z := by
  obtain ⟨ls, hl⟩ := h
  exact not_exited hlt (runs_of_run hr hl)

end Progress

/-- run() has no deadlock exactly when the pipe holds all of the output. -/
theorem run_progresses_iff (cap : Nat) (c : Command) (hr : Ready c.start) :
    Progresses cap c (StoredFirst c) ↔ c.out.length ≤ cap := by
  constructor
  · intro h
    by_contra hlt
    obtain ⟨z, hz, hex⟩ := h.advances [] c.init rfl trivial
    exact not_reaches_exited hr (Nat.lt_of_not_le hlt) hz hex
  · intro hle
    refine ⟨?_, ?_, ?_⟩
    · intro ls y hy hq
      obtain ⟨z, hz, ⟨hi, -⟩, hret⟩ := reaches_of_measure
        (I := fun y => Runs cap c y ∧ Settled c y) (G := Returned) (remaining c)
        (fun y hi hn => by
          obtain ⟨p, z, ht, hlt, hst⟩ := turn_enabled hr hle hi.1 hi.2 hn
          exact ⟨p, z, ht, ⟨(runs_turn hr hi.1 ht).1, settled_turn hr hi.1 hi.2 ht hst⟩, hlt⟩)
        (settled_of_run hr hy hq)
      exact ⟨z, hz, returned_exited hi hret⟩
    · intro σ hσ hq
      exact fair_reaches (I := fun y => Runs cap c y ∧ Settled c y) (remaining c)
        (fun y p z hi ht hst => ⟨⟨(runs_turn hr hi.1 ht).1, settled_turn hr hi.1 hi.2 ht hst⟩,
          (runs_turn hr hi.1 ht).2⟩)
        (fun y hi hn => by
          obtain ⟨p, z, ht, hlt, -⟩ := turn_enabled hr hle hi.1 hi.2 hn
          exact ⟨p, z, ht, hlt⟩)
        hσ ⟨.before rfl, settled_init⟩ hq
    · intro ls y env lens hy hq hret
      exact returned_delivers (settled_of_run hr hy hq).1 hret env lens

def shellCommand (command : String) : List Label :=
  [.sketch (.begin "/bin/sh"), .sketch .reset, .sketch (.addParameter "-c"),
    .sketch (.addParameter command)]

theorem shellCommand_ready {s : State} (cap : Nat) (command : String) (hpc : s.pc = .idle)
    (hf : s.threadRunning = false) :
    ∃ t, run (step cap) (shellCommand command) s = some t ∧ Ready t ∧
      t.cmdArray = ["/bin/sh", "-c", command] := by
  simp only [shellCommand, run, step, sketchStep, hpc, enterClose, hf, if_true, if_false,
    Bool.false_eq_true, Option.bind_some, Rest.pc, beginBody, addParameter]
  exact ⟨_, rfl, ⟨rfl, rfl, by simp⟩, rfl⟩

def lsCommand (out : List UInt8) : Command where
  start := beginBody init "ls"
  pid := ⟨12, by decide⟩
  fresh := by decide
  code := 0
  out := out

theorem lsCommand_ready (out : List UInt8) : Ready (lsCommand out).start :=
  ⟨rfl, rfl, by simp [lsCommand, beginBody]⟩

theorem run_progresses_iff_ls : Ready (lsCommand [104, 105]).start ∧
    Progresses 2 (lsCommand [104, 105]) (StoredFirst (lsCommand [104, 105])) :=
  ⟨lsCommand_ready _, (run_progresses_iff 2 _ (lsCommand_ready _)).mpr (by decide)⟩

/-- Two bytes into a pipe that holds one: no schedule comes to the child's exit. -/
theorem full_pipe_blocks_run : ¬ ∀ (cap : Nat) (c : Command), 1 ≤ cap → Ready c.start →
    Progresses cap c fun _ _ _ => True := by
  intro h
  obtain ⟨z, hz, hex⟩ := (h 1 (lsCommand [104, 105]) (Nat.le_refl 1)
    (lsCommand_ready _)).advances [] _ rfl trivial
  exact not_reaches_exited (lsCommand_ready _) (by decide) hz hex

end RasPiArduino.Process
