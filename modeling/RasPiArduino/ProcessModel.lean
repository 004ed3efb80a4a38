import RasPiArduino.Transition

/-! The class Process: its fields, the sketch inside a call, the executor threads
inside `execute`, and the forked children with their wait statuses and pipes.
The steps of `execute` are its entry, the close of the pipes, their creation, fork up
to the call of waitpid, the return of waitpid, and each store after it. -/
namespace RasPiArduino.Process

structure Signal where
  num : Nat
  pos : 0 < num
  le : num ≤ 64
  deriving DecidableEq, Repr

def sigkill : Signal := ⟨9, by decide, by decide⟩

/-- What waitpid(pid, &status, WUNTRACED | WCONTINUED) can report. -/
inductive WaitStatus where
  | exited (code : UInt8)
  | signaled (sig : Signal) (core : Bool)
  | stopped (sig : Signal)
  | continued
  deriving DecidableEq, Repr

def WaitStatus.raw : WaitStatus → Int
  | .exited code => code.toNat * 256
  | .signaled sig core => sig.num + if core then 128 else 0
  | .stopped sig => sig.num * 256 + 127
  | .continued => 65535

def WaitStatus.terminated : WaitStatus → Bool
  | .exited _ | .signaled _ _ => true
  | .stopped _ | .continued => false

def wexitstatus (status : Int) : Int := status / 256 % 256

/-- fork returns a positive pid in the parent. -/
abbrev Pid := {n : Nat // 0 < n}

inductive Stage where
  | forked | program | execFailed
  deriving DecidableEq, Repr

inductive Life where
  | running | stopped
  | dead (st : WaitStatus)
  deriving DecidableEq, Repr

structure Child where
  pid : Pid
  owner : Nat               -- the executor thread that forked it
  argv : List String
  out : Option Nat          -- the pipe behind descriptor 1
  stage : Stage
  life : Life
  report : Option WaitStatus  -- the change of state waitpid has not reported yet
  reaped : Bool
  deriving DecidableEq, Repr

/-- A pipe for stdout; every byte carries the executor whose child wrote it. -/
structure Pipe where
  creator : Nat
  data : List (Nat × UInt8)
  deriving DecidableEq, Repr

/-- pipes.out: whatever the memory held, closed, or a pipe made by `execute`. -/
inductive OutEnd where
  | unset | closed
  | pipe (q : Nat)
  deriving DecidableEq, Repr

def OutEnd.pipe? : OutEnd → Option Nat
  | .pipe q => some q
  | _ => none

inductive Phase where
  | created                 -- the thread has not entered `execute`
  | noCommand               -- arlen == 0: -2 stored
  | entered                 -- success, executed, thread_running stored, argv copied
  | closed                  -- the old descriptors closed
  | piped                   -- the pipes made
  | forkFailed              -- fork returned -1
  | forkCleared             -- thread_running cleared, -3 not yet stored
  | waiting (pid : Pid)     -- blocked in waitpid
  | returned                -- waitpid has stored the raw status
  | stored                  -- exec_result and success stored
  | finished
  deriving DecidableEq, Repr

/-- An executor thread. `epoch`, `child`, `report` and `result` only record what
happened: the begin() it runs for, its child, what waitpid returned, its result. -/
structure Executor where
  phase : Phase
  argv : List String
  epoch : Nat
  child : Option Nat
  report : Option WaitStatus
  result : Option Int
  deriving DecidableEq, Repr

inductive Rest where
  | ret
  | reset (cmd : String)    -- the body of begin()
  | free                    -- the body of the destructor
  deriving DecidableEq, Repr

inductive Pc where
  | idle
  | closing (r : Rest)      -- in close(), thread_running was set
  | finishing (r : Rest)
  | assigning               -- pthread_create has returned 0, not yet stored
  | gone                    -- the object is destroyed
  deriving DecidableEq, Repr

def Rest.pc : Rest → Pc
  | .ret => .idle
  | r => .finishing r

/-- Bookkeeping for the statements; no step reads it. `lastFork` is the executor
that stored its child's pid in exec_pid last, none after another store. -/
structure Ghost where
  begins : Nat
  current : Option Nat      -- the executor started last, none after begin()
  seenStopped : Bool        -- running() returned false since
  lastFork : Option Nat
  deriving DecidableEq, Repr

structure State where
  success : Bool
  executed : Bool
  cmdArray : List String
  execPid : Int
  execResult : Int
  out : OutEnd
  threadRunning : Bool
  pc : Pc
  executors : List Executor
  children : List Child
  pipes : List Pipe
  ghost : Ghost
  deriving DecidableEq, Repr

def init : State where
  success := false
  executed := false
  cmdArray := []
  execPid := -1
  execResult := 0
  out := .unset
  threadRunning := false
  pc := .idle
  executors := []
  children := []
  pipes := []
  ghost := ⟨0, none, false, none⟩

/-! Steps of the sketch's thread. -/

inductive SketchAct where
  | begin (cmd : String)
  | addParameter (param : String)
  | close
  | destroy
  | runAsynchronously (created : Bool)   -- did pthread_create succeed
  | running
  | exitValue
  | read (len : Nat) (env : List UInt8)  -- env: what descriptors not ours hold
  | kill | reset | free | assign         -- the rest of a call
  deriving DecidableEq, Repr

/-- kill(pid, SIGKILL) reaches a child: -1 means every process, 0 the group. -/
def killHits (pid : Int) (c : Child) : Bool :=
  pid == -1 || pid == 0 || pid == (c.pid.val : Int)

def Child.dies (c : Child) (st : WaitStatus) : Child :=
  { c with life := .dead st, report := some st }

def Child.alive (c : Child) : Bool :=
  match c.life with
  | .dead _ => false
  | _ => true

def kill (pid : Int) (cs : List Child) : List Child :=
  cs.map fun c => if c.alive && killHits pid c then c.dies (.signaled sigkill false) else c

def enterClose (s : State) (r : Rest) : State :=
  if s.threadRunning then { s with pc := .closing r } else { s with pc := r.pc }

def beginBody (s : State) (cmd : String) : State :=
  { s with
    cmdArray := [cmd]
    success := false
    executed := false
    execPid := -1
    execResult := 0
    threadRunning := false
    pc := .idle
    ghost := ⟨s.ghost.begins+1, none, false, none⟩ }

def addParameter (s : State) (param : String) : State :=
  if s.threadRunning then s
  else if s.cmdArray.length = 0 then s
  else { s with cmdArray := s.cmdArray ++ [param] }

def runAsynchronously (s : State) (created : Bool) : State :=
  if s.threadRunning then { s with execResult := -4 }
  else if created then
    { s with
      pc := .assigning
      executors := s.executors ++ [⟨.created, [], s.ghost.begins, none, none, none⟩]
      ghost := { s.ghost with current := some s.executors.length, seenStopped := false } }
  else
    { s with
      threadRunning := false
      execResult := -5
      ghost := { s.ghost with current := none, seenStopped := false } }

/-- The bytes a read of `len` bytes delivers, each with its writer: nothing before
`executed` is set, at most what FIONREAD counts. -/
def readBytes (s : State) (len : Nat) (env : List UInt8) : List (Option Nat × UInt8) :=
  if s.executed then
    match s.out with
    | .unset => (env.take len).map fun b => (none, b)
    | .closed => []
    | .pipe q => match s.pipes[q]? with
      | none => []
      | some p => (p.data.take len).map fun d => (some d.1, d.2)
  else []

def read (s : State) (len : Nat) : State :=
  match s.executed, s.out with
  | true, .pipe q =>
    { s with pipes := s.pipes.modify q fun p => { p with data := p.data.drop len } }
  | _, _ => s

def sketchStep (s : State) : SketchAct → Option State
  | .begin cmd => if s.pc = .idle then some (enterClose s (.reset cmd)) else none
  | .addParameter param => if s.pc = .idle then some (addParameter s param) else none
  | .close => if s.pc = .idle then some (enterClose s .ret) else none
  | .destroy => if s.pc = .idle then some (enterClose s .free) else none
  | .runAsynchronously created =>
    if s.pc = .idle then some (runAsynchronously s created) else none
  | .running =>
    if s.pc = .idle then
      some { s with ghost := { s.ghost with seenStopped := !s.threadRunning } }
    else none
  | .exitValue => if s.pc = .idle then some s else none
  | .read len _ => if s.pc = .idle then some (read s len) else none
  | .kill => match s.pc with
    | .closing r =>
      some { s with children := kill s.execPid s.children, pc := r.pc }
    | _ => none
  | .reset => match s.pc with
    | .finishing (.reset cmd) => some (beginBody s cmd)
    | _ => none
  | .free => if s.pc = .finishing .free then some { s with cmdArray := [], pc := .gone } else none
  | .assign =>
    if s.pc = .assigning then some { s with threadRunning := true, pc := .idle } else none

/-! Steps of an executor thread. -/

inductive ExecAct where
  | start
  | closePipes
  | makePipes (ok : Bool)       -- did pipe(pipes.out.pipes) succeed
  | fork (pid : Option Pid)     -- none: fork returned -1
  | waitpid (k : Nat)           -- the child whose change of state it returns
  | store
  | clear
  | fail
  deriving DecidableEq, Repr

def livePids (cs : List Child) : List Pid := (cs.filter fun c => !c.reaped).map Child.pid

def setExecutor (s : State) (i : Nat) (x : Executor) : State :=
  { s with executors := s.executors.set i x }

def enter (s : State) (i : Nat) (x : Executor) : State :=
  if s.cmdArray.length = 0 then
    setExecutor { s with execResult := -2 } i { x with phase := .noCommand, result := some (-2) }
  else
    setExecutor { s with success := false, executed := true, threadRunning := true } i
      { x with phase := .entered, argv := s.cmdArray }

def makePipes (s : State) (i : Nat) (x : Executor) (ok : Bool) : State :=
  if ok then
    setExecutor { s with out := .pipe s.pipes.length, pipes := s.pipes ++ [⟨i, []⟩] } i
      { x with phase := .piped }
  else setExecutor s i { x with phase := .piped }

def forkFails (s : State) (i : Nat) (x : Executor) : State :=
  setExecutor { s with execPid := -1, ghost := { s.ghost with lastFork := none } } i
    { x with phase := .forkFailed, result := some (-3) }

def forkChild (s : State) (i : Nat) (x : Executor) (pid : Pid) : State :=
  setExecutor { s with
      execPid := pid.val
      ghost := { s.ghost with lastFork := some i }
      children := s.children ++ [{
        pid := pid
        owner := i
        argv := x.argv
        out := s.out.pipe?
        stage := .forked
        life := .running
        report := none
        reaped := false }] } i
    { x with phase := .waiting pid, child := some s.children.length, report := none }

/-- waitpid returns: a termination reaps the child, a stop or a continue does not. -/
def waitReturns (s : State) (i : Nat) (x : Executor) (k : Nat) (c : Child) (st : WaitStatus) :
    State :=
  setExecutor { s with
      execResult := st.raw
      children := s.children.set k { c with report := none, reaped := st.terminated } } i
    { x with phase := .returned, report := some st, result := some (wexitstatus st.raw) }

def Phase.cleared : Phase → Option Phase
  | .noCommand | .stored => some .finished
  | .forkFailed => some .forkCleared
  | _ => none

def execStep (s : State) (i : Nat) (x : Executor) : ExecAct → Option State
  | .start => if x.phase = .created then some (enter s i x) else none
  | .closePipes =>
    if x.phase = .entered then
      some (setExecutor { s with out := .closed } i { x with phase := .closed })
    else none
  | .makePipes ok => if x.phase = .closed then some (makePipes s i x ok) else none
  | .fork none => if x.phase = .piped then some (forkFails s i x) else none
  | .fork (some pid) =>
    if x.phase = .piped ∧ pid ∉ livePids s.children then some (forkChild s i x pid) else none
  | .waitpid k => match s.children[k]? with
    | none => none
    | some c => match c.report with
      | none => none
      | some st =>
        if x.phase = .waiting c.pid ∧ c.reaped = false then some (waitReturns s i x k c st)
        else none
  | .store =>
    if x.phase = .returned then
      some (setExecutor { s with
        execResult := wexitstatus s.execResult
        success := wexitstatus s.execResult == 0 } i { x with phase := .stored })
    else none
  | .clear => match x.phase.cleared with
    | none => none
    | some p => some (setExecutor { s with threadRunning := false } i { x with phase := p })
  | .fail =>
    if x.phase = .forkCleared then
      some (setExecutor { s with execResult := -3 } i { x with phase := .finished })
    else none

/-! Steps of a child. -/

inductive ChildAct where
  | execvp (ok : Bool)
  | write (b : UInt8)
  | exit (code : UInt8)
  | threadExit                  -- execute() returned in the child: pthread_exit, status 0
  | stop (sig : Signal)
  | cont
  | signal (sig : Signal) (core : Bool)
  deriving DecidableEq, Repr

def Child.act (c : Child) : ChildAct → Option Child
  | .execvp ok =>
    if c.life = .running ∧ c.stage = .forked then
      some { c with stage := if ok then .program else .execFailed }
    else none
  | .write _ => if c.life = .running ∧ c.stage = .program then some c else none
  | .exit code =>
    if c.life = .running ∧ c.stage = .program then some (c.dies (.exited code)) else none
  | .threadExit =>
    if c.life = .running ∧ c.stage = .execFailed then some (c.dies (.exited 0)) else none
  | .stop sig =>
    if c.life = .running then some { c with life := .stopped, report := some (.stopped sig) }
    else none
  | .cont =>
    if c.life = .stopped then some { c with life := .running, report := some .continued }
    else none
  | .signal sig core => if c.alive then some (c.dies (.signaled sig core)) else none

/-- A child writes into its stdout pipe only while that holds less than `cap` bytes. -/
def childStep (cap : Nat) (s : State) (k : Nat) (c : Child) : ChildAct → Option State
  | .write b => match c.act (.write b), c.out with
    | none, _ => none
    | some _, none => some s
    | some _, some q => match s.pipes[q]? with
      | none => none
      | some p =>
        if p.data.length < cap then
          some { s with pipes := s.pipes.set q { p with data := p.data ++ [(c.owner, b)] } }
        else none
  | a => (c.act a).map fun c' => { s with children := s.children.set k c' }

inductive Label where
  | sketch (a : SketchAct)
  | exec (i : Nat) (a : ExecAct)
  | child (k : Nat) (a : ChildAct)
  deriving DecidableEq, Repr

def step (cap : Nat) (s : State) : Label → Option State
  | .sketch a => sketchStep s a
  | .exec i a => (s.executors[i]?).bind fun x => execStep s i x a
  | .child k a => (s.children[k]?).bind fun c => childStep cap s k c a

end RasPiArduino.Process
