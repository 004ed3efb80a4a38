import RasPiArduino.ProcessMoves

/-! What `running()` and `operator bool` tell after a single run, for every outcome of
pthread_create, fork, execvp and of the child. -/
namespace RasPiArduino.Process
open RasPiArduino.Transition RasPiArduino.Table

/-- One begin() and one start: no restart. -/
def SingleRun (s : State) (l : Label) (_ : State) : Prop :=
  match l with
  | .sketch (.begin _) => s.ghost.begins = 0 ∧ s.executors = []
  | .sketch (.runAsynchronously _) => s.executors = []
  | _ => True

instance (s : State) (l : Label) (t : State) : Decidable (SingleRun s l t) :=
  match l with
  | .sketch (.begin _) => inferInstanceAs (Decidable (_ ∧ _))
  | .sketch (.runAsynchronously _) => inferInstanceAs (Decidable (s.executors = []))
  | .sketch (.addParameter _) | .sketch .close | .sketch .destroy | .sketch .running
  | .sketch .exitValue | .sketch (.read _ _) | .sketch .kill | .sketch .reset | .sketch .free
  | .sketch .assign | .exec _ _ | .child _ _ => inferInstanceAs (Decidable True)

def ChildGone (s : State) : Prop := ∀ c ∈ s.children, c.alive = false

def ProgramSucceeded (s : State) : Prop :=
  ∃ c ∈ s.children, c.stage = .program ∧ c.life = .dead (.exited 0)

instance (s : State) : Decidable (ChildGone s) := by unfold ChildGone; infer_instance
instance (s : State) : Decidable (ProgramSucceeded s) := by unfold ProgramSucceeded; infer_instance

/-- When running() becomes false the child is gone and operator bool is right. -/
def ReportsOutcome (s : State) (_ : Label) (t : State) : Prop :=
  s.threadRunning = true → t.threadRunning = false →
    ChildGone t ∧ (t.success = true ↔ ProgramSucceeded t)

instance (s : State) (l : Label) (t : State) : Decidable (ReportsOutcome s l t) := by
  unfold ReportsOutcome
  infer_instance

/-- `st` is what waitpid reported of the child: a normal exit after execvp succeeded; or a
stop or a continue, and the child has ended since, not with status 0. -/
def Plain (c : Child) (st : WaitStatus) : Prop :=
  c.stage = .program ∧ (∃ code, st = .exited code) ∨
    st.terminated = false ∧ ∃ f, c.life = .dead f ∧ ¬ (c.stage = .program ∧ f = .exited 0)

/-- The executor clears the flag after no child was created, or after a plain report. -/
def PlainExit (s : State) (l : Label) (_ : State) : Prop :=
  s.threadRunning = true → l = .exec 0 .clear → s.children = [] ∨
    ∃ x c st, s.executors = [x] ∧ s.children = [c] ∧ x.report = some st ∧ Plain c st

structure ChildOk (c : Child) : Prop where
  dead : ∀ st, c.life = .dead st → st.terminated = true ∧
    ∀ code, st = .exited code → c.stage = .program ∨ c.stage = .execFailed ∧ code = 0
  report : ∀ st, c.report = some st → st.terminated = true → c.life = .dead st

theorem ChildOk.act {c c' : Child} {a : ChildAct} (h : ChildOk c) (ha : c.act a = some c') :
    ChildOk c' := by
  cases a <;> simp only [Child.act, Option.ite_none_right_eq_some, Option.some.injEq] at ha
  case execvp ok =>
    obtain ⟨⟨hl, hs⟩, rfl⟩ := ha
    exact ⟨by simp [hl], fun st hr ht => by simpa [hl] using h.report st hr ht⟩
  case write => exact ha.2 ▸ h
  case exit code =>
    obtain ⟨⟨hl, hs⟩, rfl⟩ := ha
    exact ⟨by simp [Child.dies, WaitStatus.terminated, hs], by simp [Child.dies]⟩
  case threadExit =>
    obtain ⟨⟨hl, hs⟩, rfl⟩ := ha
    exact ⟨by simp [Child.dies, WaitStatus.terminated, hs], by simp [Child.dies]⟩
  case stop sig =>
    obtain ⟨hl, rfl⟩ := ha
    exact ⟨by simp, by simp [WaitStatus.terminated]⟩
  case cont =>
    obtain ⟨hl, rfl⟩ := ha
    exact ⟨by simp, by simp [WaitStatus.terminated]⟩
  case signal sig core =>
    obtain ⟨hl, rfl⟩ := ha
    exact ⟨by simp [Child.dies, WaitStatus.terminated], by simp [Child.dies]⟩

theorem act_dead {c : Child} {a : ChildAct} {st : WaitStatus} (h : c.life = .dead st) :
    c.act a = none := by
  cases a <;> simp [Child.act, Child.alive, h]

theorem kill_single (pid : Int) (c : Child) : ∃ c', kill pid [c] = [c'] ∧
    (c' = c ∨ c.act (.signal sigkill false) = some c') := by
  by_cases h : (c.alive && killHits pid c) = true
  · have ha : c.alive = true := by simp_all
    refine ⟨c.dies (.signaled sigkill false), ?_, .inr (by simp [Child.act, ha])⟩
    simp only [kill, List.map_cons, List.map_nil, if_pos h]
  · refine ⟨c, ?_, .inl rfl⟩
    simp only [kill, List.map_cons, List.map_nil, if_neg h]

def Stands (s : State) (x : Executor) : Prop :=
  match x.phase with
  | .waiting _ => s.success = false ∧ ∃ c, s.children = [c] ∧ ChildOk c ∧ c.reaped = false
  | .returned => s.success = false ∧ ∃ c st, s.children = [c] ∧ ChildOk c ∧
      x.report = some st ∧ s.execResult = st.raw ∧ (st.terminated = true → c.life = .dead st)
  | .stored => ∃ c st, s.children = [c] ∧ ChildOk c ∧
      x.report = some st ∧ s.success = (wexitstatus st.raw == 0) ∧
      (st.terminated = true → c.life = .dead st)
  | .finished => True
  | _ => s.success = false ∧ s.children = []

theorem Stands.child {s t : State} {x : Executor} (h : Stands s x)
    (hs : t.success = s.success) (hr : t.execResult = s.execResult)
    (hn : s.children = [] → t.children = [])
    (hc : ∀ c, s.children = [c] → ∃ c', t.children = [c'] ∧
      (c' = c ∨ ∃ a, c.act a = some c')) : Stands t x := by
  have hok : ∀ c c' : Child, ChildOk c → (c' = c ∨ ∃ a, c.act a = some c') → ChildOk c' := by
    rintro c c' hc (rfl | ⟨a, ha⟩)
    · exact hc
    · exact hc.act ha
  have hdead : ∀ (c c' : Child) (st : WaitStatus), c.life = .dead st →
      (c' = c ∨ ∃ a, c.act a = some c') →
      c'.life = .dead st := by
    rintro c c' st hl (rfl | ⟨a, ha⟩)
    · exact hl
    · simp [act_dead hl] at ha
  cases hp : x.phase <;> simp only [Stands, hp] at h ⊢
  case waiting pid =>
    obtain ⟨hf, c, hcs, hco, hcr⟩ := h
    obtain ⟨c', hcs', hcc⟩ := hc c hcs
    refine ⟨hs ▸ hf, c', hcs', hok c c' hco hcc, ?_⟩
    obtain rfl | ⟨a, ha⟩ := hcc
    · exact hcr
    · have hi := congrArg Ident.reaped (act_ident ha)
      exact hi.trans hcr
  case returned =>
    obtain ⟨hf, c, st, hcs, hco, hxr, her, hl⟩ := h
    obtain ⟨c', hcs', hcc⟩ := hc c hcs
    exact ⟨hs ▸ hf, c', st, hcs', hok c c' hco hcc, hxr, hr ▸ her,
      fun ht => hdead c c' st (hl ht) hcc⟩
  case stored =>
    obtain ⟨c, st, hcs, hco, hxr, her, hl⟩ := h
    obtain ⟨c', hcs', hcc⟩ := hc c hcs
    exact ⟨c', st, hcs', hok c c' hco hcc, hxr, hs ▸ her, fun ht => hdead c c' st (hl ht) hcc⟩
  all_goals exact ⟨hs ▸ h.1, hn h.2⟩

structure Single (s : State) : Prop where
  none : s.executors = [] → s.children = [] ∧ s.success = false ∧ s.threadRunning = false
  one : ∀ x, s.executors = [x] → Stands s x
  atMost : s.executors = [] ∨ ∃ x, s.executors = [x]
  resetting : ∀ cmd, s.pc = .finishing (.reset cmd) ∨ s.pc = .closing (.reset cmd) →
    s.executors = []
  assigning : s.pc = .assigning → s.executors ≠ []

theorem single_init : Single init where
  none _ := ⟨rfl, rfl, rfl⟩
  one x hx := by simp [init] at hx
  atMost := .inl rfl
  resetting cmd hc := by simp [init] at hc
  assigning hc := by simp [init] at hc

theorem Single.frame {s t : State} (h : Single s) (hx : t.executors = s.executors)
    (hc : t.children = s.children) (hs : t.success = s.success)
    (hr : s.executors = [] ∨ t.execResult = s.execResult)
    (hf : s.executors = [] → t.threadRunning = false)
    (hpc : ∀ cmd, t.pc = .finishing (.reset cmd) ∨ t.pc = .closing (.reset cmd) →
      s.executors = [])
    (ha : t.pc = .assigning → s.executors ≠ []) : Single t where
  none he := by
    obtain ⟨h₁, h₂, -⟩ := h.none (hx ▸ he)
    exact ⟨hc.trans h₁, hs.trans h₂, hf (hx ▸ he)⟩
  one x hxs := by
    have hne : s.executors ≠ [] := by simp [hx ▸ hxs]
    exact (h.one x (hx ▸ hxs)).child hs (hr.resolve_left hne) (fun hn => hc.trans hn)
      fun c hcs => ⟨c, hc.trans hcs, .inl rfl⟩
  atMost := hx ▸ h.atMost
  resetting cmd hp := hx ▸ hpc cmd hp
  assigning hp := hx ▸ ha hp

theorem single_sketch {s t : State} {a : SketchAct} (h : Single s)
    (hq : SingleRun s (.sketch a) t) (hm : SketchMove s a t) : Single t := by
  have hfree (he : s.executors = []) : s.threadRunning = false := (h.none he).2.2
  cases hm with
  | closing a r hr hpc hf =>
    refine h.frame rfl rfl rfl (.inr rfl) hfree ?_ (by simp)
    intro cmd hcl
    obtain rfl : r = .reset cmd := by simpa using hcl
    cases a <;> simp_all [SketchAct.closes, SingleRun]
  | notRunning a r hr hpc hf =>
    refine h.frame rfl rfl rfl (.inr rfl) hfree ?_ (by cases r <;> simp [Rest.pc])
    intro cmd hcl
    obtain rfl : r = .reset cmd := by cases r <;> simp_all [Rest.pc]
    cases a <;> simp_all [SketchAct.closes, SingleRun]
  | addParameter =>
    unfold addParameter
    split
    · exact h
    · split
      · exact h
      · exact h.frame rfl rfl rfl (.inr rfl) hfree h.resetting h.assigning
  | alreadyRunning => exact h.frame rfl rfl rfl (.inl hq) hfree h.resetting h.assigning
  | spawn hpc hf =>
    have he : s.executors = [] := hq
    obtain ⟨hc, hs, -⟩ := h.none he
    refine ⟨by simp, ?_, .inr ⟨_, by simp [he]; rfl⟩, by simp, by simp⟩
    intro x hx
    obtain rfl : _ = x := by simpa [he] using hx
    exact ⟨hs, hc⟩
  | spawnFails hpc =>
    exact h.frame rfl rfl rfl (.inl hq) (fun _ => rfl) h.resetting (by simp [hpc])
  | running => exact h.frame rfl rfl rfl (.inr rfl) hfree h.resetting h.assigning
  | exitValue => exact h
  | read =>
    unfold read
    split
    · exact h.frame rfl rfl rfl (.inr rfl) hfree h.resetting h.assigning
    · exact h
  | kill r hpc =>
    refine ⟨?_, ?_, h.atMost, ?_, by cases r <;> simp [Rest.pc]⟩
    · intro he
      obtain ⟨hc, hs, hf⟩ := h.none he
      exact ⟨by simp [hc, kill], hs, hf⟩
    · intro x hx
      refine (h.one x hx).child rfl rfl (fun hn => by simp [hn, kill]) fun c hc => ?_
      obtain ⟨c', hk, hcc⟩ := kill_single s.execPid c
      exact ⟨c', by simp [hc, hk], hcc.imp_right fun ha => ⟨_, ha⟩⟩
    · intro cmd hcl
      obtain rfl : r = .reset cmd := by cases r <;> simp_all [Rest.pc]
      exact h.resetting cmd (.inr hpc)
  | reset cmd hpc =>
    have he := h.resetting cmd (.inl hpc)
    obtain ⟨hc, -, -⟩ := h.none he
    exact ⟨fun _ => ⟨hc, rfl, rfl⟩, fun x hx => by simp [beginBody, he] at hx, .inl he,
      by simp [beginBody], by simp [beginBody]⟩
  | free hpc => exact h.frame rfl rfl rfl (.inr rfl) hfree (by simp) (by simp)
  | assign hpc =>
    exact h.frame rfl rfl rfl (.inr rfl) (fun he => absurd he (h.assigning hpc)) (by simp) (by simp)

theorem Single.set {s t : State} {i : Nat} {x y : Executor} (h : Single s)
    (hx : s.executors[i]? = some x) (he : t.executors = s.executors.set i y)
    (hpc : t.pc = s.pc) (hy : s.executors = [x] → Stands t y) : Single t := by
  have hone : s.executors = [x] ∧ i = 0 := by
    obtain hn | ⟨z, hz⟩ := h.atMost
    · simp [hn] at hx
    · rw [hz] at hx
      cases i with
      | zero => exact ⟨by simpa [hz] using hx, rfl⟩
      | succ i => simp at hx
  obtain ⟨hsx, rfl⟩ := hone
  have hty : t.executors = [y] := by rw [he, hsx]; rfl
  refine ⟨by simp [hty], ?_, .inr ⟨y, hty⟩, ?_, by simp [hty]⟩
  · intro z hz
    obtain rfl : y = z := by simpa [hty] using hz
    exact hy hsx
  · intro cmd hcl
    have := h.resetting cmd (hpc ▸ hcl)
    simp [hsx] at this

theorem single_exec {s t : State} {i : Nat} {x : Executor} {a : ExecAct} (h : Single s)
    (hx : s.executors[i]? = some x) (hm : ExecMove s i x a t) : Single t := by
  cases hm with
  | noCommand hp | closePipes hp | makePipes hp | makePipesFails hp | forkFails hp =>
    refine h.set hx rfl rfl fun hs => ?_
    have hst := h.one x hs
    simp only [Stands, hp] at hst
    exact hst
  | enter hp =>
    refine h.set hx rfl rfl fun hs => ?_
    have hst := h.one x hs
    simp only [Stands, hp] at hst
    exact ⟨rfl, hst.2⟩
  | forkChild pid hp =>
    refine h.set hx rfl rfl fun hs => ?_
    have hst := h.one x hs
    simp only [Stands, hp] at hst
    refine ⟨hst.1, _, by simp [forkChild, setExecutor, hst.2]; rfl, ⟨by simp, by simp⟩, rfl⟩
  | waitpid k c st hk hr hp hu =>
    refine h.set hx rfl rfl fun hs => ?_
    have hst := h.one x hs
    simp only [Stands, hp] at hst
    obtain ⟨hf, c₀, hc, hok, -⟩ := hst
    rw [hc] at hk
    cases k with
    | succ k => simp at hk
    | zero =>
      obtain rfl : c₀ = c := by simpa using hk
      refine ⟨hf, { c₀ with report := none, reaped := st.terminated }, st, ?_,
        ⟨hok.dead, by simp⟩, rfl, rfl, hok.report st hr⟩
      simp [waitReturns, setExecutor, hc]
  | store hp =>
    refine h.set hx rfl rfl fun hs => ?_
    have hst := h.one x hs
    simp only [Stands, hp] at hst
    obtain ⟨-, c, st, hc, hok, hr, he, hl⟩ := hst
    exact ⟨c, st, hc, hok, hr, by simp [setExecutor, he], hl⟩
  | clear p hp =>
    refine h.set hx rfl rfl fun hs => ?_
    obtain ⟨hx' | hx', rfl⟩ | ⟨hx', rfl⟩ := cleared_cases hp
    · trivial
    · trivial
    · have hst := h.one x hs
      simp only [Stands, hx'] at hst
      exact hst
  | fail hp => exact h.set hx rfl rfl fun _ => trivial

theorem single_child {cap : Nat} {s t : State} {k : Nat} {c : Child} {a : ChildAct}
    (h : Single s) (hk : s.children[k]? = some c) (hm : childStep cap s k c a = some t) :
    Single t := by
  have hfree (he : s.executors = []) : s.threadRunning = false := (h.none he).2.2
  obtain ⟨_, _, _, rfl⟩ | ⟨_, _, _, _, _, _, _, _, _, rfl⟩ | ⟨c', hact, _, rfl⟩ :=
    childStep_cases hm
  · exact h
  · exact h.frame rfl rfl rfl (.inr rfl) hfree h.resetting h.assigning
  · refine ⟨?_, ?_, h.atMost, h.resetting, h.assigning⟩
    · intro he
      simp [(h.none he).1] at hk
    · intro x hx
      refine (h.one x hx).child rfl rfl (fun hn => by simp [hn]) fun c₀ hc₀ => ?_
      rw [hc₀] at hk
      cases k with
      | succ k => simp at hk
      | zero =>
        obtain rfl : c₀ = c := by simpa using hk
        exact ⟨c', by simp [hc₀], .inr ⟨a, hact⟩⟩

theorem single_step {cap : Nat} {s t : State} {l : Label} (h : Single s)
    (hs : step cap s l = some t) (hq : SingleRun s l t) : Single t := by
  obtain ⟨a, rfl, hm⟩ | ⟨i, x, a, rfl, hx, hm⟩ | ⟨k, c, a, rfl, hk, hm⟩ := step_cases hs
  · exact single_sketch h hq hm
  · exact single_exec h hx hm
  · exact single_child h hk hm

/-! The exit code that `execute` stores, for every shape of the status word. -/

theorem wexitstatus_exited (code : UInt8) :
    wexitstatus (WaitStatus.exited code).raw = code.toNat := by
  have h := code.toNat_lt
  simp only [wexitstatus, WaitStatus.raw]
  omega

/-- Death by a signal leaves bits 8 to 15 clear: the code takes it for status 0. -/
theorem wexitstatus_signaled (sig : Signal) (core : Bool) :
    wexitstatus (WaitStatus.signaled sig core).raw = 0 := by
  have h := sig.le
  cases core <;> simp only [wexitstatus, WaitStatus.raw] <;> simp <;> omega

theorem wexitstatus_stopped (sig : Signal) :
    wexitstatus (WaitStatus.stopped sig).raw = sig.num := by
  have h := sig.le
  simp only [wexitstatus, WaitStatus.raw]
  omega

theorem success_iff_terminated {st : WaitStatus} :
    wexitstatus st.raw = 0 ↔ st = .exited 0 ∨ ∃ sig core, st = .signaled sig core := by
  cases st with
  | exited code =>
    rw [wexitstatus_exited]
    simp [← UInt8.toNat_inj]
  | signaled sig core => simp [wexitstatus_signaled]
  | stopped sig =>
    rw [wexitstatus_stopped]
    have h := sig.pos
    simp
    omega
  | continued => simp [wexitstatus, WaitStatus.raw]

theorem alive_false_iff {c : Child} : c.alive = false ↔ ∃ st, c.life = .dead st := by
  cases h : c.life <;> simp [Child.alive, h]

theorem plain_iff {s : State} {x : Executor} {c : Child} {st : WaitStatus}
    (hx : s.executors = [x]) (hc : s.children = [c]) (hr : x.report = some st) :
    (s.children = [] ∨ ∃ x c st, s.executors = [x] ∧ s.children = [c] ∧ x.report = some st ∧
      Plain c st) ↔ Plain c st := by
  constructor
  · rintro (hn | ⟨x', c', st', hx', hc', hr', hb⟩)
    · simp [hc] at hn
    · obtain rfl : x = x' := by simpa [hx] using hx'
      obtain rfl : c = c' := by simpa [hc] using hc'
      obtain rfl : st = st' := by simpa [hr] using hr'
      exact hb
  · exact fun hb => .inr ⟨x, c, st, hx, hc, hr, hb⟩

theorem reports_iff_plain {c : Child} {st : WaitStatus} (hok : ChildOk c)
    (hl : st.terminated = true → c.life = .dead st) :
    (c.alive = false ∧
      (wexitstatus st.raw = 0 ↔ c.stage = .program ∧ c.life = .dead (.exited 0))) ↔
      Plain c st := by
  rw [success_iff_terminated, alive_false_iff]
  cases st with
  | exited code =>
    have hdead := hl rfl
    obtain ⟨-, hstage⟩ := hok.dead _ hdead
    obtain hs | ⟨hs, rfl⟩ := hstage code rfl <;>
      simp [Plain, hdead, hs, WaitStatus.terminated]
  | signaled sig core =>
    have hdead := hl rfl
    simp [Plain, hdead, WaitStatus.terminated]
  | stopped sig | continued =>
    simp only [Plain, WaitStatus.terminated, reduceCtorEq, exists_false, and_false, false_or,
      false_iff, true_and]
    constructor
    · rintro ⟨⟨f, hf⟩, hn⟩
      exact ⟨f, hf, fun h => hn ⟨h.1, h.2 ▸ hf⟩⟩
    · rintro ⟨f, hf, hn⟩
      refine ⟨⟨f, hf⟩, fun h => hn ⟨h.1, ?_⟩⟩
      simpa [hf] using h.2

/-- The one thread clears the flag: it is right about the child exactly when the child
came to a plain exit. -/
theorem clear_reports_iff {s t : State} {x : Executor} (h : Single s)
    (hx : s.executors[0]? = some x) (hp : x.phase.cleared ≠ none) (hc : t.children = s.children)
    (hs : t.success = s.success) :
    (ChildGone t ∧ (t.success = true ↔ ProgramSucceeded t)) ↔
      s.children = [] ∨ ∃ x c st, s.executors = [x] ∧ s.children = [c] ∧ x.report = some st ∧
        Plain c st := by
  have hsx : s.executors = [x] := by
    obtain hn | ⟨z, hz⟩ := h.atMost
    · simp [hn] at hx
    · simpa [hz] using hx
  have hst := h.one x hsx
  have hphase : x.phase = .stored ∨ x.phase = .noCommand ∨ x.phase = .forkFailed := by
    cases hph : x.phase <;> simp_all [Phase.cleared]
  obtain hph | hph := hphase
  · simp only [Stands, hph] at hst
    obtain ⟨c, st, hcs, hok, hr, hsu, hl⟩ := hst
    rw [plain_iff hsx hcs hr, ← reports_iff_plain hok hl]
    simp [ChildGone, ProgramSucceeded, hc, hcs, hs, hsu]
  · have hnone : s.success = false ∧ s.children = [] := by
      obtain hph | hph := hph <;> simpa only [Stands, hph] using hst
    simp [ChildGone, ProgramSucceeded, hc, hs, hnone]

theorem single_reports {cap : Nat} {s t : State} {l : Label} (h : Single s)
    (hs : step cap s l = some t) : ReportsOutcome s l t ↔ PlainExit s l t := by
  by_cases hft : s.threadRunning = true ∧ t.threadRunning = false
  · obtain ⟨hf, ht⟩ := hft
    obtain ⟨-, cmd, hpc⟩ | ⟨i, x, rfl, hx, -⟩ := flag_cleared hs hf ht
    · have := (h.none (h.resetting cmd (.inl hpc))).2.2
      simp [this] at hf
    · have hi : i = 0 := by
        obtain hn | ⟨z, hz⟩ := h.atMost
        · simp [hn] at hx
        · simpa [hz] using row_lt hx
      subst hi
      simp only [step, hx, Option.bind_some, execStep] at hs
      cases hp : x.phase.cleared with
      | none => simp [hp] at hs
      | some p =>
        simp only [hp, Option.some.injEq] at hs
        subst hs
        simp only [ReportsOutcome, PlainExit, hf, ht, true_implies]
        exact clear_reports_iff h hx (by simp [hp]) rfl rfl
  · have hq : PlainExit s l t := by
      rintro hf rfl
      refine absurd ⟨hf, ?_⟩ hft
      obtain ⟨x, -, hm⟩ := Option.bind_eq_some_iff.mp hs
      cases execStep_move hm with
      | clear p hp => rfl
    exact ⟨fun _ => hq, fun _ hf ht => absurd ⟨hf, ht⟩ hft⟩

/-- In a single run, running() becoming false and operator bool tell the truth exactly
when the flag is cleared after a plain exit, or with no child created. -/
theorem single_run_reports_iff (cap : Nat) (ls : List Label)
    (h : Along (step cap) SingleRun ls init) :
    Along (step cap) ReportsOutcome ls init ↔ Along (step cap) PlainExit ls init :=
  along_iff (fun _ _ _ hi hs hq => ⟨single_step hi hs hq, single_reports hi hs⟩) single_init h

/-- A single run of `cmd`: the child comes to the end given by `as`, the executor waits
for it and clears the flag. -/
def oneRun (cmd : String) (as : List ChildAct) : List Label :=
  [.sketch (.begin cmd), .sketch .reset, .sketch (.runAsynchronously true), .sketch .assign,
    .exec 0 .start, .exec 0 .closePipes, .exec 0 (.makePipes true),
    .exec 0 (.fork (some ⟨7, by decide⟩))] ++ as.map (.child 0) ++
  [.exec 0 (.waitpid 0), .exec 0 .store, .exec 0 .clear]

theorem single_run_reports_iff_exit :
    Along (step 1) SingleRun (oneRun "ls" [.execvp true, .exit 1]) init ∧
      (Along (step 1) ReportsOutcome (oneRun "ls" [.execvp true, .exit 1]) init ↔
        Along (step 1) PlainExit (oneRun "ls" [.execvp true, .exit 1]) init) :=
  ⟨by decide, single_run_reports_iff 1 _ (by decide)⟩

/-- A program that cannot be executed is reported as a success. -/
theorem exec_failure_reported_as_success :
    ¬ ∀ cap ls, Along (step cap) SingleRun ls init → Along (step cap) ReportsOutcome ls init :=
  fun h => absurd (h 1 (oneRun "nosuch" [.execvp false, .threadExit]) (by decide)) (by decide)

end RasPiArduino.Process
