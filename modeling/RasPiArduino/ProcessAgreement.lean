import RasPiArduino.ProcessKill

/-! Results and output of a Process belong to the command started last, in runs that start
a command only when the thread of the one before has finished, and look at it only outside
two short windows of `execute`. -/
namespace RasPiArduino.Process
open RasPiArduino.Transition RasPiArduino.Table

def AllFinished (s : State) : Prop := ∀ x ∈ s.executors, x.phase = .finished

/-- Nothing that an earlier command wrote can be read from pipes.out. -/
def NoOldOutput (s : State) : Prop :=
  match s.out with
  | .unset => False
  | .closed => True
  | .pipe q => ∀ p ∈ s.pipes[q]?, p.data = [] ∨
      (s.executors[p.creator]?).map Executor.epoch = some s.ghost.begins

instance (s : State) : Decidable (AllFinished s) := by unfold AllFinished; infer_instance

instance (s : State) : Decidable (NoOldOutput s) := by
  unfold NoOldOutput
  split <;> infer_instance

/-- When a step of the sketch may come. A start: with the flag clear and every thread
finished, or with the flag set and no result stored. The stores of begin(): not before a
thread has entered `execute`. exitValue(): not between the clearing of the flag and the
store of -3. read(): not between `executed = true` and the close of the old pipes, unless
these hold nothing old. -/
def Orderly (s : State) (l : Label) (_ : State) : Prop :=
  match l with
  | .sketch (.runAsynchronously _) =>
    if s.threadRunning then
      ∀ x ∈ s.executors, x.phase ≠ .noCommand ∧ x.phase ≠ .returned ∧ x.phase ≠ .stored
    else AllFinished s
  | .sketch .reset => ∀ x ∈ s.executors, x.phase ≠ .created
  | .sketch .exitValue =>
    ∀ i ∈ s.ghost.current, ∀ x ∈ s.executors[i]?, x.phase ≠ .forkCleared
  | .sketch (.read _ _) =>
    s.executed = true → (∀ x ∈ s.executors, x.phase ≠ .entered) ∨ NoOldOutput s
  | _ => True

instance (s : State) (l : Label) (t : State) : Decidable (Orderly s l t) :=
  match l with
  | .sketch (.runAsynchronously _) => inferInstanceAs (Decidable (ite _ _ _))
  | .sketch .reset => inferInstanceAs (Decidable (∀ x ∈ s.executors, x.phase ≠ .created))
  | .sketch .exitValue => inferInstanceAs (Decidable
      (∀ i ∈ s.ghost.current, ∀ x ∈ s.executors[i]?, x.phase ≠ .forkCleared))
  | .sketch (.read _ _) => inferInstanceAs (Decidable (_ → _ ∨ _))
  | .sketch (.begin _) | .sketch (.addParameter _) | .sketch .close | .sketch .destroy
  | .sketch .running | .sketch .kill | .sketch .free | .sketch .assign | .exec _ _
  | .child _ _ => inferInstanceAs (Decidable True)

/-- But for the store of begin() itself, the flag is cleared by the executor started last. -/
def ClearedByLast (s : State) (l : Label) (t : State) : Prop :=
  s.threadRunning = true → t.threadRunning = false →
    l = .sketch .reset ∨ ∃ i a, l = .exec i a ∧ i+1 = s.executors.length

/-- exitValue() after running() returned false is the result of the command started last. -/
def ExitValueOfLast (s : State) (l : Label) (_ : State) : Prop :=
  l = .sketch .exitValue → s.ghost.seenStopped = true →
    ∀ i ∈ s.ghost.current, ∀ x ∈ s.executors[i]?, x.result = some s.execResult

instance (s : State) (l : Label) (t : State) : Decidable (ExitValueOfLast s l t) := by
  unfold ExitValueOfLast
  infer_instance

/-- Every byte read was written by a child of the last begin(). -/
def ReadsOfLast (s : State) (l : Label) (_ : State) : Prop :=
  ∀ len env, l = .sketch (.read len env) → ∀ d ∈ readBytes s len env,
    ∃ i x, d.1 = some i ∧ s.executors[i]? = some x ∧ x.epoch = s.ghost.begins

def Current (s : State) (i : Nat) (x : Executor) : Prop :=
  s.ghost.current = some i ∧ (s.threadRunning = true ∨ x.phase = .forkCleared ∨
    s.pc = .assigning ∧ (x.phase = .created ∨ x.phase = .noCommand))

/-- A thread that a begin() has left behind in `execute`. -/
structure Stale (s : State) (x : Executor) : Prop where
  current : s.ghost.current = none
  flag : s.threadRunning = false
  executed : s.executed = false
  pc : s.pc ≠ .assigning
  entered : x.phase ≠ .created

structure Control (s : State) : Prop where
  live : ∀ (i : Nat) (x : Executor), s.executors[i]? = some x → x.phase ≠ .finished →
    i+1 = s.executors.length ∧ (Current s i x ∨ Stale s x)
  current : ∀ i, s.ghost.current = some i → i+1 = s.executors.length ∧
    ∀ x, s.executors[i]? = some x → x.epoch = s.ghost.begins
  seen : s.ghost.seenStopped = true → ∀ i, s.ghost.current = some i →
    s.threadRunning = false ∧ s.pc ≠ .assigning

theorem control_init : Control init where
  live i x hx := by simp [init] at hx
  current i hi := by cases hi
  seen hs := by cases hs

/-- The threads, the flag and the record are left alone, and the sketch does not enter or
leave pthread_create. -/
theorem Control.same {s t : State} (h : Control s) (hx : t.executors = s.executors)
    (hf : t.threadRunning = s.threadRunning) (he : t.executed = s.executed)
    (hg : t.ghost = s.ghost) (hpc : t.pc = .assigning ↔ s.pc = .assigning) : Control t := by
  refine ⟨?_, ?_, ?_⟩
  · intro i x hi hp
    rw [hx] at hi ⊢
    obtain ⟨hlen, ⟨hc, hb | hb | ⟨hb, hph⟩⟩ | hst⟩ := h.live i x hi hp
    · exact ⟨hlen, .inl ⟨hg ▸ hc, .inl (hf.trans hb)⟩⟩
    · exact ⟨hlen, .inl ⟨hg ▸ hc, .inr (.inl hb)⟩⟩
    · exact ⟨hlen, .inl ⟨hg ▸ hc, .inr (.inr ⟨hpc.mpr hb, hph⟩)⟩⟩
    · exact ⟨hlen, .inr ⟨hg ▸ hst.current, hf.trans hst.flag, he.trans hst.executed,
        fun ha => hst.pc (hpc.mp ha), hst.entered⟩⟩
  · rw [hg, hx]
    exact h.current
  · intro hs i hi
    rw [hg] at hs hi
    obtain ⟨hff, hna⟩ := h.seen hs i hi
    exact ⟨hf.trans hff, fun ha => hna (hpc.mp ha)⟩

theorem control_sketch {s t : State} {a : SketchAct} (h : Control s) (hq : Orderly s (.sketch a) t)
    (hm : SketchMove s a t) : Control t := by
  cases hm with
  | closing a r hr hpc hf => exact h.same rfl rfl rfl rfl (by simp [hpc])
  | notRunning a r hr hpc hf =>
    exact h.same rfl rfl rfl rfl (by cases r <;> simp [hpc, Rest.pc])
  | addParameter param hpc =>
    unfold addParameter
    split
    · exact h
    · split
      · exact h
      · exact h.same rfl rfl rfl rfl Iff.rfl
  | alreadyRunning created hpc =>
    exact h.same rfl rfl rfl rfl Iff.rfl
  | spawn hpc hf =>
    have ha : AllFinished s := by simpa [Orderly, hf] using hq
    refine ⟨?_, ?_, by simp⟩
    · intro i x hx hp
      obtain hx | ⟨rfl, rfl⟩ := row_append.mp hx
      · exact absurd (ha x (List.mem_of_getElem? hx)) hp
      · exact ⟨by simp, .inl ⟨rfl, .inr (.inr ⟨rfl, .inl rfl⟩)⟩⟩
    · rintro i hi
      obtain rfl := Option.some.inj hi
      refine ⟨by simp, fun x hx => ?_⟩
      rw [row_append_last] at hx
      obtain rfl := Option.some.inj hx
      rfl
  | spawnFails hpc hf =>
    have ha : AllFinished s := by simpa [Orderly, hf] using hq
    refine ⟨?_, by simp, by simp⟩
    intro i x hx hp
    exact absurd (ha x (List.mem_of_getElem? hx)) hp
  | running hpc =>
    refine ⟨fun i x hx hp => ?_, h.current, ?_⟩
    · obtain ⟨hlen, hc | hst⟩ := h.live i x hx hp
      · exact ⟨hlen, .inl hc⟩
      · exact ⟨hlen, .inr ⟨hst.current, hst.flag, hst.executed, hst.pc, hst.entered⟩⟩
    · intro hs i hi
      exact ⟨by simpa using hs, by simp [hpc]⟩
  | exitValue => exact h
  | read len env hpc =>
    unfold read
    split
    · exact h.same rfl rfl rfl rfl Iff.rfl
    · exact h
  | kill r hpc =>
    exact h.same rfl rfl rfl rfl (by cases r <;> simp [hpc, Rest.pc])
  | reset cmd hpc =>
    refine ⟨?_, by simp [beginBody], by simp [beginBody]⟩
    intro i x hx hp
    exact ⟨(h.live i x hx hp).1, .inr ⟨rfl, rfl, rfl, by simp [beginBody],
      hq x (List.mem_of_getElem? hx)⟩⟩
  | free hpc => exact h.same rfl rfl rfl rfl (by simp [hpc])
  | assign hpc =>
    refine ⟨?_, h.current, ?_⟩
    · intro i x hx hp
      obtain ⟨hlen, hc | hst⟩ := h.live i x hx hp
      · exact ⟨hlen, .inl ⟨hc.1, .inl rfl⟩⟩
      · exact absurd hpc hst.pc
    · intro hs i hi
      exact absurd hpc (h.seen hs i hi).2

theorem Control.set {s t : State} {i : Nat} {x y : Executor} (h : Control s)
    (hx : s.executors[i]? = some x) (hp : x.phase ≠ .finished)
    (he : t.executors = s.executors.set i y) (hy : y.epoch = x.epoch) (hpc : t.pc = s.pc)
    (hc : t.ghost.current = s.ghost.current) (hb : t.ghost.begins = s.ghost.begins)
    (hs : t.ghost.seenStopped = s.ghost.seenStopped) (hcr : y.phase ≠ .created)
    (hf : x.phase ≠ .created → t.executed = s.executed ∧
      (t.threadRunning = true → s.threadRunning = true))
    (hl : Current s i x → y.phase ≠ .finished → t.threadRunning = true ∨
      y.phase = .forkCleared ∨ s.pc = .assigning ∧ y.phase = .noCommand) : Control t := by
  obtain ⟨hlen, hlive⟩ := h.live i x hx hp
  refine ⟨?_, ?_, ?_⟩
  · intro j z hz hzp
    rw [he] at hz ⊢
    rw [List.length_set]
    obtain ⟨rfl, rfl⟩ | ⟨hj, hz⟩ := (row_set hx).mp hz
    · refine ⟨hlen, hlive.imp (fun hcur => ⟨hc.trans hcur.1, ?_⟩) fun hst => ?_⟩
      · rw [hpc]
        exact (hl hcur hzp).imp_right (Or.imp_right (And.imp_right .inr))
      · obtain ⟨hex, hfl⟩ := hf hst.entered
        refine ⟨hc.trans hst.current, ?_, hex.trans hst.executed, hpc ▸ hst.pc, hcr⟩
        exact Bool.eq_false_iff.mpr fun ht => absurd (hfl ht) (by simp [hst.flag])
    · have := (h.live j z hz hzp).1
      omega
  · intro j hj
    obtain ⟨hlj, hep⟩ := h.current j (hc ▸ hj)
    refine ⟨by simpa [he] using hlj, fun z hz => ?_⟩
    obtain rfl : j = i := by omega
    rw [he, row_set_self hx] at hz
    obtain rfl := Option.some.inj hz
    rw [hy, hb]
    exact hep x hx
  · intro hse j hj
    rw [hpc]
    obtain ⟨hff, hna⟩ := h.seen (hs ▸ hse) j (hc ▸ hj)
    refine ⟨Bool.eq_false_iff.mpr fun ht => ?_, hna⟩
    -- the flag was clear, so this thread can only be storing -3
    obtain ⟨-, hr | hr | hr⟩ | hst := hlive
    · simp [hff] at hr
    · exact absurd ((hf (by simp [hr])).2 ht) (by simp [hff])
    · exact hna hr.1
    · exact nomatch hst.current.symm.trans (hc.symm.trans hj)

def Phase.flagged : Phase → Bool
  | .entered | .closed | .piped | .forkFailed | .waiting _ | .returned | .stored => true
  | _ => false

theorem Current.flag {s : State} {i : Nat} {x : Executor} (h : Current s i x)
    (hp : x.phase.flagged = true) : s.threadRunning = true := by
  obtain ⟨-, hr | hr | hr⟩ := h
  · exact hr
  · simp [hr, Phase.flagged] at hp
  · obtain ⟨-, hr | hr⟩ := hr <;> simp [hr, Phase.flagged] at hp

theorem control_exec {s t : State} {i : Nat} {x : Executor} {a : ExecAct} (h : Control s)
    (hx : s.executors[i]? = some x) (hm : ExecMove s i x a t) : Control t := by
  cases hm with
  | noCommand hp =>
    refine h.set hx (by simp [hp]) rfl rfl rfl rfl rfl rfl (by simp) (by simp [hp]) ?_
    rintro ⟨-, hr | hr | hr⟩ -
    · exact .inl hr
    · simp [hp] at hr
    · exact .inr (.inr ⟨hr.1, rfl⟩)
  | enter hp =>
    exact h.set hx (by simp [hp]) rfl rfl rfl rfl rfl rfl (by simp) (by simp [hp])
      fun _ _ => .inl rfl
  | clear p hp =>
    obtain ⟨hx' | hx', rfl⟩ | ⟨hx', rfl⟩ := cleared_cases hp <;>
      exact h.set hx (by simp [hx']) rfl rfl rfl rfl rfl rfl (by simp)
        (fun _ => ⟨rfl, by simp [setExecutor]⟩) (by simp)
  | fail hp =>
    exact h.set hx (by simp [hp]) rfl rfl rfl rfl rfl rfl (by simp) (fun _ => ⟨rfl, id⟩) (by simp)
  | forkChild pid hp | waitpid k c st hk hr hp | _ hp =>
    exact h.set hx (by simp [hp]) rfl rfl rfl rfl rfl rfl (by simp) (fun _ => ⟨rfl, id⟩)
      fun hcur _ => .inl (hcur.flag (by simp [hp, Phase.flagged]))

theorem control_child {cap : Nat} {s t : State} {k : Nat} {c : Child} {a : ChildAct}
    (h : Control s) (hm : childStep cap s k c a = some t) : Control t := by
  obtain ⟨_, _, _, rfl⟩ | ⟨_, _, _, _, _, _, _, _, _, rfl⟩ | ⟨_, _, _, rfl⟩ := childStep_cases hm
  · exact h
  · exact h.same rfl rfl rfl rfl Iff.rfl
  · exact h.same rfl rfl rfl rfl Iff.rfl

def ResultOk (s : State) (x : Executor) : Prop :=
  match x.phase with
  | .noCommand | .stored => x.result = some s.execResult
  | .forkFailed | .forkCleared => x.result = some (-3)
  | .returned => x.result = some (wexitstatus s.execResult)
  | .finished => s.threadRunning = false → x.result = some s.execResult
  | _ => True

def Results (s : State) : Prop :=
  ∀ i x, s.ghost.current = some i → s.executors[i]? = some x → ResultOk s x

theorem results_sketch {s t : State} {a : SketchAct} (h : Results s)
    (hq : Orderly s (.sketch a) t) (hm : SketchMove s a t) : Results t := by
  cases hm with
  | addParameter =>
    unfold addParameter
    split
    · exact h
    · split
      · exact h
      · exact h
  | alreadyRunning created hpc hf =>
    intro i x hi hx
    have hb : ∀ x ∈ s.executors,
        x.phase ≠ .noCommand ∧ x.phase ≠ .returned ∧ x.phase ≠ .stored := by
      simpa [Orderly, hf] using hq
    have hb := hb x (List.mem_of_getElem? hx)
    have hr := h i x hi hx
    cases hp : x.phase <;> simp_all [ResultOk]
  | spawn =>
    intro i x hi hx
    obtain rfl := Option.some.inj hi
    rw [row_append_last] at hx
    obtain rfl := Option.some.inj hx
    trivial
  | spawnFails => exact fun i x hi => nomatch hi
  | read =>
    unfold read
    split
    · exact h
    · exact h
  | reset => exact fun i x hi => nomatch hi
  | assign hpc =>
    intro i x hi hx
    have hr := h i x hi hx
    cases hp : x.phase <;> simp_all [ResultOk]
  | _ => exact h

theorem Results.set {s t : State} {i : Nat} {x y : Executor} (hc : Control s)
    (hx : s.executors[i]? = some x) (hp : x.phase ≠ .finished)
    (he : t.executors = s.executors.set i y) (hg : t.ghost.current = s.ghost.current)
    (hy : s.ghost.current = some i → ResultOk t y) : Results t := by
  intro j z hj hz
  have hlen := (hc.live i x hx hp).1
  have hlj := (hc.current j (hg ▸ hj)).1
  obtain rfl : j = i := by omega
  rw [he, row_set_self hx] at hz
  obtain rfl := Option.some.inj hz
  exact hy (hg ▸ hj)

theorem results_exec {s t : State} {i : Nat} {x : Executor} {a : ExecAct} (h : Results s)
    (hc : Control s) (hx : s.executors[i]? = some x) (hm : ExecMove s i x a t) : Results t := by
  cases hm with
  | noCommand hp => exact .set hc hx (by simp [hp]) rfl rfl fun _ => rfl
  | forkFails hp => exact .set hc hx (by simp [hp]) rfl rfl fun _ => rfl
  | forkChild pid hp => exact .set hc hx (by simp [hp]) rfl rfl fun _ => trivial
  | waitpid k c st hk hst hp => exact .set hc hx (by simp [hp]) rfl rfl fun _ => rfl
  | store hp =>
    refine .set hc hx (by simp [hp]) rfl rfl fun hi => ?_
    have hr := h i x hi hx
    simp only [ResultOk, hp] at hr
    exact hr
  | clear p hp =>
    obtain ⟨hx' | hx', rfl⟩ | ⟨hx', rfl⟩ := cleared_cases hp
    all_goals
      refine .set hc hx (by simp [hx']) rfl rfl fun hi => ?_
      have hr := h i x hi hx
      simp only [ResultOk, hx'] at hr
    · exact fun _ => hr
    · exact fun _ => hr
    · exact hr
  | fail hp =>
    refine .set hc hx (by simp [hp]) rfl rfl fun hi _ => ?_
    have hr := h i x hi hx
    simp only [ResultOk, hp] at hr
    exact hr
  | _ hp => exact .set hc hx (by simp [hp]) rfl rfl fun _ => trivial

theorem results_child {cap : Nat} {s t : State} {k : Nat} {c : Child} {a : ChildAct}
    (h : Results s) (hm : childStep cap s k c a = some t) : Results t := by
  obtain ⟨_, _, _, rfl⟩ | ⟨_, _, _, _, _, _, _, _, _, rfl⟩ | ⟨_, _, _, rfl⟩ := childStep_cases hm
  · exact h
  · exact h
  · exact h

/-- The pipe behind pipes.out, if any, was made for the last begin(). -/
def OutOfLast (s : State) : Prop :=
  match s.out with
  | .unset => False
  | .closed => True
  | .pipe q => ∃ p y, s.pipes[q]? = some p ∧ s.executors[p.creator]? = some y ∧
      y.epoch = s.ghost.begins

theorem OutOfLast.mono {s t : State} (h : OutOfLast s) (ho : t.out = s.out)
    (hb : t.ghost.begins = s.ghost.begins)
    (hp : ∀ (q : Nat) (p : Pipe), s.pipes[q]? = some p →
      ∃ p', t.pipes[q]? = some p' ∧ p'.creator = p.creator)
    (hx : ∀ (i : Nat) (x : Executor), s.executors[i]? = some x →
      ∃ y, t.executors[i]? = some y ∧ y.epoch = x.epoch) : OutOfLast t := by
  unfold OutOfLast at h ⊢
  rw [ho, hb]
  cases hso : s.out with
  | unset => simp [hso] at h
  | closed => trivial
  | pipe q =>
    simp only [hso] at h
    obtain ⟨p, x, hpq, hxi, hep⟩ := h
    obtain ⟨p', hp', hcr⟩ := hp q p hpq
    obtain ⟨y, hy, hye⟩ := hx p.creator x hxi
    exact ⟨p', y, hp', hcr ▸ hy, hye.trans hep⟩

/-- Every pipe holds bytes of its creator's child only, and once the old pipes are
closed pipes.out is of the last begin(). -/
structure Output (s : State) : Prop where
  data : ∀ (q : Nat) (p : Pipe), s.pipes[q]? = some p → ∀ d ∈ p.data, d.1 = p.creator
  child : ∀ d ∈ s.children.map Child.ident, ∀ q, d.out = some q →
    ∃ p, s.pipes[q]? = some p ∧ p.creator = d.owner
  closed : ∀ (i : Nat) (x : Executor), s.executors[i]? = some x → x.phase = .closed →
    s.out = .closed
  piped : ∀ (i : Nat) (x : Executor), s.executors[i]? = some x → x.phase = .piped →
    s.out = .closed ∨ ∃ q p, s.out = .pipe q ∧ s.pipes[q]? = some p ∧ p.creator = i
  out : s.executed = true → (∀ x ∈ s.executors, x.phase ≠ .entered) → OutOfLast s

theorem output_init : Output init where
  data q p hp := by simp [init] at hp
  child d hd := by simp [init] at hd
  closed i x hx := by simp [init] at hx
  piped i x hx := by simp [init] at hx
  out he := by simp [init] at he

theorem Output.frame {s t : State} (h : Output s) (hx : t.executors = s.executors)
    (hc : t.children.map Child.ident = s.children.map Child.ident) (ho : t.out = s.out)
    (he : t.executed = true → s.executed = true ∧ t.ghost.begins = s.ghost.begins)
    (hp : ∀ (q : Nat) (p : Pipe), s.pipes[q]? = some p →
      ∃ p', t.pipes[q]? = some p' ∧ p'.creator = p.creator)
    (hd : ∀ (q : Nat) (p : Pipe), t.pipes[q]? = some p → ∀ d ∈ p.data, d.1 = p.creator) :
    Output t where
  data := hd
  child d hdc q hq := by
    obtain ⟨p, hpq, hcr⟩ := h.child d (hc ▸ hdc) q hq
    obtain ⟨p', hp', hcr'⟩ := hp q p hpq
    exact ⟨p', hp', hcr'.trans hcr⟩
  closed i x hi hph := ho ▸ h.closed i x (hx ▸ hi) hph
  piped i x hi hph := by
    rw [ho]
    refine (h.piped i x (hx ▸ hi) hph).imp_right ?_
    rintro ⟨q, p, hq, hpq, hcr⟩
    obtain ⟨p', hp', hcr'⟩ := hp q p hpq
    exact ⟨q, p', hq, hp', hcr'.trans hcr⟩
  out hte hen := by
    obtain ⟨hse, hb⟩ := he hte
    exact (h.out hse (hx ▸ hen)).mono ho hb hp fun i x hi => ⟨x, hx ▸ hi, rfl⟩

theorem Output.same {s t : State} (h : Output s) (hx : t.executors = s.executors)
    (hc : t.children.map Child.ident = s.children.map Child.ident) (ho : t.out = s.out)
    (he : t.executed = true → s.executed = true ∧ t.ghost.begins = s.ghost.begins)
    (hp : t.pipes = s.pipes) : Output t :=
  h.frame hx hc ho he (fun _ p hq => ⟨p, hp ▸ hq, rfl⟩) (fun q p hq => h.data q p (hp ▸ hq))

theorem output_sketch {s t : State} {a : SketchAct} (h : Output s)
    (hm : SketchMove s a t) : Output t := by
  cases hm with
  | addParameter =>
    unfold addParameter
    split
    · exact h
    · split
      · exact h
      · exact h.same rfl rfl rfl (fun he => ⟨he, rfl⟩) rfl
  | spawn =>
    refine ⟨h.data, h.child, ?_, ?_, ?_⟩
    · intro i x hx hp
      obtain hx | ⟨-, rfl⟩ := row_append.mp hx
      · exact h.closed i x hx hp
      · cases hp
    · intro i x hx hp
      obtain hx | ⟨-, rfl⟩ := row_append.mp hx
      · exact h.piped i x hx hp
      · cases hp
    · intro he hen
      have hs := h.out he fun x hx => hen x (List.mem_append_left _ hx)
      exact hs.mono rfl rfl (fun _ p hp => ⟨p, hp, rfl⟩) fun _ x hx => ⟨x, row_append_left hx, rfl⟩
  | read len env =>
    unfold read
    split
    · next q _ hq =>
      refine h.frame rfl rfl rfl (fun he => ⟨he, rfl⟩) ?_ ?_
      · intro q' p hp
        by_cases hqq : q = q'
        · subst hqq
          exact ⟨{ p with data := p.data.drop len }, by simp [hp], rfl⟩
        · exact ⟨p, by simp [hqq, hp], rfl⟩
      · intro q' p' hp' d hd
        by_cases hqq : q = q'
        · subst hqq
          obtain ⟨p, hp, rfl⟩ : ∃ p, s.pipes[q]? = some p ∧
              { p with data := p.data.drop len } = p' := by
            simpa using hp'
          exact h.data q p hp d (List.mem_of_mem_drop hd)
        · exact h.data q' p' (by simpa [hqq] using hp') d hd
    · exact h
  | kill => exact h.same rfl (kill_ident _ _) rfl (fun he => ⟨he, rfl⟩) rfl
  | reset => exact h.same rfl rfl rfl (by simp [beginBody]) rfl
  | exitValue => exact h
  | _ => exact h.same rfl rfl rfl (fun he => ⟨he, rfl⟩) rfl

theorem Control.only {s : State} {i j : Nat} {x y : Executor} (h : Control s)
    (hx : s.executors[i]? = some x) (hxp : x.phase ≠ .finished)
    (hy : s.executors[j]? = some y) (hyp : y.phase ≠ .finished) : j = i :=
  Nat.succ_inj.mp ((h.live j y hy hyp).1.trans (h.live i x hx hxp).1.symm)

theorem Output.set {s t : State} {i : Nat} {x y : Executor} (h : Output s)
    (hx : s.executors[i]? = some x) (he : t.executors = s.executors.set i y)
    (hy : y.epoch = x.epoch) (ho : t.out = s.out) (hp : t.pipes = s.pipes)
    (hb : t.ghost.begins = s.ghost.begins)
    (hc : ∀ d ∈ t.children.map Child.ident, ∀ q, d.out = some q →
      ∃ p, s.pipes[q]? = some p ∧ p.creator = d.owner)
    (hex : t.executed = true → y.phase ≠ .entered → s.executed = true ∧ x.phase ≠ .entered)
    (hyc : y.phase ≠ .closed) (hyp : y.phase = .piped → s.out = .closed) : Output t where
  data := hp ▸ h.data
  child := hp ▸ hc
  closed j z hz hph := by
    rw [he] at hz
    obtain ⟨rfl, rfl⟩ | ⟨-, hz⟩ := (row_set hx).mp hz
    · exact absurd hph hyc
    · exact ho ▸ h.closed j z hz hph
  piped j z hz hph := by
    rw [he] at hz
    obtain ⟨rfl, rfl⟩ | ⟨-, hz⟩ := (row_set hx).mp hz
    · exact .inl (ho ▸ hyp hph)
    · rw [ho, hp]
      exact h.piped j z hz hph
  out hte hen := by
    have hyi : t.executors[i]? = some y := by rw [he, row_set_self hx]
    obtain ⟨hse, hxe⟩ := hex hte (hen y (List.mem_of_getElem? hyi))
    have hs := h.out hse (by
      intro z hz
      obtain ⟨j, hj⟩ := List.getElem?_of_mem hz
      by_cases hij : j = i
      · subst hij
        rw [hx] at hj
        exact Option.some.inj hj ▸ hxe
      · refine hen z (List.mem_of_getElem? (i := j) ?_)
        rw [he]
        exact (row_set hx).mpr (.inr ⟨hij, hj⟩))
    refine hs.mono ho hb (fun _ p hq => ⟨p, hp ▸ hq, rfl⟩) fun j z hz => ?_
    rw [he]
    by_cases hij : j = i
    · subst hij
      rw [hx] at hz
      exact ⟨y, row_set_self hx, Option.some.inj hz ▸ hy⟩
    · exact ⟨z, (row_set hx).mpr (.inr ⟨hij, hz⟩), rfl⟩

theorem output_exec {s t : State} {i : Nat} {x : Executor} {a : ExecAct} (h : Output s)
    (hc : Control s) (hx : s.executors[i]? = some x) (hm : ExecMove s i x a t) : Output t := by
  cases hm with
  | noCommand hp =>
    exact h.set hx rfl rfl rfl rfl rfl h.child (fun he _ => ⟨he, by simp [hp]⟩) (by simp) (by simp)
  | enter hp =>
    exact h.set hx rfl rfl rfl rfl rfl h.child (fun _ he => absurd rfl he) (by simp) (by simp)
  | closePipes hp =>
    exact ⟨h.data, h.child, fun _ _ _ _ => rfl, fun _ _ _ _ => .inl rfl, fun _ _ => trivial⟩
  | makePipes hp =>
    have hother : ∀ (j : Nat) (z : Executor), j ≠ i → s.executors[j]? = some z →
        z.phase = .finished := fun j z hj hz =>
      Classical.byContradiction fun hf => hj (hc.only hx (by simp [hp]) hz hf)
    refine ⟨?_, ?_, ?_, ?_, ?_⟩
    · intro q p hq
      obtain hq | ⟨-, rfl⟩ := row_append.mp hq
      · exact h.data q p hq
      · simp
    · intro d hd q hq
      obtain ⟨p, hpq, hcr⟩ := h.child d hd q hq
      exact ⟨p, row_append_left hpq, hcr⟩
    · intro j z hz hph
      obtain ⟨rfl, rfl⟩ | ⟨hj, hz⟩ := (row_set hx).mp hz
      · cases hph
      · simp [hother j z hj hz] at hph
    · intro j z hz hph
      obtain ⟨rfl, rfl⟩ | ⟨hj, hz⟩ := (row_set hx).mp hz
      · exact .inr ⟨_, _, rfl, row_append_last _ _, rfl⟩
      · simp [hother j z hj hz] at hph
    · intro he _
      obtain ⟨-, hcur | hst⟩ := hc.live i x hx (by simp [hp])
      · exact ⟨_, _, row_append_last _ _, row_set_self hx, (hc.current i hcur.1).2 x hx⟩
      · have he : s.executed = true := he
        simp [hst.executed] at he
  | makePipesFails hp =>
    exact h.set hx rfl rfl rfl rfl rfl h.child (fun he _ => ⟨he, by simp [hp]⟩) (by simp)
      fun _ => h.closed i x hx hp
  | forkChild pid hp =>
    refine h.set hx rfl rfl rfl rfl rfl ?_ (fun he _ => ⟨he, by simp [hp]⟩) (by simp) (by simp)
    intro d hd q hq
    simp only [forkChild, setExecutor, List.map_append, List.map_cons, List.map_nil] at hd
    obtain hd | hd := List.mem_append.mp hd
    · exact h.child d hd q hq
    -- the new child's descriptor 1 is the pipe that its own executor made
    · obtain rfl := List.mem_singleton.mp hd
      have hq : s.out.pipe? = some q := hq
      obtain ho | ⟨q', p, ho, hpq, hcr⟩ := h.piped i x hx hp
      · simp [ho, OutEnd.pipe?] at hq
      · obtain rfl : q' = q := by simpa [ho, OutEnd.pipe?] using hq
        exact ⟨p, hpq, hcr⟩
  | waitpid k c st hk hr hp =>
    refine h.set hx rfl rfl rfl rfl rfl ?_ (fun he _ => ⟨he, by simp [hp]⟩) (by simp) (by simp)
    intro d hd q hq
    obtain ⟨c', hc', rfl⟩ := List.mem_map.mp hd
    obtain ⟨k', hk'⟩ := List.getElem?_of_mem hc'
    obtain ⟨rfl, rfl⟩ | ⟨-, hk'⟩ := (row_set hk).mp hk'
    · exact h.child c.ident (List.mem_map_of_mem (List.mem_of_getElem? hk)) q hq
    · exact h.child c'.ident (List.mem_map_of_mem (List.mem_of_getElem? hk')) q hq
  | clear p hp =>
    obtain ⟨hx' | hx', rfl⟩ | ⟨hx', rfl⟩ := cleared_cases hp <;>
      exact h.set hx rfl rfl rfl rfl rfl h.child (fun he _ => ⟨he, by simp [hx']⟩) (by simp)
        (by simp)
  | _ hp =>
    exact h.set hx rfl rfl rfl rfl rfl h.child (fun he _ => ⟨he, by simp [hp]⟩) (by simp) (by simp)

theorem output_child {cap : Nat} {s t : State} {k : Nat} {c : Child} {a : ChildAct}
    (h : Output s) (hk : s.children[k]? = some c) (hm : childStep cap s k c a = some t) :
    Output t := by
  obtain ⟨_, _, _, rfl⟩ | ⟨b, q, p, _, _, _, hq, hp, _, rfl⟩ | ⟨c', hact, _, rfl⟩ :=
    childStep_cases hm
  · exact h
  · refine h.frame rfl rfl rfl (fun he => ⟨he, rfl⟩) ?_ ?_
    · intro q' p' hp'
      by_cases hqq : q' = q
      · subst hqq
        rw [hp] at hp'
        obtain rfl := Option.some.inj hp'
        exact ⟨_, row_set_self hp, rfl⟩
      · exact ⟨p', (row_set hp).mpr (.inr ⟨hqq, hp'⟩), rfl⟩
    · intro q' p' hp' d hd
      obtain ⟨rfl, rfl⟩ | ⟨-, hp'⟩ := (row_set hp).mp hp'
      · obtain hd | hd := List.mem_append.mp hd
        · exact h.data q' p hp d hd
        · obtain rfl := List.mem_singleton.mp hd
          obtain ⟨p₀, hp₀, hcr⟩ :=
            h.child c.ident (List.mem_map_of_mem (List.mem_of_getElem? hk)) q' hq
          rw [hp] at hp₀
          obtain rfl := Option.some.inj hp₀
          exact hcr.symm
      · exact h.data q' p' hp' d hd
  · exact h.same rfl (map_set_eq hk (act_ident hact)) rfl (fun he => ⟨he, rfl⟩) rfl

structure Agreement (s : State) : Prop where
  control : Control s
  results : Results s
  output : Output s

theorem agreement_init : Agreement init where
  control := control_init
  results _ _ hi := nomatch hi
  output := output_init

theorem agreement_step {cap : Nat} {s t : State} {l : Label} (h : Agreement s)
    (hs : step cap s l = some t) (hq : Orderly s l t) : Agreement t := by
  obtain ⟨a, rfl, hm⟩ | ⟨i, x, a, rfl, hx, hm⟩ | ⟨k, c, a, rfl, hk, hm⟩ := step_cases hs
  · exact ⟨control_sketch h.control hq hm, results_sketch h.results hq hm,
      output_sketch h.output hm⟩
  · exact ⟨control_exec h.control hx hm, results_exec h.results h.control hx hm,
      output_exec h.output h.control hx hm⟩
  · exact ⟨control_child h.control hm, results_child h.results hm, output_child h.output hk hm⟩

theorem cleared_by_last {cap : Nat} {s t : State} {l : Label} (h : Agreement s)
    (hs : step cap s l = some t) : ClearedByLast s l t := by
  intro hf ht
  obtain ⟨rfl, -⟩ | ⟨i, x, rfl, hx, hp⟩ := flag_cleared hs hf ht
  · exact .inl rfl
  · exact .inr ⟨i, .clear, rfl, (h.control.live i x hx hp).1⟩

theorem exitValue_of_last {s t : State} {l : Label} (h : Agreement s) (hq : Orderly s l t) :
    ExitValueOfLast s l t := by
  rintro rfl hseen i hi x hx
  obtain ⟨hf, hna⟩ := h.control.seen hseen i hi
  have hp : x.phase = .finished := by
    refine Classical.byContradiction fun hp => ?_
    obtain ⟨-, ⟨-, hr | hr | hr⟩ | hst⟩ := h.control.live i x hx hp
    · simp [hf] at hr
    · exact hq i hi x hx hr
    · exact hna hr.1
    · exact nomatch hst.current.symm.trans hi
  have hr := h.results i x hi hx
  simp only [ResultOk, hp] at hr
  exact hr hf

theorem reads_of_last {s t : State} {l : Label} (h : Agreement s) (hq : Orderly s l t) :
    ReadsOfLast s l t := by
  rintro len env rfl d hd
  unfold readBytes at hd
  split at hd
  · next he =>
    have hold : NoOldOutput s := by
      refine (hq he).elim (fun hen => ?_) id
      have ho := h.output.out he hen
      unfold OutOfLast at ho
      unfold NoOldOutput
      cases hso : s.out with
      | unset => simp [hso] at ho
      | closed => trivial
      | pipe q =>
        simp only [hso] at ho
        obtain ⟨p, y, hp, hy, hep⟩ := ho
        simp [hp, hy, hep]
    unfold NoOldOutput at hold
    cases hso : s.out with
    | unset => simp [hso] at hold
    | closed => simp [hso] at hd
    | pipe q =>
      simp only [hso] at hold hd
      cases hp : s.pipes[q]? with
      | none => simp [hp] at hd
      | some p =>
        simp only [hp, List.mem_map] at hd
        obtain ⟨e, he, rfl⟩ := hd
        obtain hnil | hep := hold p hp
        · simp [hnil] at he
        · obtain ⟨y, hy, hye⟩ := Option.map_eq_some_iff.mp hep
          refine ⟨e.1, y, rfl, ?_, hye⟩
          rw [h.output.data q p hp e (List.mem_of_mem_take he)]
          exact hy
  · simp at hd

/-- What the sketch may expect of a Process that it restarts. -/
def Agrees (s : State) (l : Label) (t : State) : Prop :=
  ClearedByLast s l t ∧ ExitValueOfLast s l t ∧ ReadsOfLast s l t

/-- In every orderly run, of any length and with any number of restarts, the flag,
the exit value and the output belong to the command started last. -/
theorem orderly_run_agrees (cap : Nat) (ls : List Label)
    (h : Along (step cap) Orderly ls init) : Along (step cap) Agrees ls init :=
  Along.of_invariant (I := Agreement)
    (fun _ _ _ hi hs hq => ⟨agreement_step hi hs hq, cleared_by_last hi hs,
      exitValue_of_last hi hq, reads_of_last hi hq⟩)
    agreement_init h

/-- `sleep` is killed by the begin() of `date`, which starts when the old thread is done. -/
def orderlyRestart : List Label :=
  [.sketch (.begin "sleep"), .sketch .reset, .sketch (.runAsynchronously true), .sketch .assign,
    .exec 0 .start, .exec 0 .closePipes, .exec 0 (.makePipes true),
    .exec 0 (.fork (some ⟨100, by decide⟩)), .child 0 (.execvp true), .child 0 (.write 65),
    .sketch (.begin "date"), .sketch .kill, .sketch .reset,
    .exec 0 (.waitpid 0), .exec 0 .store, .exec 0 .clear,
    .sketch (.runAsynchronously true), .sketch .assign, .exec 1 .start, .exec 1 .closePipes,
    .exec 1 (.makePipes true), .exec 1 (.fork (some ⟨101, by decide⟩)),
    .child 1 (.execvp true), .child 1 (.write 66), .child 1 (.exit 3),
    .exec 1 (.waitpid 1), .exec 1 .store, .exec 1 .clear,
    .sketch .running, .sketch .exitValue, .sketch (.read 1 [])]

theorem orderly_run_agrees_restart :
    (run (step 65536) orderlyRestart init).isSome ∧
      Along (step 65536) Orderly orderlyRestart init ∧
      Along (step 65536) Agrees orderlyRestart init :=
  have h : Along (step 65536) Orderly orderlyRestart init := by decide
  ⟨by decide, h, orderly_run_agrees 65536 orderlyRestart h⟩

/-- begin() restarts a Process that waits for `sleep`; the killed command's thread then
clears the flag of `date`, and exitValue() is 0 although `date` has not even started. -/
def restart : List Label :=
  [.sketch (.begin "sleep"), .sketch .reset, .sketch (.runAsynchronously true), .sketch .assign,
    .exec 0 .start, .exec 0 .closePipes, .exec 0 (.makePipes true),
    .exec 0 (.fork (some ⟨100, by decide⟩)), .child 0 (.execvp true),
    .sketch (.begin "date"), .sketch .kill, .sketch .reset,
    .sketch (.runAsynchronously true), .sketch .assign,
    .exec 0 (.waitpid 0), .exec 0 .store, .exec 0 .clear,
    .sketch .running, .sketch .exitValue]

theorem restart_breaks_agreement :
    ¬ ∀ cap ls, Along (step cap) Agrees ls init := by
  intro h
  have hv : Along (step 65536) ExitValueOfLast restart init :=
    (h 65536 restart).imp fun _ _ _ ha => ha.2.1
  revert hv
  decide

end RasPiArduino.Process
