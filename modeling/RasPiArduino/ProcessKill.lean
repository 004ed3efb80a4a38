import RasPiArduino.ProcessMoves

/-! Whom Process::close kills. The pid it uses is decided by four kinds of step
only: the reset in begin, a new thread, a fork and a return of waitpid. -/
namespace RasPiArduino.Process
open RasPiArduino.Transition RasPiArduino.Table

structure Link where
  child : Option Nat
  report : Option WaitStatus
  waits : Option Pid

def Phase.waits : Phase → Option Pid
  | .waiting pid => some pid
  | _ => none

def Executor.link (x : Executor) : Link := ⟨x.child, x.report, x.phase.waits⟩

/-- The book of forks and reaps behind a state. -/
structure Book where
  execPid : Int
  lastFork : Option Nat
  links : List Link
  idents : List Ident

def book (s : State) : Book where
  execPid := s.execPid
  lastFork := s.ghost.lastFork
  links := s.executors.map Executor.link
  idents := s.children.map Child.ident

inductive Book.Step : Book → Book → Prop where
  | reset (b : Book) : Step b { b with execPid := -1, lastFork := none }
  | spawn (b : Book) : Step b { b with links := b.links ++ [⟨none, none, none⟩] }
  | fork (b : Book) (i : Nat) (p : Pid) (out : Option Nat) :
      i < b.links.length → (∀ d ∈ b.idents, d.reaped = false → d.pid ≠ p) →
      Step b
        { execPid := p.val
          lastFork := some i
          links := b.links.set i ⟨some b.idents.length, none, some p⟩
          idents := b.idents ++ [⟨p, i, out, false⟩] }
  | reap (b : Book) (i k : Nat) (l : Link) (d : Ident) (st : WaitStatus) :
      b.links[i]? = some l → l.waits = some d.pid → b.idents[k]? = some d → d.reaped = false →
      Step b
        { b with
          links := b.links.set i ⟨l.child, some st, none⟩
          idents := b.idents.set k { d with reaped := st.terminated } }

theorem sketch_book {s t : State} {a : SketchAct} (h : SketchMove s a t) :
    book t = book s ∨ Book.Step (book s) (book t) := by
  cases h with
  | addParameter =>
    left
    unfold addParameter
    split
    · rfl
    · split <;> rfl
  | spawn =>
    right
    have hs := Book.Step.spawn (book s)
    simpa [book, Executor.link, Phase.waits] using hs
  | read =>
    left
    unfold read
    split <;> rfl
  | kill => exact .inl (by simp [book, kill_ident])
  | reset => exact .inr (Book.Step.reset (book s))
  | _ => exact .inl rfl

theorem book_setExecutor {s s' : State} {i : Nat} {x y : Executor}
    (hx : s.executors[i]? = some x) (hs : s'.executors = s.executors)
    (hp : s'.execPid = s.execPid) (hl : s'.ghost.lastFork = s.ghost.lastFork)
    (hc : s'.children = s.children) (hy : y.link = x.link) :
    book (setExecutor s' i y) = book s := by
  simp only [book, setExecutor, hs, hp, hl, hc, map_set_eq hx hy]

theorem exec_book {s t : State} {i : Nat} {x : Executor} {a : ExecAct}
    (hx : s.executors[i]? = some x) (h : ExecMove s i x a t) :
    book t = book s ∨ Book.Step (book s) (book t) := by
  cases h with
  | forkFails hp =>
    right
    have hs := Book.Step.reset (book s)
    have hl :
        ({ x with phase := .forkFailed, result := some (-3) } : Executor).link = x.link := by
      simp [Executor.link, Phase.waits, hp]
    simpa [book, forkFails, setExecutor, map_set_eq hx hl] using hs
  | forkChild pid hp hpid =>
    right
    have hi : i < (book s).links.length := by
      simpa [book] using (List.getElem?_eq_some_iff.mp hx).1
    have hfresh : ∀ d ∈ (book s).idents, d.reaped = false → d.pid ≠ pid := by
      intro d hd hr he
      obtain ⟨c, hc, rfl⟩ := List.mem_map.mp hd
      exact hpid (List.mem_map.mpr
        ⟨c, List.mem_filter.mpr ⟨hc, by simpa [Child.ident] using hr⟩, he⟩)
    have hs := Book.Step.fork (book s) i pid s.out.pipe? hi hfresh
    simpa [book, forkChild, setExecutor, Executor.link, Phase.waits, Child.ident] using hs
  | waitpid k c st hc hr hp hu =>
    right
    have hs := Book.Step.reap (book s) i k x.link c.ident st
      (by simp [book, hx]) (by simp [Executor.link, hp, Phase.waits, Child.ident])
      (by simp [book, hc]) hu
    simpa [book, waitReturns, setExecutor, Executor.link, Phase.waits, Child.ident] using hs
  | clear p hp =>
    left
    refine book_setExecutor hx rfl rfl rfl rfl ?_
    cases hx' : x.phase <;> simp_all [Phase.cleared, Executor.link, Phase.waits] <;>
      subst hp <;> rfl
  | _ hp =>
    left
    refine book_setExecutor hx rfl rfl rfl rfl ?_
    simp [Executor.link, Phase.waits, hp]

theorem step_book {cap : Nat} {s t : State} {l : Label} (h : step cap s l = some t) :
    book t = book s ∨ Book.Step (book s) (book t) := by
  obtain ⟨a, -, hm⟩ | ⟨i, x, a, -, hx, hm⟩ | ⟨k, c, a, -, hc, hm⟩ := step_cases h
  · exact sketch_book hm
  · exact exec_book hx hm
  · left
    have hi := child_step_ident hc hm
    obtain ⟨_, _, _, rfl⟩ | ⟨_, _, _, _, _, _, _, _, _, rfl⟩ | ⟨c', _, _, rfl⟩ := childStep_cases hm
    · rfl
    · rfl
    · simp only [book] at hi ⊢
      rw [hi]

/-! The invariant of the book. -/

def Link.reaped (l : Link) : Bool :=
  match l.report with
  | some st => st.terminated
  | none => false

/-- exec_pid is the pid of the child that `lastFork` names, and no other child with
that pid is unreaped; every executor knows whether its own child is reaped. -/
structure Book.Inv (b : Book) : Prop where
  noFork : b.lastFork = none → b.execPid = -1
  lastFork : ∀ i, b.lastFork = some i → ∃ (l : Link) (k : Nat) (d : Ident),
    b.links[i]? = some l ∧ l.child = some k ∧ b.idents[k]? = some d ∧ b.execPid = d.pid.val ∧
    ∀ (k' : Nat) (d' : Ident), b.idents[k']? = some d' → d'.reaped = false → d'.pid = d.pid →
      k' = k
  own : ∀ (i : Nat) (l : Link) (k : Nat), b.links[i]? = some l → l.child = some k →
    ∃ d : Ident, b.idents[k]? = some d ∧ d.owner = i ∧ d.reaped = l.reaped ∧
      ∀ p, l.waits = some p → p = d.pid
  waits : ∀ (i : Nat) (l : Link) (p : Pid), b.links[i]? = some l → l.waits = some p →
    ∃ k, l.child = some k ∧ l.reaped = false
  distinct : ∀ (k k' : Nat) (d d' : Ident), b.idents[k]? = some d → b.idents[k']? = some d' →
    d.reaped = false → d'.reaped = false → d.pid = d'.pid → k = k'

variable {b : Book}

theorem Book.Inv.reset (h : b.Inv) : Book.Inv { b with execPid := -1, lastFork := none } where
  noFork _ := rfl
  lastFork i hi := by cases hi
  own := h.own
  waits := h.waits
  distinct := h.distinct

theorem Book.Inv.spawn (h : b.Inv) :
    Book.Inv { b with links := b.links ++ [⟨none, none, none⟩] } where
  noFork := h.noFork
  lastFork i hi := by
    obtain ⟨l, k, d, hl, hr⟩ := h.lastFork i hi
    exact ⟨l, k, d, row_append_left hl, hr⟩
  own i l k hl hk := by
    obtain hl | ⟨-, rfl⟩ := row_append.mp hl
    · exact h.own i l k hl hk
    · cases hk
  waits i l p hl hp := by
    obtain hl | ⟨-, rfl⟩ := row_append.mp hl
    · exact h.waits i l p hl hp
    · cases hp
  distinct := h.distinct

theorem Book.Inv.fork (h : b.Inv) {i : Nat} {p : Pid} {out : Option Nat}
    (hi : i < b.links.length) (hp : ∀ d ∈ b.idents, d.reaped = false → d.pid ≠ p) :
    Book.Inv
      { execPid := p.val
        lastFork := some i
        links := b.links.set i ⟨some b.idents.length, none, some p⟩
        idents := b.idents ++ [⟨p, i, out, false⟩] } where
  noFork hn := by cases hn
  lastFork j hj := by
    obtain rfl := Option.some.inj hj
    refine ⟨_, _, _, row_set_self (List.getElem?_eq_getElem hi), rfl, row_append_last _ _, rfl, ?_⟩
    intro k' d' hk' hr he
    obtain hk' | ⟨rfl, -⟩ := row_append.mp hk'
    · exact absurd he (hp d' (List.mem_of_getElem? hk') hr)
    · rfl
  own j l k hl hk := by
    obtain ⟨rfl, rfl⟩ | ⟨-, hl⟩ := (row_set (List.getElem?_eq_getElem hi)).mp hl
    · obtain rfl := Option.some.inj hk
      exact ⟨_, row_append_last _ _, rfl, rfl, fun q hq => (Option.some.inj hq).symm⟩
    · obtain ⟨d, hd, hr⟩ := h.own j l k hl hk
      exact ⟨d, row_append_left hd, hr⟩
  waits j l q hl hq := by
    obtain ⟨rfl, rfl⟩ | ⟨-, hl⟩ := (row_set (List.getElem?_eq_getElem hi)).mp hl
    · exact ⟨_, rfl, rfl⟩
    · exact h.waits j l q hl hq
  distinct k k' d d' hk hk' hr hr' he := by
    obtain hk | ⟨rfl, rfl⟩ := row_append.mp hk <;> obtain hk' | ⟨rfl, rfl⟩ := row_append.mp hk'
    · exact h.distinct k k' d d' hk hk' hr hr' he
    · exact absurd he (hp d (List.mem_of_getElem? hk) hr)
    · exact absurd he.symm (hp d' (List.mem_of_getElem? hk') hr')
    · rfl

/-- The child that waitpid returns is the caller's own: by `distinct` no other
unreaped child has the pid it waits for. -/
theorem Book.Inv.waits_own (h : b.Inv) {i k : Nat} {l : Link} {d : Ident}
    (hl : b.links[i]? = some l) (hw : l.waits = some d.pid) (hd : b.idents[k]? = some d)
    (hr : d.reaped = false) : l.child = some k ∧ d.owner = i := by
  obtain ⟨k₀, hk₀, hlr⟩ := h.waits i l d.pid hl hw
  obtain ⟨d₀, hd₀, ho, hr₀, hp⟩ := h.own i l k₀ hl hk₀
  obtain rfl := h.distinct k₀ k d₀ d hd₀ hd (hr₀.trans hlr) hr (hp d.pid hw).symm
  rw [hd] at hd₀
  obtain rfl := Option.some.inj hd₀
  exact ⟨hk₀, ho⟩

theorem Book.Inv.reap (h : b.Inv) {i k : Nat} {l : Link} {d : Ident} {st : WaitStatus}
    (hl : b.links[i]? = some l) (hw : l.waits = some d.pid) (hd : b.idents[k]? = some d)
    (hr : d.reaped = false) :
    Book.Inv
      { b with
        links := b.links.set i ⟨l.child, some st, none⟩
        idents := b.idents.set k { d with reaped := st.terminated } } := by
  obtain ⟨hk, ho⟩ := h.waits_own hl hw hd hr
  -- a row of the new table comes from a row with the same pid and at most as unreaped
  have hrow : ∀ (k' : Nat) (d' : Ident),
      (b.idents.set k { d with reaped := st.terminated })[k']? = some d' →
      d'.reaped = false → ∃ d₀, b.idents[k']? = some d₀ ∧ d₀.pid = d'.pid ∧ d₀.reaped = false := by
    intro k' d' hk' hr'
    obtain ⟨rfl, rfl⟩ | ⟨-, hk'⟩ := (row_set hd).mp hk'
    · exact ⟨d, hd, rfl, hr⟩
    · exact ⟨d', hk', rfl, hr'⟩
  refine ⟨h.noFork, ?_, ?_, ?_, ?_⟩
  · intro j hj
    obtain ⟨l', k', d', hl', hk', hd', hp, hu⟩ := h.lastFork j hj
    have huniq : ∀ (k'' : Nat) (d'' : Ident),
        (b.idents.set k { d with reaped := st.terminated })[k'']? = some d'' →
        d''.reaped = false → d''.pid = d'.pid → k'' = k' := by
      intro k'' d'' hd'' hr'' he
      obtain ⟨d₀, hd₀, hp₀, hr₀⟩ := hrow k'' d'' hd'' hr''
      exact hu k'' d₀ hd₀ hr₀ (hp₀.trans he)
    by_cases hij : j = i
    · subst hij
      rw [hl] at hl'
      obtain rfl := Option.some.inj hl'
      rw [hk] at hk'
      obtain rfl := Option.some.inj hk'
      rw [hd] at hd'
      obtain rfl := Option.some.inj hd'
      exact ⟨_, k, _, row_set_self hl, hk, row_set_self hd, hp, huniq⟩
    · have hkk : k' ≠ k := by
        rintro rfl
        obtain ⟨d'', hd'', ho', -⟩ := h.own j l' k' hl' hk'
        rw [hd] at hd''
        obtain rfl := Option.some.inj hd''
        exact hij (ho'.symm.trans ho)
      exact ⟨l', k', d', (row_set hl).mpr (.inr ⟨hij, hl'⟩), hk',
        (row_set hd).mpr (.inr ⟨hkk, hd'⟩), hp, huniq⟩
  · intro j l' k' hl' hk'
    obtain ⟨rfl, rfl⟩ | ⟨hij, hl'⟩ := (row_set hl).mp hl'
    · obtain rfl : k = k' := Option.some.inj (hk.symm.trans hk')
      exact ⟨_, row_set_self hd, ho, rfl, fun p hp => by cases hp⟩
    · obtain ⟨d', hd', ho', hr', hp'⟩ := h.own j l' k' hl' hk'
      have hkk : k' ≠ k := by
        rintro rfl
        rw [hd] at hd'
        obtain rfl := Option.some.inj hd'
        exact hij (ho'.symm.trans ho)
      exact ⟨d', (row_set hd).mpr (.inr ⟨hkk, hd'⟩), ho', hr', hp'⟩
  · intro j l' p hl' hp
    obtain ⟨rfl, rfl⟩ | ⟨-, hl'⟩ := (row_set hl).mp hl'
    · cases hp
    · exact h.waits j l' p hl' hp
  · intro k₁ k₂ d₁ d₂ h₁ h₂ r₁ r₂ he
    obtain ⟨e₁, he₁, hp₁, hr₁⟩ := hrow k₁ d₁ h₁ r₁
    obtain ⟨e₂, he₂, hp₂, hr₂⟩ := hrow k₂ d₂ h₂ r₂
    exact h.distinct k₁ k₂ e₁ e₂ he₁ he₂ hr₁ hr₂ ((hp₁.trans he).trans hp₂.symm)

theorem Book.Step.inv {b' : Book} (hs : Book.Step b b') (h : b.Inv) : b'.Inv := by
  cases hs with
  | reset => exact h.reset
  | spawn => exact h.spawn
  | fork i p out hi hp => exact h.fork hi hp
  | reap i k l d st hl hw hd hr => exact h.reap hl hw hd hr

theorem book_inv_init : (book init).Inv where
  noFork _ := rfl
  lastFork i hi := by cases hi
  own i l k hl := by simp [book, init] at hl
  waits i l p hl := by simp [book, init] at hl
  distinct k k' d d' hd := by simp [book, init] at hd

theorem book_inv_step {cap : Nat} (s : State) (l : Label) (t : State) (h : (book s).Inv)
    (hs : step cap s l = some t) : (book t).Inv := by
  obtain he | hb := step_book hs
  · exact he ▸ h
  · exact hb.inv h

/-! The kill itself. -/

/-- The pid of a kill is that of a child this Process has forked and not yet reaped. -/
def KillsOwnChild (s : State) (l : Label) (_ : State) : Prop :=
  l = .sketch .kill → ∃ c ∈ s.children, c.reaped = false ∧ (c.pid.val : Int) = s.execPid

/-- The kill comes after a fork with no begin() since, and before the waitpid of the
executor that forked last has returned the end of its child. -/
def BetweenForkAndWait (s : State) (l : Label) (_ : State) : Prop :=
  l = .sketch .kill → ∃ i x, s.ghost.lastFork = some i ∧ s.executors[i]? = some x ∧
    x.link.reaped = false

/-- For every pipe capacity and every interleaving: the kills all hit an own,
unreaped child exactly when each of them comes between fork and wait. -/
theorem kills_own_child_iff (cap : Nat) (ls : List Label) :
    Along (step cap) KillsOwnChild ls init ↔ Along (step cap) BetweenForkAndWait ls init := by
  refine along_iff (I := fun s => (book s).Inv) ?_ book_inv_init
    (along_of_forall (fun _ _ _ => trivial) ls init)
  intro s l t h hs _
  refine ⟨book_inv_step s l t h hs, imp_congr_right fun _ => ⟨?_, ?_⟩⟩
  · rintro ⟨c, hc, hr, hp⟩
    obtain ⟨k', hk'⟩ := List.getElem?_of_mem hc
    have hk'' : (book s).idents[k']? = some c.ident := by simp [book, hk']
    cases hf : s.ghost.lastFork with
    | none =>
      have hneg : s.execPid = -1 := h.noFork hf
      have hpos := c.pid.property
      omega
    | some i =>
      obtain ⟨l, k, d, hl, hk, hd, hpid, hu⟩ := h.lastFork i hf
      have hpd : c.pid.val = d.pid.val := by
        have hpid' : s.execPid = d.pid.val := hpid
        exact_mod_cast hp.trans hpid'
      obtain rfl := hu k' c.ident hk'' hr (Subtype.ext hpd)
      rw [hk''] at hd
      obtain rfl := Option.some.inj hd
      obtain ⟨d', hd', -, hr', -⟩ := h.own i l k' hl hk
      rw [hk''] at hd'
      obtain rfl := Option.some.inj hd'
      obtain ⟨x, hx, rfl⟩ : ∃ x, s.executors[i]? = some x ∧ x.link = l := by
        simpa [book] using hl
      exact ⟨i, x, rfl, hx, hr'.symm.trans hr⟩
  · rintro ⟨i, x, hf, hx, hr⟩
    obtain ⟨l, k, d, hl, hk, hd, hpid, -⟩ := h.lastFork i hf
    obtain ⟨d', hd', -, hr', -⟩ := h.own i l k hl hk
    rw [hd] at hd'
    obtain rfl := Option.some.inj hd'
    obtain rfl : x.link = l := by simpa [book, hx] using hl
    obtain ⟨c, hc, rfl⟩ : ∃ c, s.children[k]? = some c ∧ c.ident = d := by
      simpa [book] using hd
    exact ⟨c, List.mem_of_getElem? hc, hr'.trans hr, hpid.symm⟩

/-- begin, runAsynchronously, and close before the new thread has forked: the pid is
the -1 that begin stored, and kill(-1) reaches every process. -/
theorem kill_before_fork :
    ¬ ∀ cap ls, Along (step cap) KillsOwnChild ls init := by
  intro h
  have hk := h 65536 [.sketch (.begin "sh"), .sketch .reset, .sketch (.runAsynchronously true),
    .sketch .assign, .sketch .close, .sketch .kill]
  revert hk
  simp [Along, step, sketchStep, enterClose, Rest.pc, beginBody, runAsynchronously, init,
    KillsOwnChild]

end RasPiArduino.Process
