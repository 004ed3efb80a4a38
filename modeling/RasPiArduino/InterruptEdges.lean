import RasPiArduino.Interrupts
import RasPiArduino.Machine

/-! Which handlers the polls start, over whole runs on the pins 0 to 30. -/
namespace RasPiArduino.Isr
open RasPiArduino.Machine

/-- What is promised for an attached pin: its handler, its mode and the level that the next
poll compares with. -/
structure Watch where
  fn : Nat
  mode : Mode
  level : Bool
  deriving DecidableEq, Repr

structure Session where
  isr : State
  levels : Levels
  watches : List (Option Watch)
  deriving DecidableEq, Repr

inductive Op where
  | attach (pin : Fin 31) (fn : Nat) (mode : Mode)
  | detach (pin : Fin 31)
  | levels (l : Levels)
  | poll
  deriving DecidableEq, Repr

def start (l : Levels) : Session := ⟨initial, l, List.replicate 31 none⟩

def level (l : Levels) (pin : Nat) : Bool := l.gplev0.getLsbD pin

def relevel (l : Levels) (ws : List (Option Watch)) : List (Option Watch) :=
  ws.mapIdx fun pin w => w.map fun w => { w with level := level l pin }

def exec (s : Session) : Op → Option (List Nat × Session)
  | .attach pin fn mode => some ([], { s with
      isr := (attachInterrupt s.isr s.levels pin fn mode.code).2
      watches := s.watches.set pin (some ⟨fn, mode, level s.levels pin⟩) })
  | .detach pin => some ([], { s with
      isr := detachInterrupt s.isr pin
      watches := s.watches.set pin none })
  | .levels l => some ([], { s with levels := l })
  | .poll =>
    if s.isr.reg = 0 then some ([], s)
    else some ((poll s.isr s.levels).1, { s with
      isr := (poll s.isr s.levels).2
      watches := relevel s.levels s.watches })

def Mode.wants : Mode → Bool → Bool
  | .rising, b => b
  | .falling, b => !b
  | .change, _ => true

/-- The handler of the pin is to be started now. -/
def Due (s : Session) (pin : Nat) : Prop := ∃ w, s.watches[pin]? = some (some w) ∧ w.fn ≠ 0 ∧
  level s.levels pin ≠ w.level ∧ w.mode.wants (level s.levels pin) = true

/-- A poll starts the handlers that are due, each once, and no other call starts any. -/
def EdgeStep (s : Session) (o : Op) (r : List Nat) (_ : Session) : Prop :=
  r.Nodup ∧ (o = .poll → ∀ pin, pin ∈ r ↔ Due s pin) ∧ (o ≠ .poll → r = [])

/-- No pin is attached at low level while `_pin_isr_last` has its bit from an earlier time. -/
def FreshAttach (s : Session) : Op → Prop
  | .attach pin _ _ => s.isr.last.getLsbD pin = true → level s.levels pin = true
  | _ => True

instance (s : Session) : DecidablePred (FreshAttach s)
  | .attach _ _ _ => inferInstanceAs (Decidable (_ = true → _ = true))
  | .detach _ | .levels _ | .poll => isTrue trivial

/-- The words of the program agree with what is promised. -/
structure Agrees (s : Session) : Prop where
  handlers : s.isr.handlers.length = 64
  watches : s.watches.length = 31
  reg : ∀ j, s.isr.reg.getLsbD j = true ↔ ∃ w, s.watches[j]? = some (some w)
  handler : ∀ (j : Nat) w, s.watches[j]? = some (some w) →
    s.isr.handlers[j]? = some ⟨UInt8.ofInt w.mode.code, w.fn⟩
  cleared : ∀ j : Nat, s.watches[j]? = some none → s.isr.handlers[j]? = some ⟨0, 0⟩
  last : ∀ (j : Nat) w, s.watches[j]? = some (some w) → s.isr.last.getLsbD j = w.level
  high : ∀ j, 31 ≤ j → s.isr.last.getLsbD j = false

variable {s : Session}

theorem start_agrees (l : Levels) : Agrees (start l) := by
  have hrep (j : Nat) : (start l).watches[j]? = if j < 31 then some none else none :=
    List.getElem?_replicate
  have hnone (j : Nat) (w : Watch) : (start l).watches[j]? ≠ some (some w) := by
    rw [hrep]
    split <;> simp
  refine ⟨rfl, rfl, fun j => ⟨fun h => ?_, fun ⟨w, h⟩ => absurd h (hnone j w)⟩,
    fun j w h => absurd h (hnone j w), fun j h => ?_, fun j w h => absurd h (hnone j w),
    fun j _ => BitVec.getLsbD_zero⟩
  · exact absurd (h.symm.trans BitVec.getLsbD_zero) (by decide)
  · rw [hrep] at h
    split at h
    · next hj => exact List.getElem?_replicate_of_lt (by omega)
    · cases h

theorem Agrees.watch_lt (h : Agrees s) {j : Nat} {w : Option Watch} (hw : s.watches[j]? = some w) :
    j < 31 := by
  have hlt := (List.getElem?_eq_some_iff.mp hw).1
  rwa [h.watches] at hlt

theorem Agrees.reg_high (h : Agrees s) {j : Nat} (hj : 31 ≤ j) : s.isr.reg.getLsbD j = false := by
  rw [Bool.eq_false_iff]
  intro hr
  obtain ⟨w, hw⟩ := (h.reg j).mp hr
  exact absurd (h.watch_lt hw) (by omega)

theorem Agrees.sample_state (h : Agrees s) (j : Nat) :
    (sample s.isr s.levels).1.getLsbD j = (level s.levels j && s.isr.reg.getLsbD j) := by
  rw [Isr.sample_state]
  by_cases hj : j < 31
  · rw [pinLevel, if_pos (by omega), level]
  · rw [h.reg_high (by omega), Bool.and_false, Bool.and_false]

theorem Agrees.changed_iff (h : Agrees s) {j : Nat} {w : Watch}
    (hw : s.watches[j]? = some (some w)) :
    (sample s.isr s.levels).2.getLsbD j = true ↔ level s.levels j ≠ w.level := by
  have hj := h.watch_lt hw
  rw [sample_changed, h.sample_state, (h.reg j).mpr ⟨w, hw⟩, h.last j w hw]
  cases level s.levels j <;> cases w.level <;> simp <;> omega

theorem Mode.ofInt_code (m : Mode) : UInt8.ofInt m.code = match m with
    | .rising => 2
    | .falling => 1
    | .change => 3 := by
  cases m <;> rfl

theorem due_iff {h : Handler} {state : BitVec 64} {i : Nat} (hi : i < 31) {m : Mode} {fn : Nat}
    (hh : h = ⟨UInt8.ofInt m.code, fn⟩) :
    due h state i = true ↔ fn ≠ 0 ∧ m.wants (state.getLsbD i) = true := by
  subst hh
  have hz := and_widen_bv_eq_zero_iff (x := state) hi
  cases hb : state.getLsbD i with
  | true =>
    rw [due, if_neg (by rw [hz, hb]; simp), Mode.ofInt_code]
    cases m <;> simp [Mode.wants]
  | false =>
    rw [due, if_pos (hz.mpr hb), Mode.ofInt_code]
    cases m <;> simp [Mode.wants]

/-- The handlers that a poll starts are those that are due. -/
theorem Agrees.mem_poll_iff (h : Agrees s) (j : Nat) :
    j ∈ (poll s.isr s.levels).1 ↔ Due s j := by
  rw [mem_poll]
  cases hw : s.watches[j]? with
  | none =>
    have hj : 31 ≤ j := by rw [← h.watches]; exact List.getElem?_eq_none_iff.mp hw
    have hc : (sample s.isr s.levels).2.getLsbD j = false := by
      rw [sample_changed, h.sample_state, h.reg_high hj, h.high j hj]
      simp
    simp [Due, hw, hc]
  | some o =>
    have hj := h.watch_lt hw
    cases o with
    | none =>
      have hh : s.isr.handlers.getD j ⟨0, 0⟩ = ⟨0, 0⟩ := by
        rw [List.getD_eq_getElem?_getD, h.cleared j hw]
        rfl
      rw [hh]
      simp [Due, hw, due]
    | some w =>
      have hh : s.isr.handlers.getD j ⟨0, 0⟩ = ⟨UInt8.ofInt w.mode.code, w.fn⟩ := by
        rw [List.getD_eq_getElem?_getD, h.handler j w hw]
        rfl
      rw [h.changed_iff hw, due_iff hj hh, h.sample_state, (h.reg j).mpr ⟨w, hw⟩, Bool.and_true]
      constructor
      · rintro ⟨-, hne, hfn, hwants⟩
        exact ⟨w, hw, hfn, hne, hwants⟩
      · rintro ⟨w', hw', hfn, hne, hwants⟩
        obtain rfl : w = w' := by simpa [hw] using hw'
        exact ⟨by omega, hne, hfn, hwants⟩

theorem nodup_poll (s : State) (l : Levels) : (poll s l).1.Nodup := by
  simp only [poll]
  split
  · exact List.nodup_range.filter _
  · exact List.nodup_nil

theorem Agrees.last_poll (h : Agrees s) (j : Nat) : (poll s.isr s.levels).2.last.getLsbD j =
    if j < 32 then (sample s.isr s.levels).1.getLsbD j else false := by
  simp only [poll]
  split
  · simp only [dispatch]
    split
    · rfl
    · rw [h.sample_state, h.reg_high (by omega), Bool.and_false]
  · next hc =>
    rw [not_not] at hc
    have hj := sample_changed s.isr s.levels j
    rw [hc] at hj
    split
    · next hlt =>
      rw [show (0 : BitVec 32).getLsbD j = false from BitVec.getLsbD_zero, decide_eq_true hlt,
        Bool.true_and] at hj
      exact (bne_eq_false_iff_eq.mp hj.symm).symm
    · exact h.high j (by omega)

theorem poll_reg (s : State) (l : Levels) : (poll s l).2.reg = s.reg := by
  simp only [poll]
  split <;> rfl

theorem poll_handlers (s : State) (l : Levels) : (poll s l).2.handlers = s.handlers := by
  simp only [poll]
  split <;> rfl

theorem getElem?_relevel (l : Levels) (ws : List (Option Watch)) (j : Nat) :
    (relevel l ws)[j]? = ws[j]?.map fun w => w.map fun w => { w with level := level l j } :=
  List.getElem?_mapIdx

theorem Agrees.poll (h : Agrees s) : Agrees { s with
    isr := (poll s.isr s.levels).2
    watches := relevel s.levels s.watches } := by
  have hsome (j : Nat) (w : Watch) (hw : (relevel s.levels s.watches)[j]? = some (some w)) :
      ∃ w', s.watches[j]? = some (some w') ∧ w = { w' with level := level s.levels j } := by
    rw [getElem?_relevel] at hw
    obtain ⟨o, ho, he⟩ := Option.map_eq_some_iff.mp hw
    obtain ⟨w', rfl, rfl⟩ := Option.map_eq_some_iff.mp he
    exact ⟨w', ho, rfl⟩
  refine ⟨?_, ?_, fun j => ⟨fun hr => ?_, fun ⟨w, hw⟩ => ?_⟩, fun j w hw => ?_, fun j hw => ?_,
    fun j w hw => ?_, fun j hj => ?_⟩
  · simpa only [poll_handlers] using h.handlers
  · simpa only [relevel, List.length_mapIdx] using h.watches
  · obtain ⟨w, hw⟩ := (h.reg j).mp (by simpa only [poll_reg] using hr)
    exact ⟨{ w with level := level s.levels j }, by simp only [getElem?_relevel, hw]; rfl⟩
  · obtain ⟨w', hw', -⟩ := hsome j w hw
    simpa only [poll_reg] using (h.reg j).mpr ⟨w', hw'⟩
  · obtain ⟨w', hw', rfl⟩ := hsome j w hw
    simpa only [poll_handlers] using h.handler j w' hw'
  · rw [getElem?_relevel] at hw
    obtain ⟨o, ho, he⟩ := Option.map_eq_some_iff.mp hw
    rw [Option.map_eq_none_iff.mp he] at ho
    simpa only [poll_handlers] using h.cleared j ho
  · obtain ⟨w', hw', rfl⟩ := hsome j w hw
    have hj := h.watch_lt hw'
    rw [h.last_poll, if_pos (by omega), h.sample_state, (h.reg j).mpr ⟨w', hw'⟩, Bool.and_true]
  · rw [h.last_poll, h.sample_state, h.reg_high hj, Bool.and_false, ite_self]

theorem Agrees.watch_set (h : Agrees s) (pin : Fin 31) (w : Option Watch) (j : Nat) :
    (s.watches.set pin w)[j]? = if pin.val = j then some w else s.watches[j]? := by
  have hpin := pin.isLt
  rw [List.getElem?_set, h.watches, if_pos hpin]

theorem Agrees.handler_set (h : Agrees s) (pin : Fin 31) (a : Handler) (j : Nat) :
    (s.isr.handlers.set pin a)[j]? = if pin.val = j then some a else s.isr.handlers[j]? := by
  have hpin : pin.val < 64 := Nat.lt_trans pin.isLt (by decide)
  rw [List.getElem?_set, h.handlers, if_pos hpin]

/-- Attaching a pin whose remembered bit is not stale makes its level the one to compare with. -/
theorem Agrees.attach (h : Agrees s) (pin : Fin 31) (fn : Nat) (mode : Mode)
    (hfresh : FreshAttach s (.attach pin fn mode)) : Agrees { s with
      isr := (attachInterrupt s.isr s.levels pin fn mode.code).2
      watches := s.watches.set pin (some ⟨fn, mode, level s.levels pin⟩) } := by
  have hpin := pin.isLt
  have hwatch := h.watch_set pin (some ⟨fn, mode, level s.levels pin⟩)
  have hhandler := h.handler_set pin ⟨UInt8.ofInt mode.code, fn⟩
  have hlast (j : Nat) : (s.isr.last ||| widen (digitalRead s.levels pin <<< pin.val)).getLsbD j =
      (s.isr.last.getLsbD j || (decide (j = pin) && level s.levels pin)) := by
    rw [BitVec.getLsbD_or, getLsbD_widen_level s.levels hpin]
    rfl
  simp only [attachInterrupt, show pin.val < 46 by omega, if_true]
  refine ⟨?_, ?_, fun j => ?_, fun j w hw => ?_, fun j hw => ?_, fun j w hw => ?_, fun j hj => ?_⟩
  · rw [List.length_set, h.handlers]
  · rw [List.length_set, h.watches]
  · rw [BitVec.getLsbD_or, getLsbD_widen_bv hpin, hwatch]
    by_cases hj : pin = j
    · simp [hj]
    · simp [hj, Ne.symm hj, h.reg j]
  · rw [hwatch] at hw
    rw [hhandler]
    split at hw
    · next hj =>
      obtain rfl : _ = w := Option.some.inj (Option.some.inj hw)
      rw [if_pos hj]
    · next hj => rw [if_neg hj, h.handler j w hw]
  · rw [hwatch] at hw
    split at hw
    · cases hw
    · next hj => rw [hhandler, if_neg hj, h.cleared j hw]
  · rw [hwatch] at hw
    rw [hlast]
    split at hw
    · next hj =>
      obtain rfl : _ = w := Option.some.inj (Option.some.inj hw)
      subst hj
      simp only [FreshAttach] at hfresh
      simpa using hfresh
    · next hj => simp [Ne.symm hj, h.last j w hw]
  · rw [hlast, h.high j hj]
    simp
    omega

theorem Agrees.detach (h : Agrees s) (pin : Fin 31) : Agrees { s with
    isr := detachInterrupt s.isr pin
    watches := s.watches.set pin none } := by
  have hpin := pin.isLt
  have hwatch := h.watch_set pin none
  have hhandler := h.handler_set pin ⟨0, 0⟩
  have hother {j : Nat} {w : Watch} (hw : (s.watches.set pin none)[j]? = some (some w)) :
      pin.val ≠ j ∧ s.watches[j]? = some (some w) := by
    rw [hwatch] at hw
    split at hw
    · cases hw
    · next hj => exact ⟨hj, hw⟩
  simp only [detachInterrupt, show pin.val < 46 by omega, if_true]
  refine ⟨?_, ?_, fun j => ?_, fun j w hw => ?_, fun j hw => ?_, fun j w hw => ?_, h.high⟩
  · rw [List.length_set, h.handlers]
  · rw [List.length_set, h.watches]
  · rw [BitVec.getLsbD_and, getLsbD_widen_not_bv hpin, hwatch]
    by_cases hj : pin = j
    · simp [hj]
    · by_cases h64 : j < 64
      · rw [decide_eq_true h64, decide_eq_true (Ne.symm hj), if_neg hj, ← h.reg j]
        simp
      · simp [hj, h64, ← h.reg j, h.reg_high (show 31 ≤ j by omega)]
  · obtain ⟨hj, hw⟩ := hother hw
    rw [hhandler, if_neg hj, h.handler j w hw]
  · rw [hwatch] at hw
    rw [hhandler]
    split at hw
    · next hj => rw [if_pos hj]
    · next hj => rw [if_neg hj, h.cleared j hw]
  · exact h.last j w (hother hw).2

theorem Agrees.unregistered (h : Agrees s) (hr : s.isr.reg = 0) (pin : Nat) : ¬ Due s pin := by
  rintro ⟨w, hw, -⟩
  have hbit := (h.reg pin).mpr ⟨w, hw⟩
  simp [hr] at hbit

theorem edgeStep_of_ne_poll {o : Op} {t : Session} (ho : o ≠ .poll) : EdgeStep s o [] t :=
  ⟨List.nodup_nil, fun h => absurd h ho, fun _ => rfl⟩

theorem Agrees.exec (h : Agrees s) (o : Op) (hfresh : FreshAttach s o) :
    ∃ r t, exec s o = some (r, t) ∧ EdgeStep s o r t ∧ Agrees t := by
  cases o with
  | attach pin fn mode =>
    exact ⟨_, _, rfl, edgeStep_of_ne_poll (by simp), h.attach pin fn mode hfresh⟩
  | detach pin => exact ⟨_, _, rfl, edgeStep_of_ne_poll (by simp), h.detach pin⟩
  | levels l =>
    exact ⟨_, _, rfl, edgeStep_of_ne_poll (by simp),
      ⟨h.handlers, h.watches, h.reg, h.handler, h.cleared, h.last, h.high⟩⟩
  | poll =>
    by_cases hr : s.isr.reg = 0
    · refine ⟨[], s, by rw [Isr.exec, if_pos hr],
        ⟨List.nodup_nil, fun _ pin => ?_, fun _ => rfl⟩, h⟩
      simp [h.unregistered hr pin]
    · exact ⟨_, _, by rw [Isr.exec, if_neg hr],
        ⟨nodup_poll _ _, fun _ => h.mem_poll_iff, fun ho => absurd rfl ho⟩, h.poll⟩

/-- While no pin is attached over a stale bit, each poll starts exactly the handlers whose
pins left the levels they are compared with in the direction of their modes. -/
theorem fresh_attaches_dispatch_edges (l : Levels) (ops : List Op)
    (h : While exec FreshAttach ops (start l)) : Keeps exec EdgeStep ops (start l) :=
  keeps_of_while (fun _ o hs hc => hs.exec o hc) (start_agrees l) h

theorem fresh_attaches_dispatch_edges_rising :
    Keeps exec EdgeStep [.attach 4 1 .rising, .levels ⟨16, 0⟩, .poll] (start ⟨0, 0⟩) :=
  fresh_attaches_dispatch_edges ⟨0, 0⟩ _ (by decide)

/-- Pin 5 is detached at high level and attached again at low level: its handler starts
although the level stays low. -/
theorem stale_attach_dispatches : ¬ ∀ l ops, Keeps exec EdgeStep ops (start l) := by
  intro h
  have h₀ := h ⟨32, 0⟩ [.attach 5 7 .change, .detach 5, .levels ⟨0, 0⟩, .attach 5 7 .change, .poll]
  obtain ⟨r₁, s₁, e₁, -, h₁⟩ := keeps_cons.mp h₀
  cases e₁
  obtain ⟨r₂, s₂, e₂, -, h₂⟩ := keeps_cons.mp h₁
  cases e₂
  obtain ⟨r₃, s₃, e₃, -, h₃⟩ := keeps_cons.mp h₂
  cases e₃
  obtain ⟨r₄, s₄, e₄, -, h₄⟩ := keeps_cons.mp h₃
  cases e₄
  obtain ⟨r₅, s₅, e₅, ⟨-, hp, -⟩, -⟩ := keeps_cons.mp h₄
  cases e₅
  obtain ⟨w, hw, -, hne, -⟩ := (hp rfl 5).mp (by decide)
  cases hw
  exact hne (by decide)

end RasPiArduino.Isr
