import RasPiArduino.MonitorFifo
import RasPiArduino.Transition

/-! The connections that idemonitor_run accepts: with whom the monitor speaks, and which
descriptors it keeps open. -/
namespace RasPiArduino.Idemonitor
open RasPiArduino.Transition

/-- The calls that idemonitor_run makes; accept with the descriptor and the s_addr that it
gives. close is in the list for what it would do. -/
inductive SysCall where
  | accept (conn : Option (Nat × Nat))
  | shutdown (fd : Int)
  | recv (fd : Int)
  | close (fd : Int)
  deriving DecidableEq, Repr

def result : Option (Nat × Nat) → Int
  | some (fd, _) => fd
  | none => -1

def address : Option (Nat × Nat) → Nat
  | some (_, addr) => addr
  | none => 0

def calls (m : Idemonitor) (conn : Option (Nat × Nat)) (waiting : List UInt8) (closed : Bool) :
    List SysCall :=
  if !m.serverRunning then []
  else if m.clientSocket < 0 then
    .accept conn :: if 0 < result conn ∧ address conn ≠ localhost then [.shutdown (result conn)]
      else []
  else
    -- the source tests `c`, the length of the address, which is never 0
    .accept conn :: .shutdown (result conn) ::
      let space := rxLen - m.rxFill
      if space = 0 then []
      else .recv m.clientSocket ::
        if waiting.take space = [] ∧ closed then [.shutdown m.clientSocket] else []

def write (m : Idemonitor) (data : List UInt8) (sent : Int) : Int × Option (Int × List UInt8) :=
  if !m.serverRunning ∨ m.clientSocket < 0 then (0, none) else (sent, some (m.clientSocket, data))

/-- The monitor, the accepted descriptors that are open with the addresses of their peers, and
what was received from and sent to which address. -/
structure Peers where
  monitor : Idemonitor
  accepted : List (Int × Nat)
  received : List (Option Nat × UInt8)
  sent : List (Option Nat × List UInt8)
  deriving DecidableEq, Repr

def Peers.start (bound : Bool) : Peers := ⟨begin bound, [], [], []⟩

/-- shutdown() leaves a descriptor open, close() does not. -/
def SysCall.effect (accepted : List (Int × Nat)) : SysCall → List (Int × Nat)
  | .accept (some (fd, addr)) => (fd, addr) :: accepted
  | .accept none | .shutdown _ | .recv _ => accepted
  | .close fd => accepted.filter fun p => p.1 ≠ fd

def Peers.peer (w : Peers) (fd : Int) : Option Nat := w.accepted.lookup fd

inductive Event where
  | run (conn : Option (Nat × Nat)) (waiting : List UInt8) (closed : Bool)
  | write (data : List UInt8) (sent : Int)
  | read (len : Nat)
  | readChar
  | flush
  deriving DecidableEq, Repr

def Peers.Fresh (w : Peers) (conn : Option (Nat × Nat)) : Prop :=
  conn = none ∨ result conn ∉ w.accepted.map Prod.fst

instance (w : Peers) (conn : Option (Nat × Nat)) : Decidable (w.Fresh conn) :=
  inferInstanceAs (Decidable (_ ∨ _))

def Peers.step (w : Peers) : Event → Option Peers
  | .run conn waiting closed =>
    if w.Fresh conn then
      let (bytes, m) := w.monitor.run (result conn) (address conn) waiting closed
      some { w with
        monitor := m
        accepted := (w.monitor.calls conn waiting closed).foldl SysCall.effect w.accepted
        received := w.received ++ bytes.map fun c => (w.peer w.monitor.clientSocket, c) }
    else none
  | .write data sent => match (w.monitor.write data sent).2 with
    | some (fd, data) => some { w with sent := w.sent ++ [(w.peer fd, data)] }
    | none => some w
  | .read len => (w.monitor.read len).map fun r => { w with monitor := r.2.2 }
  | .readChar => w.monitor.readChar.map fun r => { w with monitor := r.2 }
  | .flush => some { w with monitor := w.monitor.flush }

/-- Every byte came from 127.0.0.1 and went there, and so will the next ones. -/
structure Peers.Loopback (w : Peers) : Prop where
  client : 0 ≤ w.monitor.clientSocket → w.peer w.monitor.clientSocket = some localhost
  received : ∀ b ∈ w.received, b.1 = some localhost
  sent : ∀ b ∈ w.sent, b.1 = some localhost

/-- accept does not return 0 for another peer while a client is looked for. -/
def Peers.TestsPeer (w : Peers) : Event → Prop
  | .run conn _ _ => w.monitor.serverRunning = true → w.monitor.clientSocket < 0 →
    result conn = 0 → address conn = localhost
  | _ => True

/-- No accepted descriptor is open but that of the client. -/
def Peers.OnlyClient (w : Peers) : Prop := ∀ p ∈ w.accepted, p.1 = w.monitor.clientSocket

/-- Nothing is dropped: no connection that becomes no client is accepted, and the client is
not found to have gone. -/
def Peers.DropsNone (w : Peers) : Event → Prop
  | .run conn waiting closed => w.monitor.serverRunning = true →
    if w.monitor.clientSocket < 0 then
      conn = none ∨ result conn = 0 ∨ address conn = localhost
    else conn = none ∧ ¬ (w.monitor.rxFill < rxLen ∧ waiting = [] ∧ closed = true)
  | _ => True

variable {m : Idemonitor} {w z : Peers} {e : Event} {conn : Option (Nat × Nat)}
  {waiting : List UInt8} {closed : Bool}

theorem calls_effect (m : Idemonitor) (conn : Option (Nat × Nat)) (waiting : List UInt8)
    (closed : Bool) (accepted : List (Int × Nat)) :
    (m.calls conn waiting closed).foldl SysCall.effect accepted =
      if m.serverRunning then SysCall.effect accepted (.accept conn) else accepted := by
  unfold calls
  cases m.serverRunning with
  | false => rfl
  | true =>
    dsimp only [Bool.not_true]
    split
    · contradiction
    · split
      · split <;> rfl
      · split
        · rfl
        · split <;> rfl

theorem run_stopped (h : m.serverRunning = false) (acc : Int) (addr : Nat) (waiting : List UInt8)
    (closed : Bool) : m.run acc addr waiting closed = ([], m) := by
  rw [Idemonitor.run, h]
  rfl

theorem run_alone (h : m.serverRunning = true) (hc : m.clientSocket < 0) (acc : Int) (addr : Nat)
    (waiting : List UInt8) (closed : Bool) : m.run acc addr waiting closed =
      ([], { m with clientSocket := if 0 < acc ∧ addr ≠ localhost then -1 else acc }) := by
  rw [Idemonitor.run, h, if_neg (by simp), if_pos hc]

theorem run_attended (h : m.serverRunning = true) (hc : ¬ m.clientSocket < 0) (acc : Int)
    (addr : Nat) (waiting : List UInt8) (closed : Bool) :
    (m.run acc addr waiting closed).2.clientSocket =
      if m.rxFill < rxLen ∧ waiting = [] ∧ closed = true then -1 else m.clientSocket := by
  rw [Idemonitor.run, h, if_neg (by simp), if_neg hc]
  dsimp only
  by_cases hspace : m.rxFill < rxLen
  · rw [if_neg (by omega)]
    cases waiting with
    | nil => cases closed <;> simp [hspace]
    | cons c cs =>
      obtain ⟨n, hn⟩ : ∃ n, rxLen - m.rxFill = n + 1 := ⟨rxLen - m.rxFill - 1, by omega⟩
      simp [hn]
  · rw [if_pos (by omega), if_neg (by simp [hspace])]

theorem read_client {len : Nat} {r : Nat × List UInt8 × Idemonitor} (h : m.read len = some r) :
    r.2.2.clientSocket = m.clientSocket ∧ r.2.2.serverRunning = m.serverRunning := by
  rw [read_eq] at h
  obtain ⟨rx, -, rfl⟩ := Option.map_eq_some_iff.mp h
  exact ⟨rfl, rfl⟩

theorem readChar_client {r : Int × Idemonitor} (h : m.readChar = some r) :
    r.2.clientSocket = m.clientSocket ∧ r.2.serverRunning = m.serverRunning := by
  rw [readChar] at h
  split at h
  · obtain rfl := Option.some.inj h
    exact ⟨rfl, rfl⟩
  · obtain ⟨c, -, h⟩ := Option.bind_eq_some_iff.mp h
    obtain ⟨rx, -, h⟩ := Option.bind_eq_some_iff.mp h
    obtain rfl := Option.some.inj h
    exact ⟨rfl, rfl⟩

namespace Peers

theorem step_run (h : w.step (.run conn waiting closed) = some z) : w.Fresh conn ∧ z = { w with
    monitor := (w.monitor.run (result conn) (address conn) waiting closed).2
    accepted := if w.monitor.serverRunning then SysCall.effect w.accepted (.accept conn)
      else w.accepted
    received := w.received ++ (w.monitor.run (result conn) (address conn) waiting closed).1.map
      fun c => (w.peer w.monitor.clientSocket, c) } := by
  rw [step] at h
  split at h
  · next hfresh =>
    rw [calls_effect] at h
    exact ⟨hfresh, (Option.some.inj h).symm⟩
  · cases h

theorem step_other (h : w.step e = some z)
    (he : ∀ conn waiting closed, e ≠ .run conn waiting closed) :
    z.monitor.clientSocket = w.monitor.clientSocket ∧ z.accepted = w.accepted ∧
      z.received = w.received ∧ (z.sent = w.sent ∨ 0 ≤ w.monitor.clientSocket ∧
        ∃ data, z.sent = w.sent ++ [(w.peer w.monitor.clientSocket, data)]) := by
  cases e with
  | run conn waiting closed => exact absurd rfl (he conn waiting closed)
  | write data sent =>
    rw [step, write] at h
    by_cases hc : !w.monitor.serverRunning ∨ w.monitor.clientSocket < 0
    · rw [if_pos hc] at h
      obtain rfl := Option.some.inj h
      exact ⟨rfl, rfl, rfl, .inl rfl⟩
    · rw [if_neg hc] at h
      obtain rfl := Option.some.inj h
      exact ⟨rfl, rfl, rfl, .inr ⟨by omega, data, rfl⟩⟩
  | read len =>
    obtain ⟨r, hr, rfl⟩ := Option.map_eq_some_iff.mp h
    exact ⟨(read_client hr).1, rfl, rfl, .inl rfl⟩
  | readChar =>
    obtain ⟨r, hr, rfl⟩ := Option.map_eq_some_iff.mp h
    exact ⟨(readChar_client hr).1, rfl, rfl, .inl rfl⟩
  | flush =>
    obtain rfl := Option.some.inj h
    exact ⟨rfl, rfl, rfl, .inl rfl⟩

theorem mem_of_peer {fd : Int} {addr : Nat} (h : w.peer fd = some addr) :
    (fd, addr) ∈ w.accepted := by
  obtain ⟨l₁, l₂, hl, -⟩ := List.lookup_eq_some_iff.mp h
  rw [hl]
  exact List.mem_append_right _ List.mem_cons_self

theorem lookup_effect (h : w.Fresh conn) {fd : Int} {addr : Nat} (hp : w.peer fd = some addr) :
    (SysCall.effect w.accepted (.accept conn)).lookup fd = some addr := by
  cases conn with
  | none => exact hp
  | some c =>
    have hne : fd ≠ c.1 := by
      intro hfd
      apply h.elim (by simp)
      intro hnot
      exact hnot (List.mem_map.mpr ⟨_, mem_of_peer hp, hfd⟩)
    rw [SysCall.effect, List.lookup_cons, beq_false_of_ne hne]
    exact hp

theorem start_loopback (bound : Bool) : (start bound).Loopback :=
  ⟨fun h => absurd h (by simp [start, begin]), by simp [start], by simp [start]⟩

/-- In a call without a client the new one is from 127.0.0.1 exactly if it passes the test, or
would. -/
theorem loopback_alone (h : w.Loopback) (hs : w.monitor.serverRunning = true)
    (hc : w.monitor.clientSocket < 0) (hz : w.step (.run conn waiting closed) = some z) :
    z.Loopback ↔ (result conn = 0 → address conn = localhost) := by
  obtain ⟨-, rfl⟩ := step_run hz
  rw [run_alone hs hc, if_pos hs, List.map_nil, List.append_nil]
  have hcond (m : Idemonitor) (accepted : List (Int × Nat)) :
      Loopback { w with monitor := m, accepted := accepted } ↔
        (0 ≤ m.clientSocket → accepted.lookup m.clientSocket = some localhost) :=
    ⟨fun h => h.client, fun hcl => ⟨hcl, h.received, h.sent⟩⟩
  rw [hcond]
  cases conn with
  | none => exact iff_of_true (fun h => absurd h (by simp [result])) (by simp [result])
  | some c =>
    obtain ⟨fd, addr⟩ := c
    by_cases haddr : addr = localhost
    · subst haddr
      exact iff_of_true (fun _ => by simp [result, address, SysCall.effect]) fun _ => rfl
    · simp only [result, address, SysCall.effect, haddr]
      by_cases hfd : fd = 0
      · simp [hfd, haddr]
      · simp [hfd, haddr, Nat.pos_of_ne_zero hfd]

theorem loopback_step (h : w.Loopback) (hz : w.step e = some z) : z.Loopback ↔ w.TestsPeer e := by
  cases e with
  | run conn waiting closed =>
    cases hs : w.monitor.serverRunning with
    | false =>
      obtain ⟨-, rfl⟩ := step_run hz
      rw [run_stopped hs, hs, List.map_nil, List.append_nil]
      apply iff_of_true h
      exact fun ht => absurd (hs.symm.trans ht) (by simp)
    | true =>
      by_cases hc : w.monitor.clientSocket < 0
      · rw [loopback_alone h hs hc hz]
        exact ⟨fun hp _ _ => hp, fun hp => hp hs hc⟩
      · apply iff_of_true _ fun _ hc' => absurd hc' hc
        obtain ⟨hfresh, rfl⟩ := step_run hz
        have hpeer := h.client (by omega)
        rw [if_pos hs]
        refine ⟨fun hnew => ?_, ?_, h.sent⟩
        · dsimp only [peer] at hnew ⊢
          rw [run_attended hs hc] at hnew ⊢
          split at hnew
          · contradiction
          · next hstay =>
            rw [if_neg hstay]
            exact lookup_effect hfresh hpeer
        · intro b hb
          cases List.mem_append.mp hb with
          | inl hb => exact h.received b hb
          | inr hb =>
            obtain ⟨c, -, rfl⟩ := List.mem_map.mp hb
            exact hpeer
  | write | read | readChar | flush =>
    obtain ⟨hcl, hacc, hrec, hsent⟩ := step_other hz (by simp)
    apply iff_of_true _ trivial
    refine ⟨fun hnew => ?_, hrec ▸ h.received, ?_⟩
    · rw [hcl] at hnew ⊢
      rw [peer, hacc]
      exact h.client hnew
    · cases hsent with
      | inl hsent => exact hsent ▸ h.sent
      | inr hsent =>
        obtain ⟨hopen, data, hsent⟩ := hsent
        intro b hb
        rw [hsent] at hb
        cases List.mem_append.mp hb with
        | inl hb => exact h.sent b hb
        | inr hb =>
          rw [List.mem_singleton.mp hb]
          exact h.client hopen

/-- Along every run the monitor speaks with 127.0.0.1 alone exactly if accept never gives it
the descriptor 0 for another peer. -/
theorem loopback_iff (bound : Bool) (events : List Event) :
    Along step (fun _ _ z => z.Loopback) events (start bound) ↔
      Along step (fun w e _ => w.TestsPeer e) events (start bound) := by
  have hstep : ∀ w e z, Loopback w → w.step e = some z → (z.Loopback ↔ w.TestsPeer e) :=
    fun _ _ _ h hz => loopback_step h hz
  exact along_invariant_iff hstep (start_loopback bound)

/-- stdin is closed, and 10.0.0.1 connects. -/
theorem foreign_client : ¬ ∀ bound events,
    Along step (fun _ _ z => z.Loopback) events (start bound) := by
  intro h
  have h₁ := (along_cons_of_step rfl).mp (h true [.run (some (0, 16777226)) [] false])
  exact absurd (h₁.1.client (by decide)) (by decide)

/-- The open descriptors are that of the client, if there is one. -/
structure Tight (w : Peers) : Prop where
  only : w.OnlyClient
  opened : 0 ≤ w.monitor.clientSocket → w.monitor.clientSocket ∈ w.accepted.map Prod.fst
  nonneg : ∀ p ∈ w.accepted, 0 ≤ p.1

theorem start_tight (bound : Bool) : (start bound).Tight :=
  ⟨by simp [OnlyClient, start], fun h => absurd h (by simp [start, begin]), by simp [start]⟩

theorem Tight.alone (h : w.Tight) (hc : w.monitor.clientSocket < 0) : w.accepted = [] := by
  apply List.eq_nil_iff_forall_not_mem.mpr
  intro p hp
  have honly := h.only p hp
  have hpos := h.nonneg p hp
  omega

theorem tight_alone (h : w.Tight) (hs : w.monitor.serverRunning = true)
    (hc : w.monitor.clientSocket < 0) (hz : w.step (.run conn waiting closed) = some z) :
    (z.OnlyClient ↔ conn = none ∨ result conn = 0 ∨ address conn = localhost) ∧
      (z.OnlyClient → z.Tight) := by
  obtain ⟨-, rfl⟩ := step_run hz
  rw [run_alone hs hc, if_pos hs, h.alone hc]
  cases conn with
  | none =>
    have hnone : OnlyClient { w with
        monitor := { w.monitor with clientSocket := -1 }, accepted := [] } := by
      simp [OnlyClient]
    refine ⟨iff_of_true hnone (.inl rfl), fun _ => ⟨hnone, fun h => ?_, ?_⟩⟩
    · simp [result] at h
    · simp [SysCall.effect]
  | some c =>
    obtain ⟨fd, addr⟩ := c
    simp only [OnlyClient, SysCall.effect, result, address, List.mem_singleton, forall_eq,
      reduceCtorEq, false_or]
    constructor
    · by_cases hfd : fd = 0
      · simp [hfd]
      · by_cases haddr : addr = localhost
        · simp [haddr]
        · simp [hfd, haddr, Nat.pos_of_ne_zero hfd]
    · intro honly
      refine ⟨by simpa [OnlyClient] using honly, fun _ => ?_, by simp⟩
      rw [← honly]
      simp

theorem tight_attended (h : w.Tight) (hs : w.monitor.serverRunning = true)
    (hc : ¬ w.monitor.clientSocket < 0) (hz : w.step (.run conn waiting closed) = some z) :
    (z.OnlyClient ↔ conn = none ∧
      ¬ (w.monitor.rxFill < rxLen ∧ waiting = [] ∧ closed = true)) ∧
      (z.OnlyClient → z.Tight) := by
  obtain ⟨hfresh, rfl⟩ := step_run hz
  obtain ⟨p, hp, hpc⟩ := List.mem_map.mp (h.opened (by omega))
  have hclient := run_attended hs hc (result conn) (address conn) waiting closed
  rw [if_pos hs]
  cases conn with
  | none =>
    by_cases hgone : w.monitor.rxFill < rxLen ∧ waiting = [] ∧ closed = true
    · rw [if_pos hgone] at hclient
      have hnot (recv : List (Option Nat × UInt8)) : ¬ OnlyClient { w with
          monitor := (w.monitor.run (result none) (address none) waiting closed).2
          accepted := SysCall.effect w.accepted (.accept none)
          received := recv } := by
        intro honly
        have hpz := honly p hp
        rw [hclient] at hpz
        have hpos := h.nonneg p hp
        omega
      exact ⟨iff_of_false (hnot _) (by simp [hgone]), fun honly => absurd honly (hnot _)⟩
    · rw [if_neg hgone] at hclient
      have htight (recv : List (Option Nat × UInt8)) : Tight { w with
          monitor := (w.monitor.run (result none) (address none) waiting closed).2
          accepted := SysCall.effect w.accepted (.accept none)
          received := recv } := by
        refine ⟨fun q hq => ?_, fun hpos => ?_, h.nonneg⟩
        · exact (h.only q hq).trans hclient.symm
        · dsimp only at hpos ⊢
          rw [hclient] at hpos ⊢
          exact h.opened hpos
      exact ⟨iff_of_true (htight _).only ⟨rfl, hgone⟩, fun _ => htight _⟩
  | some c =>
    have hnot (m : Idemonitor) (recv : List (Option Nat × UInt8)) : ¬ OnlyClient { w with
        monitor := m, accepted := SysCall.effect w.accepted (.accept (some c)),
        received := recv } := by
      intro honly
      have hnew := honly _ List.mem_cons_self
      have hold := honly p (List.mem_cons_of_mem _ hp)
      apply hfresh.elim (by simp)
      intro hfresh
      exact hfresh (List.mem_map.mpr ⟨p, hp, hold.trans hnew.symm⟩)
    exact ⟨iff_of_false (hnot _ _) (by simp), fun honly => absurd honly (hnot _ _)⟩

theorem tight_step (h : w.Tight) (hz : w.step e = some z) :
    (z.OnlyClient ↔ w.DropsNone e) ∧ (w.DropsNone e → z.Tight) := by
  cases e with
  | run conn waiting closed =>
    cases hs : w.monitor.serverRunning with
    | false =>
      obtain ⟨-, rfl⟩ := step_run hz
      rw [run_stopped hs, hs, List.map_nil, List.append_nil]
      exact ⟨iff_of_true h.only fun ht => by simp [hs] at ht, fun _ => h⟩
    | true =>
      by_cases hc : w.monitor.clientSocket < 0
      · obtain ⟨hiff, htight⟩ := tight_alone h hs hc hz
        simp only [DropsNone, hs, hc, if_true, true_implies]
        exact ⟨hiff, fun hd => htight (hiff.mpr hd)⟩
      · obtain ⟨hiff, htight⟩ := tight_attended h hs hc hz
        simp only [DropsNone, hs, hc, if_false, true_implies]
        exact ⟨hiff, fun hd => htight (hiff.mpr hd)⟩
  | write | read | readChar | flush =>
    obtain ⟨hcl, hacc, -, -⟩ := step_other hz (by simp)
    have htight : z.Tight := by
      refine ⟨?_, ?_, ?_⟩
      · rw [OnlyClient, hacc, hcl]
        exact h.only
      · rw [hacc, hcl]
        exact h.opened
      · rw [hacc]
        exact h.nonneg
    exact ⟨iff_of_true htight.only trivial, fun _ => htight⟩

/-- Along every run no accepted descriptor stays open but the client's exactly if none of the
calls has one to drop. -/
theorem only_client_iff (bound : Bool) (events : List Event) :
    Along step (fun _ _ z => z.OnlyClient) events (start bound) ↔
      Along step (fun w e _ => w.DropsNone e) events (start bound) := by
  have hstep : ∀ w e z, Tight w → w.step e = some z →
      (z.OnlyClient ↔ w.DropsNone e) ∧ (w.DropsNone e → z.Tight) :=
    fun _ _ _ h hz => tight_step h hz
  exact along_iff_of_keeps hstep (start_tight bound)

/-- The client goes, and its descriptor stays. -/
theorem descriptor_leaks : ¬ ∀ bound events,
    Along step (fun _ _ z => z.OnlyClient) events (start bound) := by
  intro h
  have h₀ := h true [.run (some (5, localhost)) [] false, .run none [] true]
  have h₁ := (along_cons_of_step rfl).mp h₀
  have h₂ := (along_cons_of_step rfl).mp h₁.2
  exact absurd (h₂.1 (5, localhost) (by decide)) (by decide)

end Peers
end RasPiArduino.Idemonitor
