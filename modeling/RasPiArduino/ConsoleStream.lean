import RasPiArduino.Console
import RasPiArduino.Machine

/-! LinuxConsole as a stream on standard input, while no IDE monitor is attached. -/
namespace RasPiArduino.LinuxConsole
open RasPiArduino.Machine

/-- No connection is accepted, so that no monitor gets attached. -/
def Event.Unattached : Event → Prop
  | .monitorRun acc _ _ _ => acc < 0
  | _ => True

instance : DecidablePred Event.Unattached
  | .monitorRun acc _ _ _ => inferInstanceAs (Decidable (acc < 0))
  | .stdin _ | .consoleRun | .consoleBegin | .consoleEnd | .available | .peek | .read | .flush =>
    isTrue trivial

def Event.Asks (e : Event) : Prop := e = .read ∨ e = .peek

instance : DecidablePred Event.Asks := fun e => inferInstanceAs (Decidable (e = _ ∨ e = _))

/-- The contract of the stream: what came on standard input is what was read, what is
buffered and what still waits, in this order; -1 says that nothing is available. -/
structure StreamStep (s : Session) (e : Event) (r : Int) (t : Session) : Prop where
  index : 0 ≤ t.console.con.rxBufferIndex ∧ t.console.con.rxBufferIndex ≤ 1024
  order : t.arrived = t.given ++ t.console.con.content ++ t.console.con.stdin
  available : t.console.available = t.console.con.content.length
  eof : e.Asks → (r = -1 ↔ s.console.available = 0)
  next : e.Asks → ∀ d ds, s.console.con.content = d :: ds → r = d.toNat
  full : e = .consoleRun → s.console.con.rxBufferIndex = 1024 → t.console.con = s.console.con

/-- Nothing asks for a byte when there is none. -/
def Waits (s : Session) (e : Event) : Prop := e.Asks → s.console.available ≠ 0

instance (s : Session) (e : Event) : Decidable (Waits s e) :=
  inferInstanceAs (Decidable (_ → _))

structure Stream (s : Session) : Prop where
  ok : Ok s.console
  client : s.console.monitor.clientSocket < 0
  fill : s.console.monitor.rxFill = 0
  order : s.arrived = s.given ++ s.console.con.content ++ s.console.con.stdin

variable {s t : Session}

theorem start_stream (bound : Bool) : Stream (start bound) :=
  ⟨start_ok bound, (by decide : (-1 : Int) < 0), rfl, rfl⟩

theorem Stream.available (h : Stream s) :
    s.console.available = s.console.con.content.length := by
  rw [LinuxConsole.available, Idemonitor.available, h.fill, h.ok.con.length_content]
  exact Int.zero_add _

theorem Stream.fromMonitor (h : Stream s) : s.console.fromMonitor = false := by
  simp [LinuxConsole.fromMonitor, Idemonitor.available, h.fill]

theorem Stream.kept (h : Stream t) {e : Event} {r : Int} (heof : e.Asks →
      (r = -1 ↔ s.console.available = 0) ∧
        ∀ d ds, s.console.con.content = d :: ds → r = d.toNat)
    (hfull : e = .consoleRun → s.console.con.rxBufferIndex = 1024 →
      t.console.con = s.console.con) : StreamStep s e r t :=
  ⟨⟨h.ok.con.nonneg, h.ok.con.le⟩, h.order, h.available, fun he => (heof he).1,
    fun he => (heof he).2, hfull⟩

theorem Stream.asked (h : Stream s) {d : UInt8} {ds : List UInt8}
    (hc : s.console.con.content = d :: ds) :
    (((d.toNat : Nat) : Int) = -1 ↔ s.console.available = 0) ∧
      ∀ d' ds', s.console.con.content = d' :: ds' → ((d.toNat : Nat) : Int) = d'.toNat := by
  refine ⟨?_, fun d' ds' hc' => by rw [hc] at hc'; rw [(List.cons.inj hc').1]⟩
  rw [h.available, hc, List.length_cons]
  omega

theorem Stream.nonempty (h : Stream s) (ha : s.console.available ≠ 0) :
    ∃ d ds, s.console.con.content = d :: ds := by
  cases hc : s.console.con.content with
  | nil => simp [h.available, hc] at ha
  | cons d ds => exact ⟨d, ds, rfl⟩

theorem Stream.step (h : Stream s) {e : Event} (hu : e.Unattached) (hw : Waits s e) :
    ∃ r t, exec s e = some (r, t) ∧ Stream t ∧ StreamStep s e r t := by
  have hquiet {e : Event} {r : Int} {t : Session} (ht : Stream t) (he : ¬ e.Asks)
      (hf : e ≠ .consoleRun) : Stream t ∧ StreamStep s e r t :=
    ⟨ht, ht.kept (fun h => absurd h he) fun h => absurd h hf⟩
  cases e with
  | stdin bytes =>
    refine ⟨_, _, rfl,
      hquiet ⟨⟨h.ok.monitor, ?_⟩, h.client, h.fill, ?_⟩ (by simp [Event.Asks]) (by simp)⟩
    · exact ⟨h.ok.con.length, h.ok.con.nonneg, h.ok.con.le⟩
    · simp only [withCon, h.order, List.append_assoc]
      rfl
  | consoleRun =>
    obtain ⟨c, hc, hok, hcont, hfull⟩ := h.ok.con.run
    have ht : Stream (withCon s c) := by
      refine ⟨⟨h.ok.monitor, hok⟩, h.client, h.fill, ?_⟩
      have horder : s.arrived = s.given ++ (c.content ++ c.stdin) := by
        rw [hcont, ← List.append_assoc, h.order]
      rw [← List.append_assoc] at horder
      exact horder
    exact ⟨_, _, by rw [exec, hc]; rfl, ht,
      ht.kept (fun he => absurd he (by decide)) fun _ hi => hfull hi⟩
  | monitorRun acc addr waiting closed =>
    obtain hr | hr := Idemonitor.run_unattached h.client hu addr waiting closed
    · refine ⟨0, s, by rw [exec, hr], hquiet h (by simp [Event.Asks]) (by simp)⟩
    · refine ⟨_, _, rfl, hquiet ⟨⟨?_, h.ok.con⟩, ?_, ?_, h.order⟩ (by simp [Event.Asks]) (by simp)⟩
      · exact (h.ok.monitor.run acc addr waiting closed).1
      · rw [hr]
        exact hu
      · rw [hr]
        exact h.fill
  | consoleBegin =>
    refine ⟨_, _, rfl, hquiet ⟨⟨h.ok.monitor, ?_⟩, h.client, h.fill, h.order⟩ (by decide) (by simp)⟩
    exact ⟨h.ok.con.length, h.ok.con.nonneg, h.ok.con.le⟩
  | consoleEnd =>
    refine ⟨_, _, rfl, hquiet ⟨⟨h.ok.monitor, ?_⟩, h.client, h.fill, h.order⟩ (by decide) (by simp)⟩
    exact ⟨h.ok.con.length, h.ok.con.nonneg, h.ok.con.le⟩
  | available => exact ⟨_, _, rfl, hquiet h (by decide) (by simp)⟩
  | peek =>
    obtain ⟨d, ds, hc⟩ := h.nonempty (hw (.inr rfl))
    obtain ⟨d', hp, hd⟩ := h.ok.con.peek_some
    obtain rfl := hd ds d hc
    refine ⟨d'.toNat, s, ?_, h, h.kept (fun _ => h.asked hc) (by simp)⟩
    simp [exec, LinuxConsole.peek, h.fromMonitor, hp]
  | read =>
    obtain ⟨d, ds, hc⟩ := h.nonempty (hw (.inl rfl))
    obtain ⟨c, hr, hok, hcont, hstdin⟩ := h.ok.con.read_cons hc
    have ht : Stream ⟨⟨s.console.monitor, c⟩, s.arrived, s.given ++ [d]⟩ := by
      refine ⟨⟨h.ok.monitor, hok⟩, h.client, h.fill, ?_⟩
      simp [h.order, hc, hcont, hstdin]
    refine ⟨d.toNat, _, ?_, ht, ht.kept (fun _ => h.asked hc) (by simp)⟩
    simp [exec, LinuxConsole.read, h.fromMonitor, hr]
  | flush =>
    refine ⟨_, _, rfl, hquiet ⟨⟨h.ok.monitor.flush.1, h.ok.con⟩, h.client, rfl, h.order⟩
      (by decide) (by simp)⟩

theorem Stream.waits (h : Stream s) {e : Event} {r : Int} (hex : exec s e = some (r, t))
    (hp : StreamStep s e r t) : Waits s e := by
  intro he ha
  have hr := (hp.eof he).mpr ha
  obtain rfl | rfl := he
  · simp only [exec, LinuxConsole.read, h.fromMonitor] at hex
    obtain ⟨⟨d, c⟩, hd, hrt⟩ := Option.map_eq_some_iff.mp hex
    obtain ⟨⟨d', c'⟩, -, hd'⟩ := Option.map_eq_some_iff.mp hd
    simp at hd' hrt
    omega
  · simp only [exec, LinuxConsole.peek, h.fromMonitor] at hex
    obtain ⟨d, hd, hrt⟩ := Option.map_eq_some_iff.mp hex
    obtain ⟨d', -, hd'⟩ := Option.map_eq_some_iff.mp hd
    simp at hrt
    omega

/-- Over every run without a monitor the contract is kept exactly if no byte is asked for
when none is available. -/
theorem console_stream_iff_waits (bound : Bool) (events : List Event)
    (hu : ∀ e ∈ events, e.Unattached) :
    Keeps exec StreamStep events (start bound) ↔ While exec Waits events (start bound) := by
  refine keeps_iff_while_of (fun s e hu h => ⟨fun hw => ?_, ?_⟩) (fun s e r t hu h hw hex => ?_) hu
    (start_stream bound)
  · obtain ⟨r, t, hex, -, hp⟩ := h.step hu hw
    exact ⟨r, t, hex, hp⟩
  · rintro ⟨r, t, hex, hp⟩
    exact h.waits hex hp
  · obtain ⟨r', t', hex', ht, -⟩ := h.step hu hw
    obtain ⟨-, rfl⟩ := Prod.mk.inj (Option.some.inj (hex.symm.trans hex'))
    exact ht

/-- Two bytes typed, the first read before the second is picked up. -/
theorem console_stream_two_bytes : Keeps exec StreamStep
    [.consoleBegin, .stdin [97, 98], .consoleRun, .available, .read, .consoleRun, .peek, .read]
    (start true) :=
  (console_stream_iff_waits true _ (by decide)).mpr (by decide +kernel)

/-- read() on an empty buffer gives a byte, and the next arrival is stored in front of the
buffer. -/
theorem console_read_of_empty : ¬ ∀ bound events, (∀ e ∈ events, e.Unattached) →
    Keeps exec StreamStep events (start bound) := by
  intro h
  obtain ⟨r₁, s₁, e₁, -, h₁⟩ := keeps_cons.mp <| h true
    [.consoleBegin, .read, .stdin [97], .consoleRun] (by decide)
  obtain ⟨r₂, s₂, e₂, -, h₂⟩ := keeps_cons.mp h₁
  obtain ⟨r₃, s₃, e₃, -, h₃⟩ := keeps_cons.mp h₂
  obtain ⟨r₄, s₄, e₄, -, -⟩ := keeps_cons.mp h₃
  cases e₁
  cases e₂
  cases e₃
  cases e₄

end RasPiArduino.LinuxConsole
