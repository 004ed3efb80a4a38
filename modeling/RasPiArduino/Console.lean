import RasPiArduino.Idemonitor

/-! The console on standard input (piconsole.c), and LinuxConsole, which reads from it and
from the IDE monitor. `none` is an access outside `console_rx_buffer`. -/
namespace RasPiArduino
open RasPiArduino.Shift

/-- `stdin` holds the bytes that wait on standard input, which stays open. -/
structure Piconsole where
  rxBuffer : List UInt8
  rxBufferIndex : Int
  threadRunning : Bool
  stdin : List UInt8
  deriving DecidableEq, Repr

namespace Piconsole

def rxSize : Nat := 1024

def initial : Piconsole := ⟨List.replicate rxSize 0, 0, false, []⟩

def begin (c : Piconsole) : Piconsole := { c with threadRunning := true }

def stop (c : Piconsole) : Piconsole := { c with threadRunning := false }

def rxEmpty (c : Piconsole) : Bool := c.stdin.isEmpty

/-- console_rx(): Ctrl+C counts as SIGINT, whose handler ends the console. -/
def rx (c : Piconsole) : UInt8 × Piconsole :=
  let ch := c.stdin.headD 0
  let c := { c with stdin := c.stdin.tail }
  (ch, if ch = 3 then c.stop else c)

def store (buf : List UInt8) : Int → UInt8 → Option (List UInt8)
  | .ofNat i, ch => if i < buf.length then some (buf.set i ch) else none
  | .negSucc _, _ => none

def run (c : Piconsole) : Option Piconsole :=
  if c.threadRunning && !c.rxEmpty && c.rxBufferIndex < 1024 then
    let (ch, c) := c.rx
    (store c.rxBuffer c.rxBufferIndex ch).map fun buf =>
      { c with rxBuffer := buf, rxBufferIndex := c.rxBufferIndex + 1 }
  else some c

def read (c : Piconsole) : Option (UInt8 × Piconsole) := do
  let data ← c.rxBuffer[0]?
  let buf ← shiftDown 1 (c.rxBufferIndex - 1).toNat c.rxBuffer
  some (data, { c with rxBuffer := buf, rxBufferIndex := c.rxBufferIndex - 1 })

def peek (c : Piconsole) : Option UInt8 := c.rxBuffer[0]?

def available (c : Piconsole) : Int := c.rxBufferIndex

/-! What the buffer holds, and what each operation does to that. -/

structure Ok (c : Piconsole) : Prop where
  length : c.rxBuffer.length = rxSize
  nonneg : 0 ≤ c.rxBufferIndex
  le : c.rxBufferIndex ≤ rxSize

def content (c : Piconsole) : List UInt8 := c.rxBuffer.take c.rxBufferIndex.toNat

variable {c : Piconsole}

theorem initial_ok : initial.Ok := ⟨List.length_replicate, by decide, by decide⟩

theorem Ok.length_content (h : c.Ok) : (c.content.length : Int) = c.rxBufferIndex := by
  have hlen := h.length
  have h₁ := h.nonneg
  have h₂ := h.le
  rw [content, List.length_take]
  omega

theorem Ok.available_pos_iff (h : c.Ok) : 0 < c.available ↔ c.content ≠ [] := by
  have hlen := h.length_content
  rw [← List.length_pos_iff, available]
  omega

theorem rx_cons {ch : UInt8} {cs : List UInt8} (h : c.stdin = ch :: cs) :
    c.rx.1 = ch ∧ c.rx.2.rxBuffer = c.rxBuffer ∧ c.rx.2.rxBufferIndex = c.rxBufferIndex ∧
      c.rx.2.stdin = cs := by
  simp only [rx, h, List.headD_cons, List.tail_cons]
  split <;> simp [stop]

/-- console_run() moves a byte from standard input to the back of the buffer, if there is
one and room for it. -/
theorem Ok.run (h : c.Ok) : ∃ c', c.run = some c' ∧ c'.Ok ∧
    c'.content ++ c'.stdin = c.content ++ c.stdin ∧ (c.rxBufferIndex = rxSize → c' = c) := by
  have hlen := h.length
  have h₁ := h.nonneg
  have h₂ := h.le
  unfold Piconsole.run
  split
  · next hrun =>
    obtain ⟨⟨-, hne⟩, hlt⟩ := by simpa only [Bool.and_eq_true, decide_eq_true_eq] using hrun
    obtain ⟨ch, cs, hstdin⟩ : ∃ ch cs, c.stdin = ch :: cs := by
      cases hs : c.stdin with
      | nil => simp [rxEmpty, hs] at hne
      | cons ch cs => exact ⟨ch, cs, rfl⟩
    obtain ⟨i, hi⟩ : ∃ i : Nat, c.rxBufferIndex = i := ⟨_, (Int.toNat_of_nonneg h₁).symm⟩
    have hilt : i < c.rxBuffer.length := by rw [hlen, rxSize]; omega
    obtain ⟨e₁, e₂, e₃, e₄⟩ := rx_cons hstdin
    rw [hi] at e₃
    have hstore : store c.rxBuffer i ch = some (c.rxBuffer.set i ch) := if_pos hilt
    refine ⟨_, by dsimp only; rw [e₁, e₂, e₃, hstore]; rfl, ⟨?_, ?_, ?_⟩, ?_, ?_⟩
    · simp [hlen]
    · dsimp only
      omega
    · simp only [rxSize]
      omega
    · have htake : (c.rxBuffer.set i ch).take (i + 1) = c.rxBuffer.take i ++ [ch] := by
        rw [List.take_add_one, List.take_set_of_le (Nat.le_refl _), List.getElem?_set_self hilt]
        rfl
      have hnat : ((i : Int) + 1).toNat = i + 1 := by omega
      simp only [content, hnat, htake, e₄, hi, Int.toNat_natCast, hstdin, List.append_assoc]
      rfl
    · intro hfull
      rw [hfull] at hlt
      exact absurd hlt (by decide)
  · exact ⟨c, rfl, h, rfl, fun _ => rfl⟩

theorem Ok.read_cons (h : c.Ok) {d : UInt8} {ds : List UInt8} (hc : c.content = d :: ds) :
    ∃ c', c.read = some (d, c') ∧ c'.Ok ∧ c'.content = ds ∧ c'.stdin = c.stdin := by
  have hlen := h.length
  have h₂ := h.le
  obtain ⟨i, hi⟩ : ∃ i : Nat, c.rxBufferIndex = i := ⟨_, (Int.toNat_of_nonneg h.nonneg).symm⟩
  have hi1 : i = ds.length + 1 := by
    have hl := h.length_content
    rw [hc, hi, List.length_cons] at hl
    omega
  have hfirst : c.rxBuffer[0]? = some d := by
    have hget : c.content[0]? = some d := by rw [hc]; rfl
    rwa [content, List.getElem?_take_of_lt (by omega)] at hget
  have hnat : (c.rxBufferIndex - 1).toNat = i - 1 := by omega
  obtain ⟨buf, hbuf⟩ : ∃ buf, shiftDown 1 (i - 1) c.rxBuffer = some buf :=
    shiftDown_some_iff.mpr (by simp only [rxSize] at hlen h₂; omega)
  refine ⟨{ c with rxBuffer := buf, rxBufferIndex := c.rxBufferIndex - 1 },
    by rw [read, hfirst, hnat, hbuf]; rfl, ⟨?_, ?_, ?_⟩, ?_, rfl⟩
  · exact (shiftDown_spec hbuf).1.trans hlen
  · dsimp only
    omega
  · dsimp only
    omega
  · have htake := take_shiftDown hbuf (Nat.le_refl _)
    rw [Nat.sub_add_cancel (by omega)] at htake
    have hold : c.rxBuffer.take i = d :: ds := by rw [← hc, content, hi]; rfl
    simp only [content, hnat, htake, hold]
    rfl

theorem Ok.read_nil (h : c.Ok) (hc : c.content = []) :
    ∃ d, c.read = some (d, { c with rxBufferIndex := -1 }) := by
  have hlen := h.length
  have h0 : c.rxBufferIndex = 0 := by rw [← h.length_content, hc]; rfl
  obtain ⟨d, hd⟩ : ∃ d, c.rxBuffer[0]? = some d :=
    ⟨_, List.getElem?_eq_getElem (by simp only [hlen, rxSize]; omega)⟩
  exact ⟨d, by rw [read, hd, h0]; rfl⟩

theorem Ok.peek_some (h : c.Ok) : ∃ d, c.peek = some d ∧ ∀ ds e, c.content = e :: ds → d = e := by
  have hlen := h.length
  obtain ⟨d, hd⟩ : ∃ d, c.rxBuffer[0]? = some d :=
    ⟨_, List.getElem?_eq_getElem (by simp only [hlen, rxSize]; omega)⟩
  refine ⟨d, hd, fun ds e hc => ?_⟩
  obtain ⟨i, hi⟩ : ∃ i : Nat, c.rxBufferIndex.toNat = i := ⟨_, rfl⟩
  have hget : c.content[0]? = some e := by rw [hc]; rfl
  cases i with
  | zero => simp [content, hi] at hc
  | succ i =>
    rw [content, hi, List.getElem?_take_of_lt (by omega), hd] at hget
    exact Option.some.inj hget

end Piconsole

structure LinuxConsole where
  monitor : Idemonitor
  con : Piconsole
  deriving DecidableEq, Repr

namespace LinuxConsole

def available (c : LinuxConsole) : Int := c.monitor.available + c.con.available

def fromMonitor (c : LinuxConsole) : Bool := c.monitor.connected && c.monitor.available ≠ 0

def peek (c : LinuxConsole) : Option Int :=
  if c.fromMonitor then c.monitor.peek
  else c.con.peek |>.map fun d => (d.toNat : Int)

def read (c : LinuxConsole) : Option (Int × LinuxConsole) :=
  if c.fromMonitor then c.monitor.readChar |>.map fun (d, m) => (d, { c with monitor := m })
  else c.con.read |>.map fun (d, p) => ((d.toNat : Int), { c with con := p })

/-- fflush(stdin) leaves what console_run() has picked up. -/
def flush (c : LinuxConsole) : LinuxConsole := { c with monitor := c.monitor.flush }

inductive Event where
  | stdin (bytes : List UInt8)
  | consoleRun
  | monitorRun (acc : Int) (addr : Nat) (waiting : List UInt8) (closed : Bool)
  | consoleBegin
  | consoleEnd
  | available
  | peek
  | read
  | flush
  deriving DecidableEq, Repr

/-- The console, with all bytes that came on standard input and all that read() returned. -/
structure Session where
  console : LinuxConsole
  arrived : List UInt8
  given : List UInt8
  deriving DecidableEq, Repr

def start (bound : Bool) : Session := ⟨⟨.begin bound, .initial⟩, [], []⟩

def withCon (s : Session) (c : Piconsole) : Session := { s with console.con := c }

def exec (s : Session) : Event → Option (Int × Session)
  | .stdin bytes => some (0,
      { withCon s { s.console.con with stdin := s.console.con.stdin ++ bytes } with
        arrived := s.arrived ++ bytes })
  | .consoleRun => s.console.con.run |>.map fun c => (0, withCon s c)
  | .monitorRun acc addr waiting closed =>
    some (0, { s with console.monitor := (s.console.monitor.run acc addr waiting closed).2 })
  | .consoleBegin => some (0, withCon s s.console.con.begin)
  | .consoleEnd => some (0, withCon s s.console.con.stop)
  | .available => some (s.console.available, s)
  | .peek => s.console.peek |>.map fun d => (d, s)
  | .read => s.console.read |>.map fun (d, c) =>
    (d, { s with console := c, given := s.given ++ if d < 0 then [] else [UInt8.ofNat d.toNat] })
  | .flush => some (0, { s with console := s.console.flush })

structure Ok (c : LinuxConsole) : Prop where
  monitor : c.monitor.Ok
  con : c.con.Ok

theorem start_ok (bound : Bool) : Ok (start bound).console :=
  ⟨Idemonitor.begin_ok bound, Piconsole.initial_ok⟩

end LinuxConsole
end RasPiArduino
