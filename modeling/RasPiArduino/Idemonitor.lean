import RasPiArduino.Ring
import RasPiArduino.Shift

/-! The IDE monitor: its client connection and its receive buffer. `none` is an access
outside `_rx_buffer`. -/
namespace RasPiArduino
open RasPiArduino.Ring RasPiArduino.Shift

structure Idemonitor where
  serverRunning : Bool
  clientSocket : Int
  rxBuffer : List UInt8
  rxFill : Nat
  deriving DecidableEq, Repr

namespace Idemonitor

def rxLen : Nat := 1024

def localhost : Nat := 16777343

def connected (m : Idemonitor) : Bool := m.serverRunning && 0 < m.clientSocket

def begin (bound : Bool) : Idemonitor := ⟨bound, -1, List.replicate rxLen 0, 0⟩

/-- idemonitor_run(): what accept returns and the address it stores, the bytes that wait in
the client's socket, and whether the client has closed it. It gives the bytes received. -/
def run (m : Idemonitor) (acc : Int) (addr : Nat) (waiting : List UInt8) (closed : Bool) :
    List UInt8 × Idemonitor :=
  if !m.serverRunning then ([], m)
  else if m.clientSocket < 0 then
    ([], { m with clientSocket := if 0 < acc ∧ addr ≠ localhost then -1 else acc })
  else
    -- a further connection is shut down; this one is read
    let space := rxLen - m.rxFill
    if space = 0 then ([], m)
    else match waiting.take space with
      | [] => ([], if closed then { m with clientSocket := -1 } else m)
      | c :: cs =>
        let rx := overwrite m.rxBuffer m.rxFill (c :: cs)
        let fill := m.rxFill + (c :: cs).length
        (c :: cs, { m with
          rxBuffer := if fill < rxLen then rx.set fill 0 else rx
          rxFill := fill })

def available (m : Idemonitor) : Nat := m.rxFill

def readLoop (len : Nat) : Nat → Idemonitor → Option (List UInt8 × Idemonitor)
  | 0, m => some ([], m)
  | i+1, m => do
    let (buf, m) ← readLoop len i m
    let c ← m.rxBuffer[i]?
    let d ← m.rxBuffer[i+len]?
    some (buf ++ [c], { m with rxBuffer := m.rxBuffer.set i d, rxFill := m.rxFill - 1 })

def read (m : Idemonitor) (len : Nat) : Option (Nat × List UInt8 × Idemonitor) :=
  let len := if len > m.rxFill then m.rxFill else len
  (readLoop len len m).map fun (buf, m) => (len, buf, m)

def readChar (m : Idemonitor) : Option (Int × Idemonitor) :=
  if m.rxFill = 0 then some (-1, m)
  else do
    let r ← m.rxBuffer[0]?
    let rx ← shiftDown 1 (m.rxFill - 1) m.rxBuffer
    some (r.toNat, { m with rxBuffer := rx, rxFill := m.rxFill - 1 })

def peek (m : Idemonitor) : Option Int :=
  if m.rxFill = 0 then some (-1) else (m.rxBuffer[0]?).map fun c => (c.toNat : Int)

def flush (m : Idemonitor) : Idemonitor := { m with rxFill := 0 }

/-! What the buffer holds, and what each operation does to that. -/

structure Ok (m : Idemonitor) : Prop where
  length : m.rxBuffer.length = rxLen
  fill_le : m.rxFill ≤ rxLen

def content (m : Idemonitor) : List UInt8 := m.rxBuffer.take m.rxFill

variable {m : Idemonitor}

theorem begin_ok (bound : Bool) : (begin bound).Ok := ⟨List.length_replicate, Nat.zero_le _⟩

theorem Ok.length_content (h : m.Ok) : m.content.length = m.rxFill := by
  rw [content, List.length_take, h.length]
  exact Nat.min_eq_left h.fill_le

theorem Ok.fill_eq_zero_iff (h : m.Ok) : m.rxFill = 0 ↔ m.content = [] := by
  rw [← List.length_eq_zero_iff, h.length_content]

/-- What is received joins the back; connecting and disconnecting leave the buffer alone. -/
theorem Ok.run (h : m.Ok) (acc : Int) (addr : Nat) (waiting : List UInt8) (closed : Bool) :
    (m.run acc addr waiting closed).2.Ok ∧
      (m.run acc addr waiting closed).2.content =
        m.content ++ (m.run acc addr waiting closed).1 := by
  have hlen := h.length
  have hfill := h.fill_le
  unfold Idemonitor.run
  split
  · exact ⟨h, by simp⟩
  · split
    · exact ⟨⟨hlen, hfill⟩, by simp [content]⟩
    · dsimp only
      split
      · exact ⟨h, by simp⟩
      · next hspace =>
        split
        · refine ⟨?_, ?_⟩ <;> split
          · exact ⟨hlen, hfill⟩
          · exact h
          · simp [content]
          · simp
        · next c cs heq =>
          obtain ⟨bytes, hb⟩ : ∃ bytes, bytes = c :: cs := ⟨_, rfl⟩
          have hbytes : m.rxFill + bytes.length ≤ rxLen := by
            have hl := congrArg List.length heq
            rw [List.length_take, ← hb] at hl
            omega
          have hover : (overwrite m.rxBuffer m.rxFill bytes).length = rxLen := by
            rw [length_overwrite (by omega), hlen]
          have htake : (overwrite m.rxBuffer m.rxFill bytes).take (m.rxFill + bytes.length) =
              m.content ++ bytes := by
            rw [overwrite, List.take_left' (by simp; omega)]
            rfl
          simp only [← hb]
          refine ⟨⟨?_, hbytes⟩, ?_⟩
          · dsimp only
            split
            · rw [List.length_set, hover]
            · exact hover
          · simp only [content] at htake ⊢
            split
            · rw [List.take_set_of_le (Nat.le_refl _), htake]
            · exact htake

theorem run_unattached (hc : m.clientSocket < 0) {acc : Int} (hacc : acc < 0) (addr : Nat)
    (waiting : List UInt8) (closed : Bool) : m.run acc addr waiting closed = ([], m) ∨
      m.run acc addr waiting closed = ([], { m with clientSocket := acc }) := by
  have hpos : ¬ 0 < acc := by omega
  cases hs : m.serverRunning <;> simp [Idemonitor.run, hs, hc, hpos]

theorem Ok.first (h : m.Ok) {c : UInt8} {cs : List UInt8} (hc : m.content = c :: cs) :
    m.rxFill = cs.length + 1 ∧ m.rxBuffer[0]? = some c := by
  have hlen := h.length_content
  have hget : m.content[0]? = some c := by rw [hc]; rfl
  rw [hc, List.length_cons] at hlen
  rw [content, List.getElem?_take_of_lt (by omega)] at hget
  exact ⟨hlen.symm, hget⟩

theorem Ok.readChar_nil (h : m.Ok) (hc : m.content = []) : m.readChar = some (-1, m) := by
  rw [readChar, if_pos (h.fill_eq_zero_iff.mpr hc)]

theorem Ok.readChar_cons (h : m.Ok) {c : UInt8} {cs : List UInt8} (hc : m.content = c :: cs) :
    ∃ m', m.readChar = some ((c.toNat : Int), m') ∧ m'.Ok ∧ m'.content = cs ∧
      m'.clientSocket = m.clientSocket ∧ m'.serverRunning = m.serverRunning := by
  obtain ⟨hfill, hfirst⟩ := h.first hc
  have hlen := h.length
  have hle := h.fill_le
  obtain ⟨rx, hrx⟩ : ∃ rx, shiftDown 1 (m.rxFill - 1) m.rxBuffer = some rx :=
    shiftDown_some_iff.mpr (by omega)
  refine ⟨{ m with rxBuffer := rx, rxFill := m.rxFill - 1 }, ?_, ⟨?_, ?_⟩, ?_, rfl, rfl⟩
  · rw [readChar, if_neg (by omega), hfirst, hrx]
    rfl
  · exact (shiftDown_spec hrx).1.trans hlen
  · dsimp only
    omega
  · have htake := take_shiftDown hrx (Nat.le_refl _)
    rw [Nat.sub_add_cancel (by omega)] at htake
    rw [content, htake, ← content, hc]
    rfl

theorem Ok.peek_nil (h : m.Ok) (hc : m.content = []) : m.peek = some (-1) := by
  rw [peek, if_pos (h.fill_eq_zero_iff.mpr hc)]

theorem Ok.peek_cons (h : m.Ok) {c : UInt8} {cs : List UInt8} (hc : m.content = c :: cs) :
    m.peek = some (c.toNat : Int) := by
  obtain ⟨hfill, hfirst⟩ := h.first hc
  rw [peek, if_neg (by omega), hfirst]
  rfl

theorem Ok.flush (h : m.Ok) : m.flush.Ok ∧ m.flush.content = [] :=
  ⟨⟨h.length, Nat.zero_le _⟩, by simp [content, Idemonitor.flush]⟩

/-- The loop copies out before it overwrites. -/
theorem readLoop_eq (m : Idemonitor) {len i : Nat} (hi : i ≤ len) :
    readLoop len i m = (shiftDown len i m.rxBuffer).map fun rx =>
      (m.rxBuffer.take i, { m with rxBuffer := rx, rxFill := m.rxFill - i }) := by
  induction i with
  | zero => rfl
  | succ i ih =>
    cases hz : shiftDown len i m.rxBuffer with
    | none => simp [readLoop, ih (by omega), shiftDown, hz]
    | some zs =>
      have hget : zs[i]? = m.rxBuffer[i]? := by
        rw [(shiftDown_spec hz).2, if_neg (by omega)]
      cases hd : zs[i+len]? with
      | none => simp [readLoop, ih (by omega), shiftDown, hz, hd]
      | some d =>
        have hlt : i + len < zs.length := (List.getElem?_eq_some_iff.mp hd).1
        obtain ⟨c, hc⟩ : ∃ c, zs[i]? = some c := ⟨_, List.getElem?_eq_getElem (by omega)⟩
        have htake : m.rxBuffer.take (i + 1) = m.rxBuffer.take i ++ [c] := by
          rw [List.take_add_one, ← hget, hc]
          rfl
        simp [readLoop, ih (by omega), shiftDown, hz, hc, hd, htake, Nat.sub_sub]

end Idemonitor
end RasPiArduino
