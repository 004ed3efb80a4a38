import RasPiArduino.Client
import RasPiArduino.Table
import RasPiArduino.Transition

/-! Stream calls on a connected BridgeClient: timedRead() tries read() until the timeout,
and readBytes(), readBytesUntil(), readString() and readStringUntil() live on what it
returns. Bytes may arrive and the clock may move on before every attempt. -/
namespace RasPiArduino.Stream
open RasPiArduino.Net RasPiArduino.Transition RasPiArduino.Table

/-- The call that timedRead() is part of: what is left to do, and the bytes so far. -/
inductive Consumer where
  | timedRead
  | readBytes (left : Nat) (got : List UInt8)
  | readBytesUntil (terminator : UInt8) (left : Nat) (got : List UInt8)
  | readString (got : List UInt8)
  | readStringUntil (terminator : UInt8) (got : List UInt8)
  deriving DecidableEq, Repr

def Consumer.got : Consumer → List UInt8
  | .timedRead => []
  | .readBytes _ got | .readBytesUntil _ _ got | .readString got | .readStringUntil _ got => got

/-- `call` holds `_startMillis` while in timedRead(). `last` is the result of the last
read(); `sent` records what the peer sent, `obtained` the bytes that reads gave. -/
structure State where
  kernel : Kernel
  client : BridgeClient
  now : UInt32
  timeout : UInt32
  call : Option (UInt32 × Consumer)
  last : Int
  returned : List UInt8
  sent : List UInt8
  obtained : List UInt8
  deriving DecidableEq, Repr

def start (k : Kernel) (c : BridgeClient) (timeout : UInt32) (sent : List UInt8) : State where
  kernel := k
  client := c
  now := 0
  timeout := timeout
  call := none
  last := -1
  returned := []
  sent := sent
  obtained := []

def next (s : State) (k : Consumer) : State :=
  match k with
  | .readBytes 0 got | .readBytesUntil _ 0 got => { s with call := none, returned := got }
  | k => { s with call := some (s.now, k) }

def leave (s : State) (got : List UInt8) : State := { s with call := none, returned := got }

def resume (s : State) (k : Consumer) (c : Int) : State :=
  let byte := UInt8.ofNat c.toNat
  match k with
  | .timedRead => leave s []
  | .readBytes left got =>
    if c < 0 then leave s got else next s (.readBytes (left - 1) (got ++ [byte]))
  | .readBytesUntil terminator left got =>
    if c < 0 ∨ c = terminator.toNat then leave s got
    else next s (.readBytesUntil terminator (left - 1) (got ++ [byte]))
  | .readString got => if c < 0 then leave s got else next s (.readString (got ++ [byte]))
  | .readStringUntil terminator got =>
    if c ≥ 0 ∧ c ≠ terminator.toNat then next s (.readStringUntil terminator (got ++ [byte]))
    else leave s got

def readByte (s : State) : State :=
  let (c, client, kernel) := s.client.read s.kernel 0
  { s with
    client := client
    kernel := kernel
    last := c
    obtained := s.obtained ++ if c ≥ 0 then [UInt8.ofNat c.toNat] else [] }

def attempt (s : State) (start : UInt32) (k : Consumer) : State :=
  let t := readByte s
  if t.last ≥ 0 then resume t k t.last
  else if t.now - start < t.timeout then t
  else resume t k (-1)

def readBlock (s : State) (size : Nat) : State :=
  let (_, bytes, client, kernel) := s.client.readBlock s.kernel size 0
  { s with client := client, kernel := kernel, obtained := s.obtained ++ bytes }

inductive Label where
  | data (bytes : List UInt8)
  | fin
  | fail
  | tick (ms : UInt32)
  | read
  | readBlock (size : Nat)
  | consume (k : Consumer)    -- the call of a Stream function
  | attempt
  deriving DecidableEq, Repr

def step (i : Nat) (s : State) : Label → Option State
  | .data bytes => some { s with
      kernel := arrive s.kernel (.data i bytes), sent := s.sent ++ bytes }
  | .fin => some { s with kernel := arrive s.kernel (.fin i) }
  | .fail => some { s with kernel := arrive s.kernel (.fail i) }
  | .tick ms => some { s with now := s.now + ms }
  | .read => if s.call = none then some (readByte s) else none
  | .readBlock size => if s.call = none then some (readBlock s size) else none
  | .consume k => if s.call = none ∧ k.got = [] then some (next s k) else none
  | .attempt => s.call.map fun c => attempt s c.1 c.2

def pending (i : Nat) (s : State) : List UInt8 := ((s.kernel.conns[i]?).map Conn.inbox).getD []

/-- The next byte of the peer's stream, -1 when none is pending. -/
def nextByte (q : List UInt8) : Int :=
  match q with
  | [] => -1
  | b :: _ => b.toNat

def Label.reads : Label → Bool
  | .read | .attempt => true
  | _ => false

/-- read() returns the next pending byte or -1, all bytes obtained were sent, in order, and
timedRead() on an idle connection goes on until the timeout and then returns -1. -/
def ReadsStream (i : Nat) (s : State) (l : Label) (t : State) : Prop :=
  t.obtained <+: t.sent ∧
    (l.reads = true → t.last = nextByte (pending i s)) ∧
    ∀ start k, l = .attempt → s.call = some (start, k) → pending i s = [] →
      if s.now - start < s.timeout then t.call = some (start, k)
      else t.call = (resume t k (-1)).call ∧ t.returned = (resume t k (-1)).returned

/-- Every attempt to read one byte finds one pending. -/
def FindsByte (i : Nat) (s : State) (l : Label) (_ : State) : Prop :=
  l.reads = true → pending i s ≠ []

structure Linked (i : Nat) (k : Kernel) (c : BridgeClient) (x : Conn) : Prop where
  flag : c.flag = true
  file : fileAt k c.sockfd = some (.conn i)
  conn : k.conns[i]? = some x

section Read
variable {i : Nat} {k : Kernel} {c : BridgeClient} {x : Conn} {s t : State}

theorem Linked.available (h : Linked i k c x) (junk : Int) :
    c.available k junk = x.inbox.length := by
  simp [BridgeClient.available, fionread, h.file, h.conn]

theorem Linked.set (h : Linked i k c x) (y : Conn) :
    Linked i { k with conns := k.conns.set i y } c y :=
  ⟨h.flag, h.file, row_set_self h.conn⟩

theorem Linked.readBlock_idle (h : Linked i k c x) (hx : x.inbox = []) (size : Nat) (junk : Int) :
    c.readBlock k size junk = (0, [], c, k) := by
  simp [BridgeClient.readBlock, h.flag, probe, h.file, h.available, hx]

theorem Linked.readBlock_zero (h : Linked i k c x) (junk : Int) :
    c.readBlock k 0 junk = (0, [], c, k) := by
  simp [BridgeClient.readBlock, h.flag, probe, h.file]

theorem Linked.readBlock_pending (h : Linked i k c x) (hx : x.inbox ≠ []) (size : Nat)
    (hs : size ≠ 0) (junk : Int) :
    c.readBlock k size junk = (((x.inbox.take size).length : Int), x.inbox.take size, c,
      { k with conns := k.conns.set i { x with inbox := x.inbox.drop size } }) := by
  have hprobe : probe k c.sockfd = 0 := by simp [probe, h.file]
  have hrecv : recv k c.sockfd size = (((x.inbox.take size).length : Int), x.inbox.take size,
      { k with conns := k.conns.set i { x with inbox := x.inbox.drop size } }) := by
    simp [recv, h.file, h.conn, hx]
  have hneg : ¬ ((x.inbox.take size).length : Int) < 0 := by omega
  have hcount : ((x.inbox.length : Int)) ≠ 0 := by simp [hx]
  simp only [BridgeClient.readBlock, h.flag, hprobe, h.available, hrecv]
  rw [if_neg (by decide), if_pos ⟨hs, trivial, hcount⟩]
  simp only [if_neg hneg]

theorem readByte_idle (h : Linked i s.kernel s.client x) (hx : x.inbox = []) :
    readByte s = { s with last := 0, obtained := s.obtained ++ [0] } := by
  simp [readByte, BridgeClient.read, h.readBlock_idle hx]

theorem readByte_pending (h : Linked i s.kernel s.client x) {b : UInt8} {bs : List UInt8}
    (hx : x.inbox = b :: bs) :
    readByte s = { s with
      kernel := { s.kernel with conns := s.kernel.conns.set i { x with inbox := bs } }
      last := b.toNat
      obtained := s.obtained ++ [b] } := by
  have hr := h.readBlock_pending (by simp [hx]) 1 (by decide) 0
  simp only [hx, List.take_succ_cons, List.take_zero, List.drop_succ_cons, List.drop_zero] at hr
  simp [readByte, BridgeClient.read, hr]

theorem next_eq (s : State) (k : Consumer) :
    ∃ call returned, next s k = { s with call := call, returned := returned } := by
  unfold next
  split <;> exact ⟨_, _, rfl⟩

theorem resume_eq (s : State) (k : Consumer) (c : Int) :
    ∃ call returned, resume s k c = { s with call := call, returned := returned } := by
  unfold resume
  cases k with
  | timedRead => exact ⟨_, _, rfl⟩
  | readBytes left got | readBytesUntil term left got | readString got | readStringUntil term got =>
    dsimp only
    split
    all_goals first | exact ⟨_, _, rfl⟩ | exact next_eq s _

theorem attempt_eq (s : State) (start : UInt32) (k : Consumer) : ∃ call returned,
    attempt s start k = { readByte s with call := call, returned := returned } := by
  unfold attempt
  dsimp only
  split
  · exact resume_eq (readByte s) k _
  · split
    · exact ⟨_, _, rfl⟩
    · exact resume_eq (readByte s) k _

end Read

/-- How a step changes the pending bytes `q` to `q'`, and with them the record. -/
inductive Effect (s : State) (l : Label) (t : State) (q q' : List UInt8) : Prop where
  | other (arrived : List UInt8) (hl : l.reads = false) (hq : q' = q ++ arrived)
      (hs : t.sent = s.sent ++ arrived) (ho : t.obtained = s.obtained)
  | block (got : List UInt8) (hl : l.reads = false) (hq : q = got ++ q')
      (hs : t.sent = s.sent) (ho : t.obtained = s.obtained ++ got)
  | byte (b : UInt8) (hl : l.reads = true) (hq : q = b :: q')
      (hs : t.sent = s.sent) (ho : t.obtained = s.obtained ++ [b]) (hlast : t.last = b.toNat)
  | idle (hl : l.reads = true) (hq : q = []) (hlast : t.last = 0)

section Step
variable {i : Nat} {s t : State} {x : Conn} {l : Label}

theorem readByte_effect (h : Linked i s.kernel s.client x) (hl : l.reads = true) :
    ∃ y, Linked i (readByte s).kernel (readByte s).client y ∧
      Effect s l (readByte s) x.inbox y.inbox := by
  cases hx : x.inbox with
  | nil =>
    rw [readByte_idle h hx]
    exact ⟨x, h, .idle hl rfl rfl⟩
  | cons b bs =>
    rw [readByte_pending h hx]
    exact ⟨{ x with inbox := bs }, h.set _, .byte b hl rfl rfl rfl rfl⟩

theorem readBlock_effect (h : Linked i s.kernel s.client x) (size : Nat) :
    ∃ y, Linked i (readBlock s size).kernel (readBlock s size).client y ∧
      Effect s (.readBlock size) (readBlock s size) x.inbox y.inbox := by
  by_cases hnone : x.inbox = [] ∨ size = 0
  · have hr : s.client.readBlock s.kernel size 0 = (0, [], s.client, s.kernel) := by
      obtain hx | rfl := hnone
      · exact h.readBlock_idle hx size 0
      · exact h.readBlock_zero 0
    simp only [readBlock, hr]
    exact ⟨x, h, .block [] rfl rfl rfl rfl⟩
  · obtain ⟨hx, hs⟩ := not_or.mp hnone
    simp only [readBlock, h.readBlock_pending hx size hs 0]
    exact ⟨{ x with inbox := x.inbox.drop size }, h.set _,
      .block (x.inbox.take size) rfl (List.take_append_drop size x.inbox).symm rfl rfl⟩

theorem Linked.modify {k : Kernel} {c : BridgeClient} (h : Linked i k c x) (f : Conn → Conn) :
    Linked i { k with conns := k.conns.modify i f } c (f x) :=
  ⟨h.flag, h.file, by simp [h.conn]⟩

theorem step_effect (h : Linked i s.kernel s.client x) (hstep : step i s l = some t) :
    ∃ y, Linked i t.kernel t.client y ∧ Effect s l t x.inbox y.inbox := by
  cases l with
  | data bytes =>
    obtain rfl := Option.some.inj hstep
    exact ⟨_, h.modify _, .other bytes rfl rfl rfl rfl⟩
  | fin =>
    obtain rfl := Option.some.inj hstep
    exact ⟨_, h.modify _, .other [] rfl (List.append_nil _).symm (List.append_nil _).symm rfl⟩
  | fail =>
    obtain rfl := Option.some.inj hstep
    exact ⟨_, h.modify _, .other [] rfl (List.append_nil _).symm (List.append_nil _).symm rfl⟩
  | tick ms =>
    obtain rfl := Option.some.inj hstep
    exact ⟨x, h, .other [] rfl (List.append_nil _).symm (List.append_nil _).symm rfl⟩
  | read =>
    obtain ⟨-, rfl⟩ : _ ∧ readByte s = t := by simpa [step] using hstep
    exact readByte_effect h rfl
  | readBlock size =>
    obtain ⟨-, rfl⟩ : _ ∧ readBlock s size = t := by simpa [step] using hstep
    exact readBlock_effect h size
  | consume k =>
    obtain ⟨-, rfl⟩ : _ ∧ next s k = t := by simpa [step] using hstep
    obtain ⟨call, returned, he⟩ := next_eq s k
    rw [he]
    exact ⟨x, h, .other [] rfl (List.append_nil _).symm (List.append_nil _).symm rfl⟩
  | attempt =>
    obtain ⟨⟨start, k⟩, hc, rfl⟩ := Option.map_eq_some_iff.mp hstep
    obtain ⟨call, returned, he⟩ := attempt_eq s start k
    obtain ⟨y, hy, heff⟩ := readByte_effect h (l := .attempt) rfl
    rw [he]
    refine ⟨y, hy, ?_⟩
    cases heff with
    | other arrived hl => exact absurd hl (by decide)
    | block got hl => exact absurd hl (by decide)
    | byte b hl hq hs ho hlast => exact .byte b hl hq hs ho hlast
    | idle hl hq hlast => exact .idle hl hq hlast

def Connected (i : Nat) (s : State) : Prop := ∃ x, Linked i s.kernel s.client x

def Accounted (i : Nat) (s : State) : Prop :=
  ∃ x, Linked i s.kernel s.client x ∧ s.obtained ++ x.inbox = s.sent

theorem Linked.pending (h : Linked i s.kernel s.client x) : pending i s = x.inbox := by
  simp [Stream.pending, h.conn]

theorem finds_of_reads (hc : Connected i s) (hstep : step i s l = some t)
    (hp : ReadsStream i s l t) : Connected i t ∧ FindsByte i s l t := by
  obtain ⟨x, hx⟩ := hc
  obtain ⟨y, hy, heff⟩ := step_effect hx hstep
  refine ⟨⟨y, hy⟩, fun hl hnone => ?_⟩
  have hlast := hp.2.1 hl
  rw [hnone] at hlast
  cases heff with
  | other arrived h | block got h => simp [hl] at h
  | byte b _ hq => simp [hx.pending, hq] at hnone
  | idle _ _ hzero => simp [hzero, nextByte] at hlast

theorem reads_of_finds (ha : Accounted i s) (hstep : step i s l = some t)
    (hq : FindsByte i s l t) : Accounted i t ∧ ReadsStream i s l t := by
  obtain ⟨x, hx, hsum⟩ := ha
  obtain ⟨y, hy, heff⟩ := step_effect hx hstep
  have hall : t.obtained ++ y.inbox = t.sent := by
    cases heff with
    | other arrived _ h hs ho => rw [ho, hs, h, ← hsum, List.append_assoc]
    | block got _ h hs ho => rw [ho, hs, ← hsum, h, List.append_assoc]
    | byte b _ h hs ho => rw [ho, hs, ← hsum, h, List.append_assoc, List.singleton_append]
    | idle hl h => exact absurd (hx.pending.trans h) (hq hl)
  refine ⟨⟨y, hy, hall⟩, ⟨y.inbox, hall⟩, fun hl => ?_, fun _ _ hl _ hnone => ?_⟩
  · cases heff with
    | other arrived h | block got h => simp [hl] at h
    | byte b _ h _ _ hlast => rw [hlast, hx.pending, h, nextByte]
    | idle _ h => exact absurd (hx.pending.trans h) (hq hl)
  · subst hl
    exact absurd hnone (hq rfl)

end Step

/-- The consumers read the peer's stream exactly in the runs where no attempt to read a
byte comes too early: on an idle connection read() returns 0. -/
theorem reads_stream_iff (i : Nat) (k : Kernel) (c : BridgeClient) (x : Conn) (timeout : UInt32)
    (ls : List Label) (h : Linked i k c x) :
    Along (step i) (ReadsStream i) ls (start k c timeout x.inbox) ↔
      Along (step i) (FindsByte i) ls (start k c timeout x.inbox) := by
  constructor
  · intro hp
    exact hp.of_invariant (I := Connected i) (fun s l t => finds_of_reads) ⟨x, h⟩
  · intro hq
    exact hq.of_invariant (I := Accounted i) (fun s l t => reads_of_finds) ⟨x, h, rfl⟩

def idleConn : Conn := ⟨[], false, false, 100, [], true, false⟩

def idleKernel : Kernel where
  files := [some .other, some .other, some .other, some (.conn 0)]
  conns := [idleConn]
  backlog := []
  edge := false

theorem reads_stream_iff_readString :
    Linked 0 idleKernel ⟨3, true⟩ idleConn ∧
    (Along (step 0) (ReadsStream 0) [.data [104], .consume (.readString []), .attempt]
        (start idleKernel ⟨3, true⟩ 1000 []) ↔
      Along (step 0) (FindsByte 0) [.data [104], .consume (.readString []), .attempt]
        (start idleKernel ⟨3, true⟩ 1000 [])) :=
  ⟨⟨rfl, rfl, rfl⟩, reads_stream_iff 0 idleKernel ⟨3, true⟩ idleConn 1000 _ ⟨rfl, rfl, rfl⟩⟩

/-- timedRead() on the idle connection: a byte 0 that the peer never sent. -/
theorem idle_read_invents_byte :
    ∃ t, run (step 0) [.consume .timedRead, .attempt]
        (start idleKernel ⟨3, true⟩ 1000 []) = some t ∧
      t.last = 0 ∧ t.obtained = [0] ∧ t.sent = [] ∧ t.call = none ∧
      ¬ Along (step 0) (ReadsStream 0) [.consume .timedRead, .attempt]
        (start idleKernel ⟨3, true⟩ 1000 []) := by
  refine ⟨_, rfl, by decide, by decide, by decide, by decide, ?_⟩
  intro h
  have hprefix := h.2.1.1
  revert hprefix
  decide

end RasPiArduino.Stream
