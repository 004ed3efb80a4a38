import RasPiArduino.Cbuf
import RasPiArduino.Transition

/-! The class BridgeUDP: the transmit array with its length, the pending datagram in a
cbuf, and the calls of the sketch. What the sockets return is part of each call. -/
namespace RasPiArduino.BridgeUdp

/-- A datagram taken by recvfrom, and the memory that `new cbuf(len)` gets for it. -/
structure Received where
  ip : UInt32
  port : UInt16
  payload : List UInt8
  mem : List UInt8
  le : payload.length ≤ 2048
  mem_len : mem.length = payload.length

structure Sent where
  ip : UInt32
  port : UInt16
  payload : List UInt8

structure State where
  udpServer : Int
  remoteIp : UInt32
  remotePort : UInt16
  buffer : Vector UInt8 1460
  bufferLen : Nat           -- a size_t
  rxBuffer : Option Cbuf
  sent : List Sent
  stores : List Nat         -- the indices `buffer` was written at in the last call

/-- What lies behind the transmit array: the language leaves open what an access does. -/
structure Behind where
  store : State → Nat → UInt8 → State
  load : State → Nat → UInt8

def init (mem : Vector UInt8 1460) : State where
  udpServer := -1
  remoteIp := 0
  remotePort := 0
  buffer := mem
  bufferLen := 0
  rxBuffer := none
  sent := []
  stores := []

def blank : State := init (Vector.replicate 1460 0)
def inert : Behind := ⟨fun s _ _ => s, fun _ _ => 0⟩

section Sending
variable (B : Behind)

def storeTx (s : State) (i : Nat) (c : UInt8) : State :=
  if h : i < 1460 then { s with buffer := s.buffer.set i c h, stores := s.stores ++ [i] }
  else { B.store s i c with stores := s.stores ++ [i] }

def loadTx (s : State) (i : Nat) : UInt8 :=
  if h : i < 1460 then s.buffer[i] else B.load s i

def bzero (s : State) (n : Nat) : State :=
  (List.range n).foldl (fun s i => storeTx B s i 0) s

def beginPacket (s : State) : Int × State :=
  if s.remotePort = 0 then (0, s) else (1, bzero B { s with bufferLen := 0 } 1500)

def beginPacketTo (s : State) (ip : UInt32) (port : UInt16) : Int × State :=
  beginPacket B { s with remoteIp := ip, remotePort := port }

def beginPacketHost (s : State) (server : Option UInt32) (port : UInt16) : Int × State :=
  match server with
  | none => (0, s)
  | some ip => beginPacketTo B s ip port

def endPacket (s : State) (r : Int) : Int × State :=
  (r, { s with
    sent := s.sent ++ [⟨s.remoteIp, s.remotePort, (List.range s.bufferLen).map (loadTx B s)⟩] })

/-- The packet goes out when the array is taken to be full. -/
def flushFull (s : State) : State :=
  if s.bufferLen = 1500 then bzero B { (endPacket B s 0).2 with bufferLen := 0 } 1500 else s

def write (s : State) (data : UInt8) : Nat × State :=
  let s := flushFull B s
  (1, storeTx B { s with bufferLen := (s.bufferLen + 1) % 2^32 } s.bufferLen data)

def writeBlock (s : State) (data : List UInt8) : Nat × State :=
  (data.length, data.foldl (fun s c => (write B s c).2) s)

end Sending

def stop (s : State) : State :=
  if s.udpServer = -1 then s else { s with udpServer := -1 }

def begin (s : State) (sock : Int) (bound : Bool) : Nat × State :=
  let s := if s.udpServer ≠ 0 then stop s else s
  if sock = -1 then (0, { s with udpServer := -1 })
  else if bound then (1, { s with udpServer := sock })
  else (0, { s with udpServer := -1 })

@[simp] theorem stop_rxBuffer (s : State) : (stop s).rxBuffer = s.rxBuffer := by
  unfold stop
  split <;> rfl

@[simp] theorem begin_rxBuffer (s : State) (sock : Int) (bound : Bool) :
    (begin s sock bound).2.rxBuffer = s.rxBuffer := by
  have hs : (if s.udpServer ≠ 0 then stop s else s).rxBuffer = s.rxBuffer := by
    split
    · exact stop_rxBuffer s
    · rfl
  unfold begin
  dsimp only
  split
  · exact hs
  · split <;> exact hs

/-- `r` is what recvfrom takes from the socket, none for its -1. -/
def parsePacket (s : State) (r : Option Received) : Option (Int × State) :=
  match s.rxBuffer, r with
  | some _, _ => some (0, s)
  | none, none => some (0, s)
  | none, some d => ((Cbuf.new d.mem).writeBlock d.payload).map fun w =>
      ((d.payload.length : Int),
        { s with remoteIp := d.ip, remotePort := d.port, rxBuffer := some w.2 })

def available (s : State) : Int :=
  match s.rxBuffer with
  | none => 0
  | some b => b.getSize

/-- The buffer is deleted by the read that empties it. -/
def keep (b : Cbuf) : Option Cbuf := if b.getSize = 0 then none else some b

def read (s : State) : Option (Int × State) :=
  match s.rxBuffer with
  | none => some (-1, s)
  | some b => b.read.map fun w => (w.1, { s with rxBuffer := keep w.2 })

def readBlock (s : State) (len : Nat) : Option (Int × List UInt8 × State) :=
  match s.rxBuffer with
  | none => some (0, [], s)
  | some b => (b.readBlock len).map fun w =>
      ((w.1 : Int), w.2.1, { s with rxBuffer := keep w.2.2 })

def peek (s : State) : Option Int :=
  match s.rxBuffer with
  | none => some (-1)
  | some b => b.peek

def flush (s : State) : State := { s with rxBuffer := none }

inductive Call where
  | begin (sock : Int) (bound : Bool)
  | stop
  | beginPacket
  | beginPacketTo (ip : UInt32) (port : UInt16)
  | beginPacketHost (server : Option UInt32) (port : UInt16)
  | endPacket (r : Int)
  | write (data : UInt8)
  | writeBlock (data : List UInt8)
  | parsePacket (r : Option Received)
  | available
  | read
  | readBlock (len : Nat)
  | peek
  | flush

def call (B : Behind) (s : State) : Call → Option State
  | .begin sock bound => some (begin s sock bound).2
  | .stop => some (stop s)
  | .beginPacket => some (beginPacket B s).2
  | .beginPacketTo ip port => some (beginPacketTo B s ip port).2
  | .beginPacketHost server port => some (beginPacketHost B s server port).2
  | .endPacket r => some (endPacket B s r).2
  | .write data => some (write B s data).2
  | .writeBlock data => some (writeBlock B s data).2
  | .parsePacket r => (parsePacket s r).map Prod.snd
  | .available => some s
  | .read => (read s).map Prod.snd
  | .readBlock len => (readBlock s len).map fun w => w.2.2
  | .peek => (peek s).map fun _ => s
  | .flush => some (flush s)

def step (B : Behind) (s : State) (c : Call) : Option State := call B { s with stores := [] } c

end RasPiArduino.BridgeUdp
