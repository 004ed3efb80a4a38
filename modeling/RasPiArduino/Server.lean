import RasPiArduino.Client
import RasPiArduino.Transition

/-! The class BridgeServer: its clients list, the copies that available() hands to the
sketch, and available() step by step: epoll_wait, one event after the other, cleanup() and
the search for a client with data. Arrivals may come between any two steps. -/
namespace RasPiArduino.BridgeServer
open RasPiArduino.Net

/-- A node of the clients list; `conn` records the connection accepted for it. -/
structure Node where
  client : BridgeClient
  conn : Option Nat
  deriving DecidableEq, Repr

inductive Pc where
  | idle
  | handling (fds : List Nat)   -- in available(), with these events to go
  deriving DecidableEq, Repr

/-- The state while `_listening`; `listed` records the connections put into the list. -/
structure State where
  kernel : Kernel
  sockfd : Int
  clients : List Node
  copies : List BridgeClient
  pc : Pc
  listed : List Nat
  deriving DecidableEq, Repr

def begun (std : List Bool) : State :=
  let files := std.map fun b => if b then some File.other else none
  { kernel := ⟨install (install files .listener) .other, [], [], false⟩
    sockfd := freeFd files
    clients := []
    copies := []
    pc := .idle
    listed := [] }

def clientByFd (cs : List Node) (fd : Int) : Option Nat :=
  cs.findIdx? fun n => n.client.sockfd == fd

def connectedNode (k : Kernel) (n : Node) : Bool := (n.client.connected k).1

def probed (k : Kernel) (n : Node) : Node := { n with client := (n.client.connected k).2 }

def cleanupRest (k : Kernel) : List Node → List Node
  | [] => []
  | n :: ns => if !connectedNode k n then cleanupRest k ns else probed k n :: cleanupRest k ns

def cleanup (k : Kernel) : List Node → List Node
  | [] => []
  | n :: ns => if !connectedNode k n then cleanup k ns else probed k n :: cleanupRest k ns

def acceptClient (s : State) : State :=
  let (fd, k) := accept4 s.kernel
  if fd ≠ 0 then
    { s with
      kernel := epollAdd k fd
      clients := s.clients ++ [⟨⟨fd, true⟩, s.kernel.backlog.head?⟩]
      listed := s.listed ++ s.kernel.backlog.head?.toList }
  else { s with kernel := k }

def incomingData (s : State) (fd : Nat) (junk : Int) : State :=
  match clientByFd s.clients fd with
  | none => s
  | some i => match s.clients[i]? with
    | none => s
    | some n =>
      if n.client.available s.kernel junk = 0 then
        { s with
          kernel := (n.client.stop s.kernel).2
          clients := s.clients.set i { n with client := (n.client.stop s.kernel).1 } }
      else s

def handle (s : State) (fd : Nat) (junk : Int) : State :=
  if s.sockfd = fd then acceptClient s else incomingData s fd junk

def finish (s : State) : State :=
  let cs := cleanup s.kernel s.clients
  { s with
    clients := cs
    copies := s.copies ++ [match cs.find? fun n => n.client.available s.kernel 0 ≠ 0 with
      | some n => n.client
      | none => BridgeClient.none]
    pc := .idle }

def writeAll (data : List UInt8) : Kernel → List Node → List Node × Kernel
  | k, [] => ([], k)
  | k, n :: ns =>
    let (_, c, k) := n.client.write k data
    let (ns, k) := writeAll data k ns
    ({ n with client := c } :: ns, k)

def write (s : State) (data : List UInt8) : State :=
  let (cs, k) := writeAll data s.kernel (cleanup s.kernel s.clients)
  { s with kernel := k, clients := cs }

/-- epoll_wait reports 64 descriptors at most, the listener always among them. -/
def Reports (s : State) (fds : List Nat) : Prop :=
  fds.Nodup ∧ (∀ fd ∈ fds, fd ∈ ready s.kernel) ∧ fds.length = min 64 (ready s.kernel).length ∧
    ∀ fd ∈ ready s.kernel, s.sockfd = fd → fd ∈ fds

instance (s : State) (fds : List Nat) : Decidable (Reports s fds) := by
  unfold Reports
  infer_instance

inductive Label where
  | arrive (a : Arrival)
  | poll (fds : List Nat)
  | handle (junk : Int)
  | finish
  | write (data : List UInt8)
  | copyRead (i : Nat) (junk : Int)
  | copyReadBlock (i size : Nat) (junk : Int)
  | copyConnected (i : Nat)
  | copyWrite (i : Nat) (data : List UInt8)
  | copyStop (i : Nat)
  deriving DecidableEq, Repr

def onCopy (s : State) (i : Nat) (f : BridgeClient → BridgeClient × Kernel) : Option State :=
  if s.pc = .idle then
    (s.copies[i]?).map fun c =>
      { s with copies := s.copies.set i (f c).1, kernel := (f c).2 }
  else none

def step (s : State) : Label → Option State
  | .arrive a => some { s with kernel := arrive s.kernel a }
  | .poll fds =>
    if s.pc = .idle ∧ Reports s fds then
      some { s with kernel := fds.foldl reported s.kernel, pc := .handling fds }
    else none
  | .handle junk => match s.pc with
    | .handling (fd :: fds) => some { handle s fd junk with pc := .handling fds }
    | _ => none
  | .finish => if s.pc = .handling [] then some (finish s) else none
  | .write data => if s.pc = .idle then some (write s data) else none
  | .copyRead i junk => onCopy s i fun c => (c.read s.kernel junk).2
  | .copyReadBlock i size junk => onCopy s i fun c => (c.readBlock s.kernel size junk).2.2
  | .copyConnected i => onCopy s i fun c => ((c.connected s.kernel).2, s.kernel)
  | .copyWrite i data => onCopy s i fun c => (c.write s.kernel data).2
  | .copyStop i => onCopy s i fun c => c.stop s.kernel

/-! What cleanup() keeps. -/

theorem cleanup_eq (k : Kernel) (cs : List Node) : cleanup k cs = cs.filter (connectedNode k) := by
  have hprobed {n : Node} (h : connectedNode k n = true) : probed k n = n := by
    simp [probed, BridgeClient.connected_same h]
  have hrest : ∀ cs, cleanupRest k cs = cs.filter (connectedNode k) := by
    intro cs
    induction cs with
    | nil => rfl
    | cons n ns ih => cases h : connectedNode k n <;> simp [cleanupRest, h, ih, hprobed]
  induction cs with
  | nil => rfl
  | cons n ns ih => cases h : connectedNode k n <;> simp [cleanup, h, ih, hrest, hprobed]

theorem connectedNode_iff {k : Kernel} {n : Node} :
    connectedNode k n = true ↔ n.client.flag = true ∧ (fileAt k n.client.sockfd).isSome = true := by
  simp [connectedNode, BridgeClient.connected_eq]

end RasPiArduino.BridgeServer
