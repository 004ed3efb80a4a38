import RasPiArduino.Server

/-! The classes BridgeServer and BridgeClient in a whole process: begin() and end(), clients
that connect() on their own, the copies that available() returns, and whatever else opens
descriptors. Beside the state stands a record of the close() calls. -/
namespace RasPiArduino.Bridge
open RasPiArduino.Net RasPiArduino.BridgeServer

/-- A client of the sketch; `conn` records the connection its number was got for, and
`closed` that it has called close() since. -/
structure Handle where
  client : BridgeClient
  conn : Option Nat
  closed : Bool
  deriving DecidableEq, Repr

def Handle.fresh : Handle := ⟨BridgeClient.none, none, false⟩

/-- A call of close(): whether the object had closed this number before, what the number had
been given to it for, and what it was in use for at the call. -/
structure Closing where
  again : Bool
  own : Option File
  found : Option File
  deriving DecidableEq, Repr

structure World where
  kernel : Kernel
  sockfd : Int
  pollfd : Int
  listening : Bool
  clients : List Node
  handles : List Handle
  pc : Pc
  polls : List Int          -- the open descriptors that are epoll instances
  stopped : List Nat        -- the connections whose node has called close()
  closings : List Closing
  deriving DecidableEq, Repr

/-- The constructor, in a process that has the descriptors of `std` open. -/
def start (std : List Bool) : World :=
  { kernel := ⟨std.map fun b => if b then some File.other else none, [], [], false⟩
    sockfd := -1
    pollfd := 0
    listening := false
    clients := []
    handles := []
    pc := .idle
    polls := []
    stopped := []
    closings := [] }

def core (w : World) : State := ⟨w.kernel, w.sockfd, w.clients, [], w.pc, []⟩

def closeFd (w : World) (fd : Int) (again : Bool) (own : Option File) : World :=
  { w with
    kernel := close w.kernel fd
    polls := w.polls.filter (· ≠ fd)
    closings := w.closings ++ [⟨again, own, fileAt w.kernel fd⟩] }

def stopNode (w : World) (n : Node) : World :=
  if n.client.sockfd > 0 then
    { closeFd w n.client.sockfd (n.conn.any (· ∈ w.stopped)) (n.conn.map .conn) with
      stopped := w.stopped ++ n.conn.toList }
  else w

def stopAll (w : World) : List Node → World
  | [] => w
  | n :: ns => stopAll (stopNode w n) ns

inductive Begun where
  | noSocket
  | noBind
  | noListen
  | noPoll
  | noControl
  | noEvents
  | done
  deriving DecidableEq, Repr

def openListener (w : World) : World :=
  { w with
    sockfd := freeFd w.kernel.files
    kernel := { w.kernel with
      files := install w.kernel.files .listener
      backlog := []
      edge := false } }

/-- epoll_create1(): nothing is registered with the new instance. -/
def openPoll (w : World) : World :=
  { w with
    pollfd := freeFd w.kernel.files
    polls := w.polls ++ [(freeFd w.kernel.files : Int)]
    kernel := { w.kernel with
      files := install w.kernel.files .other
      conns := w.kernel.conns.map fun c => { c with registered := false, edge := false } } }

def begin (w : World) (r : Begun) : World :=
  if w.listening then w
  else match r with
    | .noSocket => { w with sockfd := -1 }
    | .noBind | .noListen => openListener w
    | .noPoll => { openListener w with pollfd := -1 }
    | .noControl | .noEvents => openPoll (openListener w)
    | .done => { openPoll (openListener w) with listening := true }

/-- end(): the server has not closed `sockfd` before, which is -1 once it has. -/
def end_ (w : World) : World :=
  let w := stopAll w w.clients
  let w := closeFd w w.sockfd false (some .listener)
  { w with
    clients := []
    sockfd := -1
    listening := false
    kernel := { w.kernel with backlog := [], edge := false } }

def acceptClient (w : World) : World :=
  let s := BridgeServer.acceptClient (core w)
  { w with kernel := s.kernel, clients := s.clients }

def incomingData (w : World) (fd : Nat) (junk : Int) : World :=
  match clientByFd w.clients fd with
  | none => w
  | some i => match w.clients[i]? with
    | none => w
    | some n =>
      if n.client.available w.kernel junk = 0 then
        { stopNode w n with
          clients := w.clients.set i { n with client := (n.client.stop w.kernel).1 } }
      else w

def handle (w : World) (fd : Nat) (junk : Int) : World :=
  if w.sockfd = fd then acceptClient w else incomingData w fd junk

def finish (w : World) (junk : Int) : World :=
  let cs := cleanup w.kernel w.clients
  { w with
    clients := cs
    handles := w.handles ++ [match cs.find? fun n => n.client.available w.kernel junk ≠ 0 with
      | some n => ⟨n.client, n.conn, false⟩
      | none => .fresh]
    pc := .idle }

def write (w : World) (data : List UInt8) : World :=
  let s := BridgeServer.write (core w) data
  { w with kernel := s.kernel, clients := s.clients }

/-! The clients of the sketch. -/

/-- How connect() ends; by name it may not find the host. -/
inductive Connected where
  | noHost
  | noSocket
  | refused
  | done (room : Nat)
  deriving DecidableEq, Repr

/-- socket(), for a client: the connection may have failed. -/
def openSocket (w : World) (i : Nat) (failed : Bool) (room : Nat) (flag : Bool) : World :=
  { w with
    kernel := { w.kernel with
      files := install w.kernel.files (.conn w.kernel.conns.length)
      conns := w.kernel.conns ++ [⟨[], false, failed, room, [], false, false⟩] }
    handles := w.handles.set i
      ⟨⟨freeFd w.kernel.files, flag⟩, some w.kernel.conns.length, false⟩ }

def connect (w : World) (i : Nat) (h : Handle) : Connected → World
  | .noHost => w
  | .noSocket => { w with handles := w.handles.set i ⟨{ h.client with sockfd := -1 }, none, false⟩ }
  | .refused => openSocket w i true 0 h.client.flag
  | .done room => openSocket w i false room true

def stop (w : World) (i : Nat) (h : Handle) : World :=
  if h.client.sockfd > 0 then
    { closeFd w h.client.sockfd h.closed (h.conn.map .conn) with
      handles := w.handles.set i { h with client := (h.client.stop w.kernel).1, closed := true } }
  else { w with handles := w.handles.set i { h with client := (h.client.stop w.kernel).1 } }

def onClient (w : World) (i : Nat) (h : Handle) (f : BridgeClient → BridgeClient × Kernel) :
    World :=
  { w with
    handles := w.handles.set i { h with client := (f h.client).1 }
    kernel := (f h.client).2 }

inductive Label where
  | arrive (a : Arrival)
  | openOther
  | closeOther (n : Nat)
  | begin (r : Begun)
  | end_
  | notListening            -- available() before begin()
  | poll (fds : List Nat)
  | handle (junk : Int)
  | finish (junk : Int)
  | write (data : List UInt8)
  | create
  | connect (i : Nat) (r : Connected)
  | send (i : Nat) (data : List UInt8)
  | read (i size : Nat) (junk : Int)
  | connected (i : Nat)
  | stop (i : Nat)
  | drop (i : Nat)          -- the client goes out of scope, or another is assigned to it
  deriving DecidableEq, Repr

def heard (w : World) : Arrival → Bool
  | .connect _ => w.listening
  | _ => true

def call (w : World) (t : World) : Option World := if w.pc = .idle then some t else none

def callOn (w : World) (i : Nat) (f : Handle → World) : Option World :=
  if w.pc = .idle then (w.handles[i]?).map f else none

/-- epoll_wait fails once `pollfd` is not an epoll instance. -/
def Polled (w : World) (fds : List Nat) : Prop :=
  if w.pollfd ∈ w.polls then Reports (core w) fds else fds = []

instance (w : World) (fds : List Nat) : Decidable (Polled w fds) := by
  unfold Polled
  infer_instance

def step (w : World) : Label → Option World
  | .arrive a => if heard w a then some { w with kernel := arrive w.kernel a } else none
  | .openOther => some { w with
      kernel := { w.kernel with files := install w.kernel.files .other } }
  | .closeOther n =>
    if fileAt w.kernel n = some .other ∧ (n : Int) ∉ w.polls then
      some { w with kernel := close w.kernel n }
    else none
  | .begin r => call w (begin w r)
  | .end_ => call w (end_ w)
  | .notListening =>
    if w.listening then none else call w { w with handles := w.handles ++ [.fresh] }
  | .poll fds =>
    if w.pc = .idle ∧ w.listening = true ∧ Polled w fds then
      some { w with kernel := fds.foldl reported w.kernel, pc := .handling fds }
    else none
  | .handle junk => match w.pc with
    | .handling (fd :: fds) => some { handle w fd junk with pc := .handling fds }
    | _ => none
  | .finish junk => if w.pc = .handling [] then some (finish w junk) else none
  | .write data => call w (write w data)
  | .create => call w { w with handles := w.handles ++ [.fresh] }
  | .connect i r => callOn w i fun h => connect w i h r
  | .send i data => callOn w i fun h => onClient w i h fun c => (c.write w.kernel data).2
  | .read i size junk =>
    callOn w i fun h => onClient w i h fun c => (c.readBlock w.kernel size junk).2.2
  | .connected i =>
    callOn w i fun h => onClient w i h fun c => ((c.connected w.kernel).2, w.kernel)
  | .stop i => callOn w i (stop w i)
  | .drop i => callOn w i fun _ => { w with handles := w.handles.set i .fresh }

/-! Who has which descriptor. -/

def clientsOf (w : World) : List BridgeClient :=
  w.clients.map Node.client ++ w.handles.map Handle.client

/-- The classes opened this descriptor, and it still is. -/
def Made (w : World) (g : Nat) : Prop :=
  (∃ f, fileAt w.kernel g = some f ∧ f ≠ .other) ∨ (g : Int) ∈ w.polls

/-- The server has it as `sockfd` or `pollfd` (0 before begin()), or a client that
connected() counts as connected. -/
def Refers (w : World) (g : Nat) : Prop :=
  w.sockfd = g ∨ w.pollfd = g ∧ 0 < g ∨
    ∃ c ∈ clientsOf w, (c.connected w.kernel).1 = true ∧ c.sockfd = g

/-- The descriptors the classes opened are those still referred to, no object called close()
twice on a number, and none closed what the number had not been given to it for. -/
structure Owned (w : World) : Prop where
  exact : ∀ g, Made w g ↔ Refers w g
  closings : ∀ x ∈ w.closings, x.again = false ∧ (x.found = none ∨ x.found = x.own)

end RasPiArduino.Bridge
