import RasPiArduino.Bridge
import RasPiArduino.ServerDescriptors

/-! What a careful sketch keeps of the descriptors of the Bridge classes. -/
namespace RasPiArduino.Bridge
open RasPiArduino.Net RasPiArduino.BridgeServer RasPiArduino.Transition RasPiArduino.Table

def Held (w : World) (g : Int) : Prop := ∃ c ∈ clientsOf w, c.flag = true ∧ c.sockfd = g

def HeldBut (w : World) (i : Nat) (g : Int) : Prop :=
  ∃ c ∈ w.clients.map Node.client ++ (w.handles.eraseIdx i).map Handle.client,
    c.flag = true ∧ c.sockfd = g

def isConn (k : Kernel) (g : Int) : Bool :=
  match fileAt k g with
  | some (.conn _) => true
  | _ => false

def Given (k : Kernel) (g : Int) (conn : Option Nat) : Prop :=
  fileAt k g = none ∨ fileAt k g = conn.map .conn

def GivenAll : Kernel → List Node → Prop
  | _, [] => True
  | k, n :: ns => Given k n.client.sockfd n.conn ∧ GivenAll (n.client.stop k).2 ns

/-- A client that is about to let go of its number is not connected, or not the only one. -/
def LetsGo (w : World) (i : Nat) (h : Handle) : Prop :=
  h.client.flag = true → isConn w.kernel h.client.sockfd = true → HeldBut w i h.client.sockfd

/-- The part of begin() that opens a socket and an epoll instance starts with none. -/
def CarefulBegin (w : World) : Begun → Prop
  | .noSocket | .noBind | .noListen => w.sockfd < 0
  | _ => w.sockfd < 0 ∧ w.pollfd ≤ 0

/-- accept gets another number than 0, and a client is stopped on its own number. -/
def CarefulEvent (w : World) (junk : Int) : Pc → Prop
  | .handling (fd :: _) =>
    if w.sockfd = fd then w.kernel.backlog ≠ [] → freeFd w.kernel.files ≠ 0
    else ∀ i ∈ clientByFd w.clients fd, ∀ n ∈ w.clients[i]?,
      n.client.available w.kernel junk = 0 → Given w.kernel n.client.sockfd n.conn
  | _ => True

def CarefulConnect (w : World) (i : Nat) (h : Handle) : Connected → Prop
  | .noHost => True
  | .refused => LetsGo w i h ∧ (h.client.flag = true ∨ HeldBut w i (freeFd w.kernel.files))
  | _ => LetsGo w i h

/-- Nothing is lost by the step: no descriptor is left behind that has its last client, none
is opened elsewhere under a number that a client still counts as its own, and stop() is
called by an object once, on what its number was given to it for. -/
def Careful (w : World) : Label → Prop
  | .begin r => w.listening = false → CarefulBegin w r
  | .end_ => GivenAll w.kernel w.clients
  | .openOther => ¬ Held w (freeFd w.kernel.files)
  | .handle junk => CarefulEvent w junk w.pc
  | .write data => ∀ n ∈ w.clients, connectedNode w.kernel n = true →
      isConn w.kernel n.client.sockfd = true → (send w.kernel n.client.sockfd data).1 < 0 →
        ∃ h ∈ w.handles, h.client.flag = true ∧ h.client.sockfd = n.client.sockfd
  | .connect i r => ∀ h ∈ w.handles[i]?, CarefulConnect w i h r
  | .send i data => ∀ h ∈ w.handles[i]?, (send w.kernel h.client.sockfd data).1 < 0 → LetsGo w i h
  | .stop i => ∀ h ∈ w.handles[i]?, if h.client.sockfd > 0 then
      h.closed = false ∧ Given w.kernel h.client.sockfd h.conn
    else LetsGo w i h
  | .drop i => ∀ h ∈ w.handles[i]?, LetsGo w i h
  | _ => True

instance (w : World) (g : Int) : Decidable (Held w g) := by unfold Held; infer_instance
instance (w : World) (i : Nat) (g : Int) : Decidable (HeldBut w i g) := by
  unfold HeldBut; infer_instance
instance (k : Kernel) (g : Int) (conn : Option Nat) : Decidable (Given k g conn) := by
  unfold Given; infer_instance
instance : ∀ k ns, Decidable (GivenAll k ns)
  | _, [] => isTrue trivial
  | k, n :: ns => @instDecidableAnd (Given k n.client.sockfd n.conn) _ _
    (instDecidableGivenAll (n.client.stop k).2 ns)
instance (w : World) (i : Nat) (h : Handle) : Decidable (LetsGo w i h) := by
  unfold LetsGo; infer_instance
instance (w : World) (r : Begun) : Decidable (CarefulBegin w r) := by
  cases r <;> unfold CarefulBegin <;> infer_instance
instance (w : World) (junk : Int) : ∀ pc, Decidable (CarefulEvent w junk pc)
  | .idle => isTrue trivial
  | .handling [] => isTrue trivial
  | .handling (fd :: fds) => by unfold CarefulEvent; infer_instance
instance (w : World) (i : Nat) (h : Handle) : ∀ r, Decidable (CarefulConnect w i h r)
  | .noHost => isTrue trivial
  | .noSocket => by unfold CarefulConnect; infer_instance
  | .refused => by unfold CarefulConnect; infer_instance
  | .done _ => by unfold CarefulConnect; infer_instance
instance (w : World) (l : Label) : Decidable (Careful w l) := by
  cases l <;> unfold Careful <;> infer_instance

def Spent (k : Kernel) (c : Nat) : Prop := c ∉ k.backlog ∧ c < k.conns.length

/-- Listeners and epoll instances are the server's, connections have one descriptor each and
are counted as connected by some client, and no client counts on what others opened. -/
structure Descriptors (w : World) : Prop where
  listener : ∀ g, fileAt w.kernel g = some .listener ↔ g = w.sockfd ∧ 0 ≤ w.sockfd
  poll : ∀ g, g ∈ w.polls ↔ g = w.pollfd ∧ 0 < w.pollfd
  instances : ∀ g ∈ w.polls, fileAt w.kernel g = some .other
  held : ∀ g c, fileAt w.kernel g = some (.conn c) → Held w g
  foreign : ∀ g, Held w g → fileAt w.kernel g = some .other → g ∈ w.polls
  single : ∀ g g' c, fileAt w.kernel g = some (.conn c) → fileAt w.kernel g' = some (.conn c) →
    g = g'
  spent : ∀ g c, fileAt w.kernel g = some (.conn c) → Spent w.kernel c

/-- The nodes have connections of their own, and those that called close() have no event to
come and leave with the call of available(). -/
structure Listed (w : World) : Prop where
  conns : (w.clients.filterMap Node.conn).Nodup
  spent : ∀ c ∈ w.clients.filterMap Node.conn, Spent w.kernel c
  backlog : w.kernel.backlog.Nodup ∧ ∀ c ∈ w.kernel.backlog, c < w.kernel.conns.length
  nonZero : ∀ n ∈ w.clients, n.client.sockfd ≠ 0
  stopped : ∀ n ∈ w.clients, ∀ c, n.conn = some c → c ∈ w.stopped → n.client.flag = false ∧
    ∃ fds, w.pc = .handling fds ∧ ∀ fd ∈ fds, n.client.sockfd ≠ (fd : Int)
  past : ∀ c ∈ w.stopped, Spent w.kernel c
  events : ∀ fds, w.pc = .handling fds → fds.Nodup

def InOrder (w : World) : Prop :=
  ∀ x ∈ w.closings, x.again = false ∧ (x.found = none ∨ x.found = x.own)

structure Safe (w : World) : Prop where
  descriptors : Descriptors w
  listed : Listed w
  closings : InOrder w

variable {w t : World} {l : Label} {i : Nat} {h h' : Handle} {g : Int}

theorem held_iff : Held w g ↔ (∃ n ∈ w.clients, n.client.flag = true ∧ n.client.sockfd = g) ∨
    ∃ h ∈ w.handles, h.client.flag = true ∧ h.client.sockfd = g := by
  simp [Held, clientsOf, or_and_right, exists_or]

theorem held_set (hh : w.handles[i]? = some h) (hc : t.clients = w.clients)
    (ht : t.handles = w.handles.set i h') :
    Held t g ↔ (h'.client.flag = true ∧ h'.client.sockfd = g) ∨ HeldBut w i g := by
  have hmem (x : Handle) : x ∈ w.handles.set i h' ↔ x = h' ∨ x ∈ w.handles.eraseIdx i := by
    rw [List.mem_iff_getElem?, List.mem_eraseIdx_iff_getElem?]
    constructor
    · rintro ⟨j, hj⟩
      obtain ⟨-, rfl⟩ | ⟨hji, hj⟩ := (row_set hh).mp hj
      · exact .inl rfl
      · exact .inr ⟨j, hji, hj⟩
    · rintro (rfl | ⟨j, hji, hj⟩)
      · exact ⟨i, row_set_self hh⟩
      · exact ⟨j, (row_set hh).mpr (.inr ⟨hji, hj⟩)⟩
  rw [held_iff, hc, ht]
  simp only [HeldBut, List.mem_append, List.mem_map, hmem]
  constructor
  · rintro (⟨n, hn, hf⟩ | ⟨x, rfl | hx, hf⟩)
    · exact .inr ⟨n.client, .inl ⟨n, hn, rfl⟩, hf⟩
    · exact .inl hf
    · exact .inr ⟨x.client, .inr ⟨x, hx, rfl⟩, hf⟩
  · rintro (hf | ⟨_, ⟨n, hn, rfl⟩ | ⟨x, hx, rfl⟩, hf⟩)
    · exact .inr ⟨h', .inl rfl, hf⟩
    · exact .inl ⟨n, hn, hf⟩
    · exact .inr ⟨x, .inr hx, hf⟩

theorem held_at (hh : w.handles[i]? = some h) :
    Held w g ↔ (h.client.flag = true ∧ h.client.sockfd = g) ∨ HeldBut w i g := by
  refine held_set hh rfl ?_
  obtain ⟨hi, rfl⟩ := List.getElem?_eq_some_iff.mp hh
  exact (List.set_getElem_self hi).symm

theorem isConn_iff {k : Kernel} : isConn k g = true ↔ ∃ c, fileAt k g = some (.conn c) := by
  unfold isConn
  split
  · next c hc => simp [hc]
  · next hc => simpa using hc

theorem Safe.owned (hs : Safe w) : Owned w := by
  have hd := hs.descriptors
  have hconn (c : BridgeClient) : (c.connected w.kernel).1 = true ↔
      c.flag = true ∧ (fileAt w.kernel c.sockfd).isSome = true := by
    rw [BridgeClient.connected_eq, Bool.and_eq_true]
  refine ⟨fun g => ⟨?_, ?_⟩, hs.closings⟩
  · rintro (⟨f, hf, hne⟩ | hg)
    · cases f with
      | listener => exact .inl ((hd.listener g).mp hf).1.symm
      | conn c =>
        obtain ⟨x, hx, hfl, hg⟩ := hd.held g c hf
        exact .inr (.inr ⟨x, hx, (hconn x).mpr ⟨hfl, by simp [hg, hf]⟩, hg⟩)
      | other => exact absurd rfl hne
    · obtain ⟨hg, hpos⟩ := (hd.poll g).mp hg
      exact .inr (.inl ⟨hg.symm, by omega⟩)
  · rintro (hg | ⟨hg, hpos⟩ | ⟨x, hx, hc, hg⟩)
    · exact .inl ⟨.listener, (hd.listener g).mpr ⟨hg.symm, by omega⟩, nofun⟩
    · exact .inr ((hd.poll g).mpr ⟨hg.symm, by omega⟩)
    · obtain ⟨hf, ho⟩ := (hconn x).mp hc
      obtain ⟨f, hfile⟩ := Option.isSome_iff_exists.mp ho
      rw [hg] at hfile
      by_cases hother : f = .other
      · exact .inr (hd.foreign g ⟨x, hx, hf, hg⟩ (hother ▸ hfile))
      · exact .inl ⟨f, hfile, hother⟩

theorem Descriptors.frame (hd : Descriptors w) (hsock : t.sockfd = w.sockfd)
    (hpoll : t.pollfd = w.pollfd) (hpolls : t.polls = w.polls)
    (hback : ∀ g f, fileAt t.kernel g = some f → fileAt w.kernel g = some f)
    (hkeep : ∀ g, fileAt w.kernel g = some .listener ∨ g ∈ w.polls →
      fileAt t.kernel g = fileAt w.kernel g)
    (hheld : ∀ g c, fileAt t.kernel g = some (.conn c) → Held w g → Held t g)
    (hnew : ∀ g, fileAt t.kernel g = some .other → Held t g → Held w g)
    (hspent : ∀ c, Spent w.kernel c → Spent t.kernel c) : Descriptors t where
  listener g := by
    rw [hsock, ← hd.listener]
    exact ⟨hback g _, fun hg => (hkeep g (.inl hg)).trans hg⟩
  poll g := by
    rw [hpolls, hpoll]
    exact hd.poll g
  instances g hg := by
    rw [hpolls] at hg
    exact (hkeep g (.inr hg)).trans (hd.instances g hg)
  held g c hg := hheld g c hg (hd.held g c (hback g _ hg))
  foreign g hg hf := by
    rw [hpolls]
    exact hd.foreign g (hnew g hf hg) (hback g _ hf)
  single g g' c hg hg' := hd.single g g' c (hback g _ hg) (hback g' _ hg')
  spent g c hg := hspent c (hd.spent g c (hback g _ hg))

/-- A step that opens a connection for a client. -/
theorem Descriptors.opened (hd : Descriptors w) {c : Nat} (hsock : t.sockfd = w.sockfd)
    (hpoll : t.pollfd = w.pollfd) (hpolls : t.polls = w.polls)
    (hfiles : t.kernel.files = install w.kernel.files (.conn c))
    (hc : ∀ g, fileAt w.kernel g ≠ some (.conn c)) (hfree : Held t (freeFd w.kernel.files))
    (hheld : ∀ g c, fileAt w.kernel g = some (.conn c) → Held w g → Held t g)
    (hnew : ∀ g, fileAt w.kernel g = some .other → Held t g → Held w g)
    (hspent : ∀ d, Spent w.kernel d ∨ d = c → Spent t.kernel d) : Descriptors t where
  listener g := by
    rw [fileAt_install hfiles, hsock, ← hd.listener]
    split
    · next hg => simp [hg, freeFd_free]
    · exact Iff.rfl
  poll g := by
    rw [hpolls, hpoll]
    exact hd.poll g
  instances g hg := by
    rw [hpolls] at hg
    rw [fileAt_install hfiles, if_neg (ne_freeFd (hd.instances g hg)), hd.instances g hg]
  held g d hg := by
    rw [fileAt_install hfiles] at hg
    split at hg
    · next he => exact he ▸ hfree
    · exact hheld g d hg (hd.held g d hg)
  foreign g hg hf := by
    rw [fileAt_install hfiles] at hf
    rw [hpolls]
    split at hf
    · cases hf
    · exact hd.foreign g (hnew g hf hg) hf
  single g g' d hg hg' := by
    rw [fileAt_install hfiles] at hg hg'
    split at hg <;> split at hg'
    · next h₁ h₂ => exact h₁.trans h₂.symm
    · obtain rfl : c = d := by simpa using hg
      exact absurd hg' (hc g')
    · obtain rfl : c = d := by simpa using hg'
      exact absurd hg (hc g)
    · exact hd.single g g' d hg hg'
  spent g d hg := by
    rw [fileAt_install hfiles] at hg
    split at hg
    · exact hspent d (.inr (by simpa using hg.symm))
    · exact hspent d (.inl (hd.spent g d hg))

end RasPiArduino.Bridge
