import RasPiArduino.Server
import RasPiArduino.Table

/-! What a step of the server model can do, said once, and what the nodes of the list keep
through writes. -/
namespace RasPiArduino.BridgeServer
open RasPiArduino.Net RasPiArduino.Table

theorem writeAll_table (data : List UInt8) (k : Kernel) (cs : List Node) :
    SameTable k (writeAll data k cs).2 := by
  induction cs generalizing k with
  | nil => exact .refl k
  | cons n ns ih => exact (n.client.write_table k data).trans (ih _)

def Node.ident (n : Node) : Int × Option Nat := (n.client.sockfd, n.conn)

theorem writeAll_ident (data : List UInt8) (k : Kernel) (cs : List Node) :
    (writeAll data k cs).1.map Node.ident = cs.map Node.ident := by
  induction cs generalizing k with
  | nil => rfl
  | cons n ns ih =>
    simp [writeAll, ih, Node.ident]

theorem mem_cleanup {k : Kernel} {cs : List Node} {n : Node} (h : n ∈ cleanup k cs) : n ∈ cs := by
  rw [cleanup_eq] at h
  exact List.mem_of_mem_filter h

theorem mem_write {s : State} {data : List UInt8} {n' : Node} (h : n' ∈ (write s data).clients) :
    ∃ n ∈ s.clients, n.ident = n'.ident := by
  have hident := writeAll_ident data s.kernel (cleanup s.kernel s.clients)
  obtain ⟨n, hn, he⟩ := List.mem_map.mp (hident ▸ List.mem_map_of_mem h)
  exact ⟨n, mem_cleanup hn, he⟩

theorem mem_setClient {cs : List Node} {i : Nat} {n m : Node} {c : BridgeClient}
    (hn : cs[i]? = some n) (hm : m ∈ cs.set i { n with client := c })
    (hc : c.sockfd = n.client.sockfd) : ∃ n' ∈ cs, n'.ident = m.ident := by
  obtain ⟨j, hj⟩ := List.getElem?_of_mem hm
  obtain ⟨rfl, rfl⟩ | ⟨-, hj⟩ := (row_set hn).mp hj
  · exact ⟨n, List.mem_of_getElem? hn, by simp [Node.ident, hc]⟩
  · exact ⟨m, List.mem_of_getElem? hj, rfl⟩

theorem conns_pairwise {cs : List Node} (hnd : (cs.filterMap Node.conn).Nodup) :
    cs.Pairwise fun a b => ∀ c, a.conn = some c → b.conn ≠ some c := by
  rw [List.Nodup, List.pairwise_filterMap] at hnd
  exact hnd.imp fun hne c ha hb => hne c ha c hb rfl

theorem place_unique {cs : List Node} (hnd : (cs.filterMap Node.conn).Nodup) {i j c : Nat}
    {a b : Node} (ha : cs[i]? = some a) (hb : cs[j]? = some b) (hac : a.conn = some c)
    (hbc : b.conn = some c) : i = j := by
  have hpair := conns_pairwise hnd
  obtain ⟨hi, rfl⟩ := List.getElem?_eq_some_iff.mp ha
  obtain ⟨hj, rfl⟩ := List.getElem?_eq_some_iff.mp hb
  rw [List.pairwise_iff_getElem] at hpair
  rcases Nat.lt_trichotomy i j with hij | hij | hij
  · exact absurd hbc (hpair i j hi hj hij c hac)
  · exact hij
  · exact absurd hac (hpair j i hj hi hij c hbc)

theorem conns_set {cs : List Node} {i : Nat} {n : Node} (hn : cs[i]? = some n)
    (c : BridgeClient) : (cs.set i { n with client := c }).filterMap Node.conn =
      cs.filterMap Node.conn := by
  have := map_set_eq (f := Node.conn) (y := { n with client := c }) hn rfl
  simpa [List.filterMap_map] using congrArg (List.filterMap id) this

/-- accept finds the backlog empty, or takes its first connection; only the number 0 is
taken for a failure. -/
theorem acceptClient_cases (s : State) :
    s.kernel.backlog = [] ∧
        acceptClient s = { s with clients := s.clients ++ [⟨⟨-1, true⟩, none⟩] } ∨
      ∃ c cs k, s.kernel.backlog = c :: cs ∧ k.files = install s.kernel.files (.conn c) ∧
        k.backlog = cs ∧ k.conns.length = s.kernel.conns.length ∧ k.edge = s.kernel.edge ∧
        (freeFd s.kernel.files ≠ 0 ∧ acceptClient s = { s with
            kernel := k
            clients := s.clients ++ [⟨⟨freeFd s.kernel.files, true⟩, some c⟩]
            listed := s.listed ++ [c] } ∨
          freeFd s.kernel.files = 0 ∧ acceptClient s = { s with kernel := k }) := by
  cases hb : s.kernel.backlog with
  | nil =>
    have ha : accept4 s.kernel = (-1, s.kernel) := by simp [accept4, hb]
    have hadd : epollAdd s.kernel (-1) = s.kernel := rfl
    exact .inl ⟨rfl, by simp [acceptClient, ha, hadd, hb]⟩
  | cons c cs =>
    right
    let k : Kernel := { s.kernel with files := install s.kernel.files (.conn c), backlog := cs }
    have ha : accept4 s.kernel = ((freeFd s.kernel.files : Int), k) := by simp [accept4, hb, k]
    by_cases h0 : freeFd s.kernel.files = 0
    · exact ⟨c, cs, k, rfl, rfl, rfl, rfl, rfl, .inr ⟨h0, by simp [acceptClient, ha, h0]⟩⟩
    · have hk := epollAdd_table k (freeFd s.kernel.files : Int)
      exact ⟨c, cs, epollAdd k (freeFd s.kernel.files : Int), rfl, hk.files, hk.backlog, hk.count,
        hk.edge, .inl ⟨h0, by simp [acceptClient, ha, h0, hb]⟩⟩

def Label.onCopy : Label → Bool
  | .copyRead _ _ | .copyReadBlock _ _ _ | .copyConnected _ | .copyWrite _ _ => true
  | _ => false

inductive Move (s : State) : Label → State → Prop where
  | arrive (a : Arrival) : Move s (.arrive a) { s with kernel := arrive s.kernel a }
  | poll (fds : List Nat) : s.pc = .idle → Reports s fds →
      Move s (.poll fds) { s with kernel := fds.foldl reported s.kernel, pc := .handling fds }
  | accept (junk : Int) (fd : Nat) (fds : List Nat) : s.pc = .handling (fd :: fds) →
      s.sockfd = fd → Move s (.handle junk) { acceptClient s with pc := .handling fds }
  | data (junk : Int) (fd : Nat) (fds : List Nat) : s.pc = .handling (fd :: fds) →
      s.sockfd ≠ fd → Move s (.handle junk) { incomingData s fd junk with pc := .handling fds }
  | finish : s.pc = .handling [] → Move s .finish (finish s)
  | write (data : List UInt8) : s.pc = .idle → Move s (.write data) (write s data)
  | copy (l : Label) (k : Kernel) (copies : List BridgeClient) : s.pc = .idle →
      l.onCopy = true → SameTable s.kernel k →
      copies.map BridgeClient.sockfd = s.copies.map BridgeClient.sockfd →
      Move s l { s with kernel := k, copies := copies }
  | copyStop (i : Nat) (c : BridgeClient) : s.pc = .idle → s.copies[i]? = some c →
      Move s (.copyStop i)
        { s with copies := s.copies.set i (c.stop s.kernel).1, kernel := (c.stop s.kernel).2 }

theorem onCopy_some {s t : State} {i : Nat} {f : BridgeClient → BridgeClient × Kernel}
    (h : onCopy s i f = some t) : s.pc = .idle ∧ ∃ c, s.copies[i]? = some c ∧
      { s with copies := s.copies.set i (f c).1, kernel := (f c).2 } = t := by
  simpa [onCopy, Option.ite_none_right_eq_some, Option.map_eq_some_iff] using h

theorem step_move {s t : State} {l : Label} (h : step s l = some t) : Move s l t := by
  cases l with
  | arrive a =>
    obtain rfl := Option.some.inj h
    exact .arrive a
  | poll fds =>
    simp only [step, Option.ite_none_right_eq_some, Option.some.injEq] at h
    obtain ⟨⟨hpc, hr⟩, rfl⟩ := h
    exact .poll fds hpc hr
  | handle junk =>
    simp only [step] at h
    split at h
    · next fd fds hpc =>
      obtain rfl := Option.some.inj h
      by_cases hfd : s.sockfd = fd
      · simpa [handle, hfd] using Move.accept junk fd fds hpc hfd
      · simpa [handle, hfd] using Move.data junk fd fds hpc hfd
    · cases h
  | finish =>
    simp only [step, Option.ite_none_right_eq_some, Option.some.injEq] at h
    obtain ⟨hpc, rfl⟩ := h
    exact .finish hpc
  | write data =>
    simp only [step, Option.ite_none_right_eq_some, Option.some.injEq] at h
    obtain ⟨hpc, rfl⟩ := h
    exact .write data hpc
  | copyRead i junk =>
    obtain ⟨hpc, c, hc, rfl⟩ := onCopy_some h
    exact .copy _ _ _ hpc rfl (c.readBlock_table s.kernel 1 junk)
      (map_set_eq hc (c.readBlock_sockfd s.kernel 1 junk))
  | copyReadBlock i size junk =>
    obtain ⟨hpc, c, hc, rfl⟩ := onCopy_some h
    exact .copy _ _ _ hpc rfl (c.readBlock_table s.kernel size junk)
      (map_set_eq hc (c.readBlock_sockfd s.kernel size junk))
  | copyConnected i =>
    obtain ⟨hpc, c, hc, rfl⟩ := onCopy_some h
    exact .copy _ _ _ hpc rfl (.refl _) (map_set_eq hc (c.connected_sockfd s.kernel))
  | copyWrite i data =>
    obtain ⟨hpc, c, hc, rfl⟩ := onCopy_some h
    exact .copy _ _ _ hpc rfl (c.write_table s.kernel data)
      (map_set_eq hc (c.write_sockfd s.kernel data))
  | copyStop i =>
    obtain ⟨hpc, c, hc, rfl⟩ := onCopy_some h
    exact .copyStop i c hpc hc

end RasPiArduino.BridgeServer
