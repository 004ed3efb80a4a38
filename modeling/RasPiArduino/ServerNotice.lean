import RasPiArduino.ServerAccept
import RasPiArduino.ServerClosing

/-! Whether the close of a peer is noticed. available() stops a client when it handles an
event of its descriptor with nothing left to read, and connected() finds out only from the
descriptor that stop() closed. -/
namespace RasPiArduino.BridgeServer
open RasPiArduino.Net RasPiArduino.Transition RasPiArduino.Table

/-- available() handles an event of the descriptor, and nothing of the connection is unread. -/
def emptyEvent (fd : Int) (c : Nat) (s : State) : Label → Bool
  | .handle _ => match s.pc with
    | .handling (g :: _) => fd == (g : Int) && (s.kernel.conns[c]?).any fun x => x.inbox.isEmpty
    | _ => false
  | _ => false

def Drained (s : State) (c : Nat) : Prop :=
  s.pc = .idle ∧ ∃ x, s.kernel.conns[c]? = some x ∧ x.fin = true ∧ x.inbox = []

/-- What is due then: connected() of the copy gives 0, and no node of the list has the
connection after the next available(), whatever else comes before and in it. -/
structure Noticed (s : State) (i c : Nat) : Prop where
  connected : ∀ x, s.copies[i]? = some x → (x.connected s.kernel).1 = false
  unlisted : ∀ ls t, (∀ l ∈ ls, l.reads = true ∧ l ≠ .finish) →
    run step (ls ++ [.finish]) s = some t → ∀ n ∈ t.clients, n.conn ≠ some c

/-- The number of the copy is not that of another connection by now, unless the copy was
found closed before. -/
def NotTaken (s : State) (i c : Nat) : Prop :=
  ∀ x d, s.copies[i]? = some x → x.flag = true → fileAt s.kernel x.sockfd = some (.conn d) → d = c

structure Settled (s : State) : Prop where
  steady : Steady s
  accounts : Accounts s
  nonZero : NonZero s

/-- The node is listed, its descriptor is the connection, and the copy is as it was made. -/
structure Open (s : State) (n : Node) (c i : Nat) : Prop where
  node : n ∈ s.clients
  file : fileAt s.kernel n.client.sockfd = some (.conn c)
  copy : s.copies[i]? = some n.client

/-- The connection has no descriptor and will not get one; its node is on the way out. The
copy's number is free, or went to another connection. -/
structure Gone (s : State) (c i : Nat) : Prop where
  nodes : ∀ n ∈ s.clients, n.conn = some c → n.client.flag = false
  file : ∀ g, fileAt s.kernel g ≠ some (.conn c)
  older : c ∉ s.kernel.backlog ∧ c < s.kernel.conns.length
  made : i < s.copies.length
  copy : ∀ x f, s.copies[i]? = some x → fileAt s.kernel x.sockfd = some f → ∃ d, f = .conn d

variable {s t : State} {l : Label} {ls : List Label} {fd : Nat} {fds : List Nat} {junk : Int}
  {n : Node} {c i : Nat}

theorem settled_begun (std : List Bool) : Settled (begun std) :=
  ⟨steady_begun std, accounts_begun std, by simp [NonZero, begun]⟩

theorem settled_step (h : Settled s) (hl : l.reads = true) (hs : step s l = some t) : Settled t :=
  ⟨steady_step h.steady hl hs, (accounts_step h.accounts hs).accounts, nonZero_step h.nonZero hs⟩

theorem copy_same {x : BridgeClient} {y : Conn} (hl : l.reads = true) (hcopy : l.onCopy = true)
    (hs : step s l = some t) (hx : s.copies[i]? = some x)
    (hf : fileAt s.kernel x.sockfd = some (.conn c)) (hy : s.kernel.conns[c]? = some y) :
    t.copies[i]? = some x := by
  have hkeep {j : Nat} {f : BridgeClient → BridgeClient × Kernel} (hj : onCopy s j f = some t)
      (hfx : (f x).1 = x) : t.copies[i]? = some x := by
    obtain ⟨-, z, hz, rfl⟩ := onCopy_some hj
    rw [row_set hz]
    by_cases hij : i = j
    · subst hij
      obtain rfl : x = z := by simpa [hx] using hz
      exact .inl ⟨rfl, hfx⟩
    · exact .inr ⟨hij, hx⟩
  cases l with
  | copyRead j junk => exact hkeep hs (x.readBlock_same hf hy 1 junk)
  | copyReadBlock j size junk => exact hkeep hs (x.readBlock_same hf hy size junk)
  | copyConnected j => exact hkeep hs (x.connected_open hf hy)
  | copyWrite j data => cases hl
  | _ => cases hcopy

theorem incomingData_unread {x : Conn} (hf : fileAt s.kernel fd = some (.conn c))
    (hx : s.kernel.conns[c]? = some x) (hne : x.inbox ≠ []) : incomingData s fd junk = s := by
  unfold incomingData
  split
  · rfl
  · next j hj =>
    split
    · rfl
    · next m hm =>
      have havail : m.client.available s.kernel junk = x.inbox.length := by
        simp [BridgeClient.available, fionread, clientByFd_some hj hm, hf, hx]
      rw [if_neg (by simp [havail, hne])]

theorem incomingData_empty (junk : Int) {x : Conn} (hn : n ∈ s.clients) (hfd : n.client.sockfd = fd)
    (hf : fileAt s.kernel fd = some (.conn c)) (hx : s.kernel.conns[c]? = some x)
    (he : x.inbox = []) : ∃ j m, s.clients[j]? = some m ∧ m.client.sockfd = (fd : Int) ∧
      incomingData s fd junk = { s with
        kernel := (m.client.stop s.kernel).2
        clients := s.clients.set j { m with client := (m.client.stop s.kernel).1 } } := by
  obtain ⟨j, hj⟩ : ∃ j, clientByFd s.clients fd = some j := by
    rw [← Option.isSome_iff_exists, clientByFd, List.findIdx?_isSome]
    exact List.any_eq_true.mpr ⟨n, hn, by simp [hfd]⟩
  obtain ⟨hlt, -, -⟩ := List.findIdx?_eq_some_iff_getElem.mp hj
  have hm : s.clients[j]? = some s.clients[j] := List.getElem?_eq_getElem hlt
  have hmfd := clientByFd_some hj hm
  have havail : s.clients[j].client.available s.kernel junk = 0 := by
    simp [BridgeClient.available, fionread, hmfd, hf, hx, he]
  refine ⟨j, s.clients[j], hm, hmfd, ?_⟩
  simp only [incomingData, hj, hm, if_pos havail]

theorem fileAt_stop_node (h : Settled s) (hn : n ∈ s.clients) (hfd : n.client.sockfd = fd)
    (g : Int) :
    fileAt (n.client.stop s.kernel).2 g = if g = fd then none else fileAt s.kernel g := by
  have hpos : n.client.sockfd > 0 := by
    have := h.nonZero n hn
    omega
  rw [BridgeClient.stop, if_pos hpos, fileAt_close, hfd]

/-- Without an event that finds nothing to read the connection stays open. -/
theorem open_step (hset : Settled s) (h : Open s n c i) (hf : n.client.flag = true)
    (hl : l.reads = true) (hs : step s l = some t)
    (hempty : emptyEvent n.client.sockfd c s l = false) : Open t n c i := by
  obtain ⟨x, hx⟩ : ∃ x, s.kernel.conns[c]? = some x :=
    ⟨_, List.getElem?_eq_getElem (hset.steady.accepted _ c h.file).2⟩
  cases step_move hs with
  | arrive a => exact ⟨h.node, (fileAt_congr (arrive_table s.kernel a).1 _).trans h.file, h.copy⟩
  | poll fds hpc hr =>
    exact ⟨h.node, (fileAt_congr (reportedAll_other fds s.kernel).1 _).trans h.file, h.copy⟩
  | accept junk fd fds hpc hfd =>
    obtain ⟨hb, ha⟩ | ⟨d, ds, k, hb, hk, -, -, -, ha⟩ := acceptClient_cases s
    · rw [ha]
      exact ⟨List.mem_append_left _ h.node, h.file, h.copy⟩
    · have hfile : fileAt k n.client.sockfd = some (.conn c) := by
        rw [fileAt_install hk, if_neg (ne_freeFd h.file), h.file]
      obtain ⟨-, ha⟩ | ⟨-, ha⟩ := ha <;> rw [ha]
      · exact ⟨List.mem_append_left _ h.node, hfile, h.copy⟩
      · exact ⟨h.node, hfile, h.copy⟩
  | data junk fd fds hpc hfd =>
    by_cases hn : n.client.sockfd = fd
    · have hne : x.inbox ≠ [] := by
        rintro he
        simp [emptyEvent, hpc, hn, hx, he] at hempty
      rw [incomingData_unread (hn ▸ h.file) hx hne]
      exact ⟨h.node, h.file, h.copy⟩
    · obtain he | ⟨j, m, hm, hmfd, he⟩ := incomingData_cases s fd junk <;> rw [he]
      · exact ⟨h.node, h.file, h.copy⟩
      · refine ⟨?_, ?_, h.copy⟩
        · obtain ⟨k, hk⟩ := List.getElem?_of_mem h.node
          refine List.mem_of_getElem? ((row_set hm).mpr (.inr ⟨?_, hk⟩))
          rintro rfl
          obtain rfl : n = m := by simpa [hk] using hm
          exact hn hmfd
        · rw [fileAt_stop_node hset (List.mem_of_getElem? hm) hmfd, if_neg hn, h.file]
  | finish hpc =>
    refine ⟨?_, h.file, row_append_left h.copy⟩
    simp only [finish, cleanup_eq, List.mem_filter]
    exact ⟨h.node, connectedNode_iff.mpr ⟨hf, by simp [h.file]⟩⟩
  | write data hpc => cases hl
  | copy l k copies hpc hcopy hk hcs =>
    exact ⟨h.node, (fileAt_congr hk.files _).trans h.file, copy_same hl hcopy hs h.copy h.file hx⟩
  | copyStop j x hpc hx => cases hl

/-- With such an event the connection is gone. -/
theorem open_stopped (hset : Settled s) (h : Open s n c i) (hs : step s l = some t)
    (hempty : emptyEvent n.client.sockfd c s l = true) : Gone t c i := by
  cases step_move hs with
  | data junk fd fds hpc hfd =>
    obtain ⟨x, hx⟩ : ∃ x, s.kernel.conns[c]? = some x :=
      ⟨_, List.getElem?_eq_getElem (hset.steady.accepted _ c h.file).2⟩
    obtain ⟨hn, he⟩ : n.client.sockfd = fd ∧ x.inbox = [] := by
      simpa [emptyEvent, hpc, hx] using hempty
    have hfile : fileAt s.kernel fd = some (.conn c) := hn ▸ h.file
    obtain ⟨j, m, hm, hmfd, he⟩ := incomingData_empty junk h.node hn hfile hx he
    have hmem := List.mem_of_getElem? hm
    have hstop := fileAt_stop_node hset hmem hmfd
    obtain ⟨hb, hcs, -⟩ := stop_table m.client s.kernel
    obtain ⟨-, d, hd, hfd'⟩ := hset.steady.found hpc hm hmfd
    obtain rfl : c = d := by simpa [hfile] using hfd'
    rw [he]
    refine ⟨fun p hp hpcn => ?_, fun g hg => ?_, ?_, row_lt h.copy, fun y f hy hf => ?_⟩
    · obtain ⟨k, hk⟩ := List.getElem?_of_mem hp
      obtain ⟨-, rfl⟩ | ⟨hkj, hk⟩ := (row_set hm).mp hk
      · rfl
      · exact absurd (place_unique hset.steady.apart.conns hk hm hpcn hd) hkj
    · rw [hstop] at hg
      split at hg
      · cases hg
      · next hg' => exact hg' (hset.steady.single g fd c hg hfile)
    · dsimp only
      rw [hb, hcs]
      exact hset.steady.accepted fd c hfile
    · obtain rfl : n.client = y := by simpa [h.copy] using hy
      rw [hstop, if_pos hn] at hf
      cases hf
  | accept junk fd fds hpc hfd =>
    have hn : n.client.sockfd = fd := by
      simp only [emptyEvent, hpc, Bool.and_eq_true, beq_iff_eq] at hempty
      exact hempty.1
    exact absurd (hn.trans hfd.symm) (hset.accounts.nodes n h.node)
  | copy l k copies hpc hcopy hk hcs =>
    cases l <;> first | cases hempty | cases hcopy
  | _ => cases hempty

theorem Gone.frame {k : Kernel} (h : Gone s c i) (hfile : ∀ g, fileAt k g = fileAt s.kernel g)
    (holder : c ∉ k.backlog ∧ c < k.conns.length) : Gone { s with kernel := k } c i where
  nodes := h.nodes
  file g := (hfile g).symm ▸ h.file g
  older := holder
  made := h.made
  copy x f hx hf := h.copy x f hx (hfile x.sockfd ▸ hf)

theorem Gone.handling (h : Gone s c i) (pc : Pc) : Gone { s with pc } c i :=
  ⟨h.nodes, h.file, h.older, h.made, h.copy⟩

/-- An accepted connection is another one, as the one that is gone does not wait any more. -/
theorem Gone.accept (h : Gone s c i) : Gone (acceptClient s) c i := by
  obtain ⟨hb, ha⟩ | ⟨d, ds, k, hb, hk, hkb, hkc, -, ha⟩ := acceptClient_cases s
  · rw [ha]
    refine ⟨fun m hm hmc => ?_, h.file, h.older, h.made, h.copy⟩
    obtain hm | rfl : m ∈ s.clients ∨ m = ⟨⟨-1, true⟩, none⟩ := by simpa using hm
    · exact h.nodes m hm hmc
    · cases hmc
  · have hold := h.older
    rw [hb, List.mem_cons, not_or] at hold
    have hfile : ∀ g, fileAt k g ≠ some (.conn c) := by
      intro g hg
      rw [fileAt_install hk] at hg
      split at hg
      · obtain rfl : d = c := by simpa using hg
        exact hold.1.1 rfl
      · exact h.file g hg
    have holder : c ∉ k.backlog ∧ c < k.conns.length := by
      rw [hkb, hkc]
      exact ⟨hold.1.2, hold.2⟩
    have hcopy : ∀ x f, s.copies[i]? = some x → fileAt k x.sockfd = some f →
        ∃ d, f = .conn d := by
      intro x f hx hf
      rw [fileAt_install hk] at hf
      split at hf
      · exact ⟨d, (Option.some.inj hf).symm⟩
      · exact h.copy x f hx hf
    obtain ⟨-, ha⟩ | ⟨-, ha⟩ := ha <;> rw [ha]
    · refine ⟨fun m hm hmc => ?_, hfile, holder, h.made, hcopy⟩
      obtain hm | rfl : m ∈ s.clients ∨ m = ⟨⟨freeFd s.kernel.files, true⟩, some d⟩ := by
        simpa using hm
      · exact h.nodes m hm hmc
      · obtain rfl : d = c := by simpa using hmc
        exact absurd rfl hold.1.1
    · exact ⟨h.nodes, hfile, holder, h.made, hcopy⟩

theorem Gone.data (h : Gone s c i) (fd : Nat) (junk : Int) : Gone (incomingData s fd junk) c i := by
  obtain he | ⟨j, m, hm, hmfd, he⟩ := incomingData_cases s fd junk <;> rw [he]
  · exact h
  · obtain ⟨hb, hcs, -⟩ := stop_table m.client s.kernel
    refine ⟨fun p hp hpc => ?_, fun g hg => h.file g (fileAt_stop_some hg), ?_, h.made,
      fun x f hx hf => h.copy x f hx (fileAt_stop_some hf)⟩
    · obtain ⟨k, hk⟩ := List.getElem?_of_mem hp
      obtain ⟨-, rfl⟩ | ⟨-, hk⟩ := (row_set hm).mp hk
      · rfl
      · exact h.nodes p (List.mem_of_getElem? hk) hpc
    · dsimp only
      rw [hb, hcs]
      exact h.older

theorem Gone.finished (h : Gone s c i) : Gone (finish s) c i := by
  refine ⟨fun m hm => h.nodes m (mem_cleanup hm), h.file, h.older, ?_, ?_⟩
  · have hmade := h.made
    simp only [finish, List.length_append]
    omega
  · intro x f hx
    refine h.copy x f ?_
    rwa [finish, List.getElem?_append_left h.made] at hx

theorem Gone.copied {copies : List BridgeClient} (h : Gone s c i)
    (hcs : copies.map BridgeClient.sockfd = s.copies.map BridgeClient.sockfd) :
    Gone { s with copies } c i := by
  refine ⟨h.nodes, h.file, h.older, ?_, ?_⟩
  · have hlen := congrArg List.length hcs
    rw [List.length_map, List.length_map] at hlen
    exact hlen ▸ h.made
  · intro x f hx hf
    have hmap : (s.copies.map BridgeClient.sockfd)[i]? = some x.sockfd := by
      rw [← hcs, List.getElem?_map, hx]
      rfl
    obtain ⟨y, hy, hxy⟩ : ∃ y, s.copies[i]? = some y ∧ y.sockfd = x.sockfd := by
      simpa [List.getElem?_map, Option.map_eq_some_iff] using hmap
    exact h.copy y f hy (by rw [hxy]; exact hf)

theorem gone_step (h : Gone s c i) (hl : l.reads = true) (hs : step s l = some t) :
    Gone t c i := by
  cases step_move hs with
  | arrive a => exact h.frame (fileAt_congr (arrive_table s.kernel a).1) (arrive_spent h.older a)
  | poll fds hpc hr =>
    obtain ⟨hf, hb, hc⟩ := reportedAll_other fds s.kernel
    refine (h.frame (fileAt_congr hf) ?_).handling _
    rw [hb, hc]
    exact h.older
  | accept junk fd fds hpc hfd => exact h.accept.handling _
  | data junk fd fds hpc hfd => exact (h.data fd junk).handling _
  | finish hpc => exact h.finished
  | write data hpc => cases hl
  | copy l k copies hpc hcopy hk hcs =>
    refine (h.frame (fileAt_congr hk.files) ?_).copied hcs
    rw [hk.backlog, hk.count]
    exact h.older
  | copyStop j x hpc hx => cases hl

theorem gone_run (h : Gone s c i) (hl : ∀ l ∈ ls, l.reads = true)
    (hr : run step ls s = some t) : Gone t c i :=
  run_invariant (Q := fun _ (l : Label) _ => l.reads = true)
    (fun _ _ _ h hs hl => gone_step h hl hs) h hr (along_of_labels hl s)

/-- A run from where the copy was made leaves the connection open, or it is gone, by
whether some event was handled with nothing unread. -/
theorem open_run (hset : Settled s) (h : Open s n c i) (hf : n.client.flag = true)
    (hl : ∀ l ∈ ls, l.reads = true) (hr : run step ls s = some t) :
    Open t n c i ∧ Along step (fun s l _ => emptyEvent n.client.sockfd c s l = false) ls s ∨
      Gone t c i ∧ ¬ Along step (fun s l _ => emptyEvent n.client.sockfd c s l = false) ls s := by
  induction ls generalizing s with
  | nil =>
    obtain rfl : s = t := by simpa using hr
    exact .inl ⟨h, trivial⟩
  | cons l ls ih =>
    obtain ⟨m, hm, hr⟩ := run_cons_some.mp hr
    have hl₁ := hl l List.mem_cons_self
    have hl₂ : ∀ l ∈ ls, l.reads = true := fun k hk => hl k (List.mem_cons_of_mem l hk)
    rw [along_cons_of_step hm]
    cases he : emptyEvent n.client.sockfd c s l with
    | false =>
      obtain ⟨ho, ha⟩ | ⟨hg, ha⟩ := ih (settled_step hset hl₁ hm) (open_step hset h hf hl₁ hm he)
        hl₂ hr
      · exact .inl ⟨ho, rfl, ha⟩
      · exact .inr ⟨hg, fun hq => ha hq.2⟩
    | true =>
      exact .inr ⟨gone_run (open_stopped hset h hm he) hl₂ hr, fun hq => nomatch hq.1⟩

theorem Open.not_noticed (h : Open s n c i) (hf : n.client.flag = true) : ¬ Noticed s i c := by
  intro hn
  have hconn := hn.connected n.client h.copy
  simp [BridgeClient.connected_eq, hf, h.file] at hconn

theorem Gone.noticed_iff (h : Gone s c i) : Noticed s i c ↔ NotTaken s i c := by
  constructor
  · intro hn x d hx hf hfile
    have hconn := hn.connected x hx
    simp [BridgeClient.connected_eq, hf, hfile] at hconn
  · intro hn
    refine ⟨fun x hx => ?_, fun ls t hls hr m hm hmc => ?_⟩
    · rw [BridgeClient.connected_eq]
      cases hf : x.flag with
      | false => rfl
      | true =>
        cases hfile : fileAt s.kernel x.sockfd with
        | none => rfl
        | some f =>
          obtain ⟨d, rfl⟩ := h.copy x f hx hfile
          obtain rfl := hn x d hx hf hfile
          exact absurd hfile (h.file x.sockfd)
    · obtain ⟨u, hu, ht⟩ := run_append_some.mp hr
      have hgone := gone_run h (fun l hl => (hls l hl).1) hu
      obtain ⟨v, hv, hvt⟩ := run_cons_some.mp ht
      obtain rfl : v = t := by simpa using hvt
      obtain ⟨-, rfl⟩ : u.pc = .handling [] ∧ finish u = v := by
        simpa [step, Option.ite_none_right_eq_some] using hv
      have hmu := hgone.nodes m (mem_cleanup hm) hmc
      simp only [finish, cleanup_eq, List.mem_filter] at hm
      rw [(connectedNode_iff.mp hm.2).1] at hmu
      cases hmu

/-- A peer that closed is noticed exactly when, since the client was returned, an event of
its descriptor was handled at a moment with nothing unread, and the number that was then
closed is not that of another connection by now. -/
theorem closed_peer_noticed_iff (std : List Bool) {ls ms : List Label} {s t : State} {n : Node}
    {c : Nat} (hls : ∀ l ∈ ls ++ ms, l.reads = true) (hs : run step ls (begun std) = some s)
    (ht : run step (.finish :: ms) s = some t) (hn : n ∈ (finish s).clients)
    (hc : n.conn = some c) (hcopy : (finish s).copies[s.copies.length]? = some n.client) :
    Drained t c → (Noticed t s.copies.length c ↔
      ¬ Along step (fun u l _ => emptyEvent n.client.sockfd c u l = false) ms (finish s) ∧
        NotTaken t s.copies.length c) := by
  intro _
  have hset : Settled s :=
    run_invariant (Q := fun _ (l : Label) _ => l.reads = true)
      (fun _ _ _ h hs hl => settled_step h hl hs) (settled_begun std) hs
      (along_of_labels (fun l hl => hls l (List.mem_append_left ms hl)) _)
  obtain ⟨u, hu, ht⟩ := run_cons_some.mp ht
  obtain rfl : finish s = u := by
    simp only [step, Option.ite_none_right_eq_some, Option.some.injEq] at hu
    exact hu.2
  have hset' := settled_step hset rfl hu
  have hnode := hn
  simp only [finish, cleanup_eq, List.mem_filter] at hnode
  obtain ⟨hf, -⟩ := connectedNode_iff.mp hnode.2
  have hopen : Open (finish s) n c s.copies.length := by
    refine ⟨hn, ?_, hcopy⟩
    obtain rfl | ⟨d, hd, hfile⟩ := hset'.steady.flagged n hn hf
    · cases hc
    · obtain rfl : d = c := by simpa [hd] using hc
      exact hfile
  obtain ⟨ho, ha⟩ | ⟨hg, ha⟩ := open_run hset' hopen hf
    (fun l hl => hls l (List.mem_append_right ls hl)) ht
  · exact ⟨fun h => absurd h (ho.not_noticed hf), fun h => absurd ha h.1⟩
  · rw [hg.noticed_iff]
    exact ⟨fun h => ⟨ha, h⟩, And.right⟩

def sendOne : List Label :=
  [.arrive (.connect 100), .poll [3], .handle 0, .finish, .arrive (.data 0 [1]), .poll [5],
    .handle 0]

def readThenClose : List Label :=
  [.copyRead 1 0, .arrive (.fin 0), .poll [5], .handle 0, .finish]

theorem early_read_noticed : ∃ s t, run step sendOne (begun [true, true, true]) = some s ∧
    run step (.finish :: readThenClose) s = some t ∧ Noticed t 1 0 := by
  refine ⟨_, _, rfl, rfl, (closed_peer_noticed_iff [true, true, true]
    (by decide : ∀ l ∈ sendOne ++ readThenClose, l.reads = true) rfl rfl
    (n := ⟨⟨5, true⟩, some 0⟩) (c := 0) (by decide) rfl rfl ⟨rfl, _, rfl, rfl, rfl⟩).mpr
    ⟨by decide, ?_⟩⟩
  rintro x d hx - hfile
  obtain rfl : (⟨5, true⟩ : BridgeClient) = x := Option.some.inj hx
  cases hfile

def sendAndClose : List Label :=
  [.arrive (.connect 100), .poll [3], .handle 0, .finish, .arrive (.data 0 [1]),
    .arrive (.fin 0), .poll [5], .handle 0]

/-- No event is left then, and the sketch, having read all, is told that the peer is there. -/
theorem late_read_unnoticed : ¬ ∀ (std : List Bool) (ls ms : List Label) (s t : State) (n : Node)
    (c : Nat), (∀ l ∈ ls ++ ms, l.reads = true) → run step ls (begun std) = some s →
    run step (.finish :: ms) s = some t → n ∈ (finish s).clients → n.conn = some c →
    (finish s).copies[s.copies.length]? = some n.client → Drained t c →
    Noticed t s.copies.length c := by
  intro h
  have hn := h [true, true, true] sendAndClose [.copyRead 1 0] _ _ ⟨⟨5, true⟩, some 0⟩ 0
    (by decide) rfl rfl (by decide) rfl rfl ⟨rfl, _, rfl, rfl, rfl⟩
  have hconn := hn.connected ⟨5, true⟩ rfl
  revert hconn
  decide

end RasPiArduino.BridgeServer
