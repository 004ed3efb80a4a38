import RasPiArduino.BridgeCareful

/-! stop() and end(): careful calls close what the object was given, once, and that was the
last of it. -/
namespace RasPiArduino.Bridge
open RasPiArduino.Net RasPiArduino.BridgeServer RasPiArduino.Transition RasPiArduino.Table

structure Rest (w t : World) : Prop where
  clients : t.clients = w.clients
  handles : t.handles = w.handles
  sockfd : t.sockfd = w.sockfd
  pollfd : t.pollfd = w.pollfd
  pc : t.pc = w.pc
  backlog : t.kernel.backlog = w.kernel.backlog
  conns : t.kernel.conns = w.kernel.conns

/-- The nodes `ns` have been stopped: their numbers are closed, and no others. -/
structure Stops (w t : World) (ns : List Node) : Prop where
  rest : Rest w t
  safe : Descriptors t ∧ InOrder t
  closed : ∀ g f, fileAt t.kernel g = some f →
    fileAt w.kernel g = some f ∧ ∀ n ∈ ns, n.client.sockfd ≠ g
  kept : ∀ g, (∀ n ∈ ns, n.client.sockfd ≠ g) → fileAt t.kernel g = fileAt w.kernel g
  stopped : ∀ c ∈ t.stopped, c ∈ w.stopped ∨ c ∈ ns.filterMap Node.conn

variable {w t : World} {i : Nat} {h : Handle} {g fd : Int} {n : Node} {ns : List Node}
  {conn : Option Nat}

theorem Rest.trans {u : World} (h : Rest w t) (h' : Rest t u) : Rest w u :=
  ⟨h'.clients.trans h.clients, h'.handles.trans h.handles, h'.sockfd.trans h.sockfd,
    h'.pollfd.trans h.pollfd, h'.pc.trans h.pc, h'.backlog.trans h.backlog,
    h'.conns.trans h.conns⟩

theorem Rest.spent (h : Rest w t) {c : Nat} (hc : Spent w.kernel c) : Spent t.kernel c := by
  unfold Spent
  rw [h.backlog, h.conns]
  exact hc

theorem Given.not_other (hg : Given w.kernel g conn) (hd : Descriptors w) :
    fileAt w.kernel g ≠ some .listener ∧ g ∉ w.polls := by
  constructor
  · intro hl
    obtain hn | hc := hg
    · rw [hl] at hn
      cases hn
    · rw [hl] at hc
      cases conn <;> cases hc
  · intro hp
    have ho := hd.instances g hp
    obtain hn | hc := hg
    · rw [ho] at hn
      cases hn
    · rw [ho] at hc
      cases conn <;> cases hc

theorem closeFd_rest (w : World) (fd : Int) (again : Bool) (own : Option File) :
    Rest w (closeFd w fd again own) := by
  obtain ⟨hb, hc, -⟩ := close_table w.kernel fd
  exact ⟨rfl, rfl, rfl, rfl, rfl, hb, hc⟩

theorem closeFd_descriptors (hd : Descriptors w) (hg : Given w.kernel fd conn) (again : Bool)
    (own : Option File) : Descriptors (closeFd w fd again own) := by
  have hrest := closeFd_rest w fd again own
  obtain ⟨hnl, hnp⟩ := hg.not_other hd
  have hfile (g : Int) : fileAt (closeFd w fd again own).kernel g =
      if g = fd then none else fileAt w.kernel g := fileAt_close w.kernel fd g
  refine hd.frame rfl rfl ?_ (fun g f hf => ?_) (fun g hkeep => ?_) (fun _ _ _ hh => hh)
    (fun _ _ hh => hh) (fun c hc => hrest.spent hc)
  · refine List.filter_eq_self.mpr fun g hg => ?_
    have : g ≠ fd := fun he => hnp (he ▸ hg)
    simpa using this
  · rw [hfile] at hf
    split at hf
    · cases hf
    · exact hf
  · rw [hfile, if_neg]
    rintro rfl
    exact hkeep.elim hnl hnp

theorem closeFd_inOrder {own : Option File} (hs : InOrder w)
    (hg : fileAt w.kernel fd = none ∨ fileAt w.kernel fd = own) :
    InOrder (closeFd w fd false own) := by
  intro x hx
  obtain hx | rfl : x ∈ w.closings ∨ x = ⟨false, own, fileAt w.kernel fd⟩ := by
    simpa [closeFd] using hx
  · exact hs x hx
  · exact ⟨rfl, hg⟩

theorem stopNode_core (w : World) (n : Node) :
    core (stopNode w n) = { core w with kernel := (n.client.stop w.kernel).2 } := by
  unfold stopNode
  split
  · next hpos => simp only [core, closeFd, BridgeClient.stop, if_pos hpos]
  · next hpos => simp only [core, BridgeClient.stop, if_neg hpos]

theorem stopNode_kernel (w : World) (n : Node) :
    (stopNode w n).kernel = (n.client.stop w.kernel).2 :=
  congrArg State.kernel (stopNode_core w n)

theorem stopNode_stops (hd : Descriptors w) (hs : InOrder w) (hz : n.client.sockfd ≠ 0)
    (hg : Given w.kernel n.client.sockfd n.conn) (hn : ∀ c, n.conn = some c → c ∉ w.stopped) :
    Stops w (stopNode w n) [n] := by
  have hagain : n.conn.any (· ∈ w.stopped) = false := by
    cases hc : n.conn with
    | none => rfl
    | some c => simpa using hn c hc
  unfold stopNode
  split
  · next hpos =>
    have hrest := closeFd_rest w n.client.sockfd (n.conn.any (· ∈ w.stopped)) (n.conn.map .conn)
    have hsafe := closeFd_descriptors hd hg (n.conn.any (· ∈ w.stopped)) (n.conn.map .conn)
    have horder : InOrder (closeFd w n.client.sockfd (n.conn.any (· ∈ w.stopped))
        (n.conn.map .conn)) := by
      rw [hagain]
      exact closeFd_inOrder hs hg
    refine ⟨⟨hrest.clients, hrest.handles, hrest.sockfd, hrest.pollfd, hrest.pc, hrest.backlog,
      hrest.conns⟩, ⟨⟨hsafe.listener, hsafe.poll, hsafe.instances, hsafe.held, hsafe.foreign,
      hsafe.single, hsafe.spent⟩, horder⟩, fun g f hf => ?_, fun g hg => ?_, fun c hc => ?_⟩
    · replace hf : fileAt (close w.kernel n.client.sockfd) g = some f := hf
      rw [fileAt_close] at hf
      split at hf
      · cases hf
      · next hne => exact ⟨hf, by simpa using Ne.symm hne⟩
    · refine (fileAt_close w.kernel n.client.sockfd g).trans (if_neg ?_)
      exact Ne.symm (hg n List.mem_cons_self)
    · simpa [closeFd, List.mem_append, Option.mem_toList, eq_comm] using hc
  · next hpos =>
    have hneg : n.client.sockfd < 0 := by omega
    refine ⟨⟨rfl, rfl, rfl, rfl, rfl, rfl, rfl⟩, ⟨hd, hs⟩, fun g f hf => ⟨hf, ?_⟩,
      fun _ _ => rfl, fun c hc => .inl hc⟩
    intro m hm he
    obtain rfl : m = n := by simpa using hm
    rw [← he, fileAt_neg _ hneg] at hf
    cases hf

/-- stopAll() stops one node after the other; each finds its own descriptor, or none. -/
theorem stopAll_stops (hd : Descriptors w) (hs : InOrder w)
    (hz : ∀ n ∈ ns, n.client.sockfd ≠ 0) (hg : GivenAll w.kernel ns)
    (hn : ∀ n ∈ ns, ∀ c, n.conn = some c → c ∉ w.stopped) (hnd : (ns.filterMap Node.conn).Nodup) :
    Stops w (stopAll w ns) ns := by
  induction ns generalizing w with
  | nil =>
    exact ⟨⟨rfl, rfl, rfl, rfl, rfl, rfl, rfl⟩, ⟨hd, hs⟩, fun g f hf => ⟨hf, nofun⟩, fun _ _ => rfl,
      fun c hc => .inl hc⟩
  | cons n ns ih =>
    obtain ⟨hgiven, hrests⟩ := hg
    rw [← stopNode_kernel] at hrests
    have hfirst := stopNode_stops hd hs (hz n List.mem_cons_self) hgiven (hn n List.mem_cons_self)
    have hfresh : ∀ m ∈ ns, ∀ c, m.conn = some c → c ∉ (stopNode w n).stopped := by
      intro m hm c hc hstop
      obtain hold | hnew := hfirst.stopped c hstop
      · exact hn m (List.mem_cons_of_mem n hm) c hc hold
      · obtain ⟨k, hk, hkc⟩ := List.mem_filterMap.mp hnew
        obtain rfl : k = n := by simpa using hk
        rw [List.filterMap_cons_some hkc, List.nodup_cons] at hnd
        exact hnd.1 (List.mem_filterMap.mpr ⟨m, hm, hc⟩)
    have hnd' : (ns.filterMap Node.conn).Nodup :=
      hnd.sublist ((List.sublist_cons_self n ns).filterMap _)
    have hrest := ih hfirst.safe.1 hfirst.safe.2 (fun m hm => hz m (List.mem_cons_of_mem n hm))
      hrests hfresh hnd'
    refine ⟨hfirst.rest.trans hrest.rest, hrest.safe, fun g f hf => ?_, fun g hg => ?_,
      fun c hc => ?_⟩
    · obtain ⟨hmid, hne⟩ := hrest.closed g f hf
      obtain ⟨hw, hne'⟩ := hfirst.closed g f hmid
      refine ⟨hw, fun m hm => ?_⟩
      obtain rfl | hm := List.mem_cons.mp hm
      · exact hne' m List.mem_cons_self
      · exact hne m hm
    · refine (hrest.kept g fun m hm => hg m (List.mem_cons_of_mem n hm)).trans
        (hfirst.kept g fun m hm => ?_)
      obtain rfl : m = n := by simpa using hm
      exact hg m List.mem_cons_self
    · rw [show n :: ns = [n] ++ ns from rfl, List.filterMap_append, List.mem_append]
      obtain hc | hc := hrest.stopped c hc
      · exact (hfirst.stopped c hc).imp_right .inl
      · exact .inr (.inr hc)

theorem safe_end (hs : Safe w) (hpc : w.pc = .idle)
    (hg : GivenAll w.kernel w.clients) : Safe (end_ w) := by
  have hl := hs.listed
  have hall := stopAll_stops hs.descriptors hs.closings hl.nonZero hg (hl.idle hpc) hl.conns
  obtain ⟨hd, horder⟩ := hall.safe
  have hrest := hall.rest
  have hrest' := closeFd_rest (stopAll w w.clients) (stopAll w w.clients).sockfd false
    (some .listener)
  have hfile (g : Int) : fileAt (end_ w).kernel g =
      if g = (stopAll w w.clients).sockfd then none else fileAt (stopAll w w.clients).kernel g :=
    fileAt_close _ _ g
  have hback : ∀ g f, fileAt (end_ w).kernel g = some f →
      fileAt (stopAll w w.clients).kernel g = some f ∧ g ≠ (stopAll w w.clients).sockfd := by
    intro g f hf
    rw [hfile] at hf
    split at hf
    · cases hf
    · next hne => exact ⟨hf, hne⟩
  -- the listener's number is no epoll instance
  have hnp : (stopAll w w.clients).sockfd ∉ (stopAll w w.clients).polls := by
    intro hp
    have hi := hd.instances _ hp
    have hpos := ((hd.poll _).mp hp).2
    rw [((hd.listener _).mpr ⟨rfl, by have := (hd.poll _).mp hp; omega⟩)] at hi
    cases hi
  have hpolls : (end_ w).polls = (stopAll w w.clients).polls := by
    refine List.filter_eq_self.mpr fun g hg => ?_
    have : g ≠ (stopAll w w.clients).sockfd := fun he => hnp (he ▸ hg)
    simpa using this
  have hspent : ∀ c, Spent w.kernel c → Spent (end_ w).kernel c := by
    rintro c ⟨-, hlt⟩
    have hconns : (end_ w).kernel.conns = w.kernel.conns := hrest'.conns.trans hrest.conns
    exact ⟨List.not_mem_nil, hconns ▸ hlt⟩
  have hheld : ∀ g c, fileAt (end_ w).kernel g = some (.conn c) → Held (end_ w) g := by
    intro g c hg
    obtain ⟨hmid, -⟩ := hback g _ hg
    obtain ⟨hw, hne⟩ := hall.closed g _ hmid
    obtain ⟨n, hn, -, hng⟩ | ⟨h, hh, hf⟩ := held_iff.mp (hs.descriptors.held g c hw)
    · exact absurd hng (hne n hn)
    · exact held_iff.mpr (.inr ⟨h, hrest.handles.symm ▸ hh, hf⟩)
  refine ⟨⟨fun g => ?_, fun g => ?_, fun g hg => ?_, hheld, fun g hg hf => ?_, fun g g' c hg hg' =>
    hd.single g g' c (hback g _ hg).1 (hback g' _ hg').1, fun g c hg => ?_⟩, ?_, ?_⟩
  · refine iff_of_false (fun hg => ?_) (fun hg => absurd hg.2 (by decide : ¬ (0 : Int) ≤ -1))
    obtain ⟨hmid, hne⟩ := hback g _ hg
    exact hne ((hd.listener g).mp hmid).1
  · rw [hpolls]
    exact hd.poll g
  · rw [hpolls] at hg
    rw [hfile, if_neg, hd.instances g hg]
    rintro rfl
    exact hnp hg
  · rw [hpolls]
    refine hd.foreign g ?_ (hback g _ hf).1
    obtain ⟨n, hn, -⟩ | hh := held_iff.mp hg
    · cases hn
    · exact held_iff.mpr (.inr hh)
  · exact hspent c (hs.descriptors.spent g c (hall.closed g _ (hback g _ hg).1).1)
  · refine ⟨List.nodup_nil, nofun, ⟨List.nodup_nil, nofun⟩, nofun, nofun, fun c hc => ?_, ?_⟩
    · refine hspent c ?_
      obtain hc | hc := hall.stopped c hc
      · exact hl.past c hc
      · exact hl.spent c hc
    · intro fds hf
      have : (end_ w).pc = w.pc := hrest'.pc.trans hrest.pc
      rw [hf, hpc] at this
      cases this
  · refine closeFd_inOrder horder ?_
    by_cases hpos : 0 ≤ (stopAll w w.clients).sockfd
    · exact .inr ((hd.listener _).mpr ⟨rfl, hpos⟩)
    · exact .inl (fileAt_neg _ (by omega))

theorem safe_stop (hs : Safe w) (hh : w.handles[i]? = some h)
    (hc : if h.client.sockfd > 0 then h.closed = false ∧ Given w.kernel h.client.sockfd h.conn
      else LetsGo w i h) : Safe (stop w i h) := by
  have hl := hs.listed
  unfold stop
  split
  · next hpos =>
    rw [if_pos hpos] at hc
    have hrest := closeFd_rest w h.client.sockfd h.closed (h.conn.map .conn)
    have hd := closeFd_descriptors hs.descriptors hc.2 h.closed (h.conn.map .conn)
    have hbut (g : Int) := held_set (t := { closeFd w h.client.sockfd h.closed (h.conn.map .conn)
      with
      handles := w.handles.set i
        { h with client := (h.client.stop w.kernel).1, closed := true } }) (g := g) hh rfl rfl
    have hold (g : Int) := held_at (g := g) hh
    refine ⟨hd.frame rfl rfl rfl (fun _ _ hf => hf) (fun _ _ => rfl) (fun g c hg hheld => ?_)
      (fun g _ hheld => ?_) (fun _ hc => hc), ⟨hl.conns, fun c hc => hrest.spent (hl.spent c hc),
      ?_, hl.nonZero, hl.stopped, fun c hc => hrest.spent (hl.past c hc), hl.events⟩, ?_⟩
    · obtain ⟨-, he⟩ | hother := (hold g).mp hheld
      · have hclosed : fileAt (close w.kernel h.client.sockfd) g = some (.conn c) := hg
        rw [fileAt_close, if_pos he.symm] at hclosed
        cases hclosed
      · exact (hbut g).mpr (.inr hother)
    · obtain ⟨hf, -⟩ | hother := (hbut g).mp hheld
      · cases hf
      · exact (hold g).mpr (.inr hother)
    · dsimp only
      rw [hrest.backlog, hrest.conns]
      exact hl.backlog
    · have horder : InOrder (closeFd w h.client.sockfd h.closed (h.conn.map .conn)) := by
        rw [hc.1]
        exact closeFd_inOrder hs.closings hc.2
      exact horder
  · next hpos =>
    rw [if_neg hpos] at hc
    exact safe_change hs hh (.refl _) nofun (.inr hc)

end RasPiArduino.Bridge
