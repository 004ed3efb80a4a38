import RasPiArduino.BridgeStops

/-! available(), event by event: accept opens a descriptor for a new node, and a client that
has gone is stopped on its own. -/
namespace RasPiArduino.Bridge
open RasPiArduino.Net RasPiArduino.BridgeServer RasPiArduino.Transition RasPiArduino.Table

variable {w t : World} {l : Label} {i fd : Nat} {h : Handle} {g junk : Int} {fds : List Nat}

theorem Listed.left (hl : Listed w) (hpc : w.pc = .handling (fd :: fds)) : ∀ n ∈ w.clients,
    ∀ c, n.conn = some c → c ∈ w.stopped → n.client.flag = false ∧
      n.client.sockfd ≠ (fd : Int) ∧ ∀ g ∈ fds, n.client.sockfd ≠ (g : Int) := by
  intro n hn c hc hs
  obtain ⟨hf, fds', hfds, hne⟩ := hl.stopped n hn c hc hs
  obtain rfl : fd :: fds = fds' := by simpa [hpc] using hfds
  exact ⟨hf, hne fd List.mem_cons_self, fun g hg => hne g (List.mem_cons_of_mem fd hg)⟩

theorem Listed.next (hl : Listed w) (hpc : w.pc = .handling (fd :: fds)) :
    (∀ fds', Pc.handling fds = .handling fds' → fds'.Nodup) ∧
      ∀ n ∈ w.clients, ∀ c, n.conn = some c → c ∈ w.stopped →
        n.client.flag = false ∧ ∃ fds', Pc.handling fds = .handling fds' ∧
          ∀ fd ∈ fds', n.client.sockfd ≠ (fd : Int) := by
  constructor
  · intro fds' he
    cases he
    exact (List.nodup_cons.mp (hl.events _ hpc)).2
  · intro n hn c hc hs
    obtain ⟨hf, -, hne⟩ := hl.left hpc n hn c hc hs
    exact ⟨hf, fds, rfl, hne⟩

theorem safe_accept_failed (hs : Safe w) (hpc : w.pc = .handling (fd :: fds)) :
    Safe { w with clients := w.clients ++ [⟨⟨-1, true⟩, none⟩], pc := .handling fds } := by
  have hd := hs.descriptors
  have hl := hs.listed
  obtain ⟨hevents, hstopped⟩ := hl.next hpc
  have hmem {n : Node} : n ∈ w.clients ++ [⟨⟨-1, true⟩, none⟩] ↔
      n ∈ w.clients ∨ n = ⟨⟨-1, true⟩, none⟩ := by simp
  refine ⟨hd.frame rfl rfl rfl (fun _ _ hf => hf) (fun _ _ => rfl) (fun g c hg hh => ?_)
    (fun g hg hh => ?_) (fun _ hc => hc), ⟨by simpa using hl.conns, by simpa using hl.spent,
    hl.backlog, fun n hn => ?_, fun n hn c hcn hcs => ?_, hl.past, hevents⟩, hs.closings⟩
  · exact held_iff.mpr ((held_iff.mp hh).imp_left fun ⟨n, hn, hf⟩ => ⟨n, hmem.mpr (.inl hn), hf⟩)
  · refine held_iff.mpr ((held_iff.mp hh).imp_left ?_)
    rintro ⟨n, hn, hf⟩
    obtain hn | rfl := hmem.mp hn
    · exact ⟨n, hn, hf⟩
    · obtain ⟨-, rfl⟩ := hf
      cases hg
  · obtain hn | rfl := hmem.mp hn
    · exact hl.nonZero n hn
    · decide
  · obtain hn | rfl := hmem.mp hn
    · exact hstopped n hn c hcn hcs
    · cases hcn

/-- The connection that waits first gets a node, and a number that was free. -/
theorem safe_accepted {k : Kernel} {c : Nat} {cs : List Nat} (hs : Safe w)
    (hpc : w.pc = .handling (fd :: fds)) (hb : w.kernel.backlog = c :: cs)
    (hk : k.files = install w.kernel.files (.conn c)) (hkb : k.backlog = cs)
    (hkl : k.conns.length = w.kernel.conns.length) (h0 : freeFd w.kernel.files ≠ 0) :
    Safe { w with
      kernel := k
      clients := w.clients ++ [⟨⟨freeFd w.kernel.files, true⟩, some c⟩]
      pc := .handling fds } := by
  have hd := hs.descriptors
  have hl := hs.listed
  obtain ⟨hevents, hstopped⟩ := hl.next hpc
  let n₀ : Node := ⟨⟨freeFd w.kernel.files, true⟩, some c⟩
  have hmem {n : Node} : n ∈ w.clients ++ [n₀] ↔ n ∈ w.clients ∨ n = n₀ := by simp
  have hbn := hl.backlog
  rw [hb] at hbn
  have hcb : c ∉ cs := (List.nodup_cons.mp hbn.1).1
  have hold : ∀ d, Spent w.kernel d → d ≠ c ∧ Spent k d := by
    rintro d ⟨hnb, hlt⟩
    rw [hb, List.mem_cons, not_or] at hnb
    exact ⟨hnb.1, hkb ▸ hnb.2, hkl ▸ hlt⟩
  have hnew : Spent k c := ⟨hkb ▸ hcb, hkl ▸ hbn.2 c List.mem_cons_self⟩
  refine ⟨hd.opened rfl rfl rfl hk (fun g hg => (hold c (hd.spent g c hg)).1 rfl) ?_
    (fun g d _ hh => ?_) (fun g hg hh => ?_) ?_, ⟨?_, ?_, ?_, fun n hn => ?_,
    fun n hn d hdn hds => ?_, fun d hds => (hold d (hl.past d hds)).2, hevents⟩, hs.closings⟩
  · exact held_iff.mpr (.inl ⟨n₀, hmem.mpr (.inr rfl), rfl, rfl⟩)
  · exact held_iff.mpr ((held_iff.mp hh).imp_left fun ⟨n, hn, hf⟩ => ⟨n, hmem.mpr (.inl hn), hf⟩)
  · refine held_iff.mpr ((held_iff.mp hh).imp_left ?_)
    rintro ⟨n, hn, hf⟩
    obtain hn | rfl := hmem.mp hn
    · exact ⟨n, hn, hf⟩
    · obtain ⟨-, rfl⟩ := hf
      exact absurd rfl (ne_freeFd hg)
  · rintro d (hds | rfl)
    · exact (hold d hds).2
    · exact hnew
  · rw [List.filterMap_append, List.nodup_append]
    refine ⟨hl.conns, by simp, fun d hd e he => ?_⟩
    obtain rfl : e = c := by simpa [n₀] using he
    exact (hold d (hl.spent d hd)).1
  · intro d hd
    rw [List.filterMap_append, List.mem_append] at hd
    obtain hd | hd := hd
    · exact (hold d (hl.spent d hd)).2
    · obtain rfl : d = c := by simpa [n₀] using hd
      exact hnew
  · rw [hkb, hkl]
    exact ⟨(List.nodup_cons.mp hbn.1).2, fun d hd => hbn.2 d (List.mem_cons_of_mem c hd)⟩
  · obtain hn | rfl := hmem.mp hn
    · exact hl.nonZero n hn
    · exact Int.natCast_ne_zero.mpr h0
  · obtain hn | rfl := hmem.mp hn
    · exact hstopped n hn d hdn hds
    · obtain rfl : c = d := by simpa [n₀] using hdn
      exact absurd rfl (hold c (hl.past c hds)).1

theorem safe_accept (hs : Safe w) (hpc : w.pc = .handling (fd :: fds))
    (hc : w.kernel.backlog ≠ [] → freeFd w.kernel.files ≠ 0) :
    Safe { acceptClient w with pc := .handling fds } := by
  obtain ⟨-, ha⟩ | ⟨c, cs, k, hb, hk, hkb, hkl, -, ha⟩ := acceptClient_cases (core w)
  · have hw : acceptClient w = { w with clients := w.clients ++ [⟨⟨-1, true⟩, none⟩] } := by
      rw [acceptClient, ha]
      rfl
    rw [hw]
    exact safe_accept_failed hs hpc
  · replace hb : w.kernel.backlog = c :: cs := hb
    have h0 := hc (by simp [hb])
    obtain ⟨-, ha⟩ | ⟨hz, -⟩ := ha
    · have hw : acceptClient w = { w with
          kernel := k
          clients := w.clients ++ [⟨⟨freeFd w.kernel.files, true⟩, some c⟩] } := by
        rw [acceptClient, ha]
        rfl
      rw [hw]
      exact safe_accepted hs hpc hb hk hkb hkl h0
    · exact absurd hz h0

theorem incomingData_core (w : World) (fd : Nat) (junk : Int) :
    core (incomingData w fd junk) = BridgeServer.incomingData (core w) fd junk := by
  cases hj : clientByFd w.clients fd with
  | none => simp [incomingData, BridgeServer.incomingData, core, hj]
  | some j =>
    cases hn : w.clients[j]? with
    | none => simp [incomingData, BridgeServer.incomingData, core, hj, hn]
    | some n =>
      have hcore := stopNode_core w n
      simp only [core, State.mk.injEq] at hcore
      by_cases ha : n.client.available w.kernel junk = 0
      · simp [incomingData, BridgeServer.incomingData, core, hj, hn, ha, hcore]
      · simp [incomingData, BridgeServer.incomingData, core, hj, hn, ha]

theorem handle_core (w : World) (fd : Nat) (junk : Int) :
    core (handle w fd junk) = { BridgeServer.handle (core w) fd junk with listed := [] } := by
  unfold handle BridgeServer.handle
  rw [show (core w).sockfd = w.sockfd from rfl]
  split
  · obtain ⟨-, ha⟩ | ⟨c, cs, k, -, -, -, -, -, ⟨-, ha⟩ | ⟨-, ha⟩⟩ := acceptClient_cases (core w) <;>
      rw [core, acceptClient, ha] <;> rfl
  · have hlisted : (BridgeServer.incomingData (core w) fd junk).listed = [] := by
      rw [← incomingData_core]
      rfl
    rw [incomingData_core, ← hlisted]

theorem incomingData_cases (w : World) (fd : Nat) (junk : Int) : incomingData w fd junk = w ∨
    ∃ j n, clientByFd w.clients fd = some j ∧ w.clients[j]? = some n ∧
      n.client.available w.kernel junk = 0 ∧ incomingData w fd junk = { stopNode w n with
        clients := w.clients.set j { n with client := (n.client.stop w.kernel).1 } } := by
  unfold incomingData
  split
  · exact .inl rfl
  · next j hj =>
    split
    · exact .inl rfl
    · next n hn =>
      split
      · next ha => exact .inr ⟨j, n, hj, hn, ha, rfl⟩
      · exact .inl rfl

theorem safe_data (hs : Safe w) (hpc : w.pc = .handling (fd :: fds))
    (hc : ∀ i ∈ clientByFd w.clients fd, ∀ n ∈ w.clients[i]?,
      n.client.available w.kernel junk = 0 → Given w.kernel n.client.sockfd n.conn) :
    Safe { incomingData w fd junk with pc := .handling fds } := by
  have hd := hs.descriptors
  have hl := hs.listed
  have hfd := (List.nodup_cons.mp (hl.events _ hpc)).1
  obtain ⟨hevents, hstopped⟩ := hl.next hpc
  obtain he | ⟨j, n, hj, hn, ha, he⟩ := incomingData_cases w fd junk <;> rw [he]
  · exact ⟨⟨hd.listener, hd.poll, hd.instances, hd.held, hd.foreign, hd.single, hd.spent⟩,
      ⟨hl.conns, hl.spent, hl.backlog, hl.nonZero, hstopped, hl.past, hevents⟩, hs.closings⟩
  · have hmem := List.mem_of_getElem? hn
    have hnfd := clientByFd_some hj hn
    have hstop := stopNode_stops hd hs.closings (hl.nonZero n hmem) (hc j hj n hn ha)
      fun c hcn hcs => (hl.left hpc n hmem c hcn hcs).2.1 hnfd
    obtain ⟨hd', horder⟩ := hstop.safe
    have hrest := hstop.rest
    have hset := conns_set hn (n.client.stop w.kernel).1
    refine ⟨hd'.frame rfl rfl rfl (fun _ _ hf => hf) (fun _ _ => rfl) (fun g c hg hh => ?_)
      (fun g _ hh => ?_) (fun _ hc => hc), ⟨hset ▸ hl.conns, ?_, ?_, fun m hm => ?_,
      fun m hm c hcm hcs => ?_, fun c hcs => ?_, hevents⟩, horder⟩
    · obtain ⟨m, hm, hf⟩ | ⟨h, hh, hf⟩ := held_iff.mp hh
      · rw [hrest.clients] at hm
        obtain ⟨k, hk⟩ := List.getElem?_of_mem hm
        refine held_iff.mpr (.inl ⟨m, List.mem_of_getElem? ((row_set hn).mpr (.inr ⟨?_, hk⟩)), hf⟩)
        rintro rfl
        obtain rfl : m = n := by simpa [hk] using hn
        exact (hstop.closed g _ hg).2 m List.mem_cons_self hf.2
      · exact held_iff.mpr (.inr ⟨h, hh, hf⟩)
    · obtain ⟨m, hm, hf⟩ | ⟨h, hh, hf⟩ := held_iff.mp hh
      · obtain ⟨k, hk⟩ := List.getElem?_of_mem hm
        obtain ⟨-, rfl⟩ | ⟨-, hk⟩ := (row_set hn).mp hk
        · cases hf.1
        · exact held_iff.mpr (.inl ⟨m, hrest.clients ▸ List.mem_of_getElem? hk, hf⟩)
      · exact held_iff.mpr (.inr ⟨h, hh, hf⟩)
    · rw [hset]
      exact fun c hc => hrest.spent (hl.spent c hc)
    · dsimp only
      rw [hrest.backlog, hrest.conns]
      exact hl.backlog
    · obtain ⟨m', hm', hi⟩ := mem_setClient hn hm rfl
      exact (Prod.mk.inj hi).1 ▸ hl.nonZero m' hm'
    · obtain ⟨k, hk⟩ := List.getElem?_of_mem hm
      obtain ⟨-, rfl⟩ | ⟨hkj, hkw⟩ := (row_set hn).mp hk
      · refine ⟨rfl, fds, rfl, fun g hg hgs => hfd ?_⟩
        obtain rfl : fd = g := Int.ofNat_inj.mp (hnfd.symm.trans hgs)
        exact hg
      · obtain hold | hnew := hstop.stopped c hcs
        · exact hstopped m (List.mem_of_getElem? hkw) c hcm hold
        · obtain ⟨p, hp, hpc⟩ := List.mem_filterMap.mp hnew
          obtain rfl : p = n := by simpa using hp
          exact absurd (place_unique hl.conns hkw hn hcm hpc) hkj
    · refine hrest.spent ?_
      obtain hold | hnew := hstop.stopped c hcs
      · exact hl.past c hold
      · obtain ⟨p, hp, hpc⟩ := List.mem_filterMap.mp hnew
        obtain rfl : p = n := by simpa using hp
        exact hl.spent c (List.mem_filterMap.mpr ⟨p, hmem, hpc⟩)

theorem safe_poll (hs : Safe w) (hpc : w.pc = .idle) (hp : Polled w fds) :
    Safe { w with kernel := fds.foldl reported w.kernel, pc := .handling fds } := by
  obtain ⟨hf, hb, hc⟩ := reportedAll_other fds w.kernel
  have hfile := fileAt_congr hf
  have hl := hs.listed
  have hspent : ∀ c, Spent w.kernel c → Spent (fds.foldl reported w.kernel) c := by
    rintro c ⟨hnb, hlt⟩
    exact ⟨hb ▸ hnb, hc ▸ hlt⟩
  have hnodup : fds.Nodup := by
    unfold Polled at hp
    split at hp
    · exact hp.1
    · exact hp ▸ List.nodup_nil
  refine ⟨hs.descriptors.frame rfl rfl rfl (fun g f hg => hfile g ▸ hg) (fun g _ => hfile g)
    (fun _ _ _ hh => hh) (fun _ _ hh => hh) hspent, hl.shrink hspent ?_ (.refl _) (hl.idle hpc)
    hl.past ?_, hs.closings⟩
  · dsimp only
    rw [hb, hc]
    exact hl.backlog
  · intro fds' he
    cases he
    exact hnodup

/-- cleanup() drops the nodes that are not connected, and the copy is of one that is. -/
theorem safe_finish (hs : Safe w) : Safe (finish w junk) := by
  have hl := hs.listed
  have hmem {n : Node} : n ∈ (finish w junk).clients ↔
      n ∈ w.clients ∧ connectedNode w.kernel n = true := by
    simp [finish, cleanup_eq]
  have hcopy : ∀ h ∈ (finish w junk).handles, h ∈ w.handles ∨ h = .fresh ∨
      ∃ n ∈ (finish w junk).clients, h.client = n.client := by
    intro h hh
    simp only [finish, List.mem_append, List.mem_singleton] at hh
    obtain hh | rfl := hh
    · exact .inl hh
    · split
      · next n hn => exact .inr (.inr ⟨n, List.mem_of_find?_eq_some hn, rfl⟩)
      · exact .inr (.inl rfl)
  refine ⟨hs.descriptors.frame rfl rfl rfl (fun _ _ hf => hf) (fun _ _ => rfl)
    (fun g c hg hh => ?_) (fun g _ hh => ?_) (fun _ hc => hc), hl.shrink (fun _ hc => hc)
    hl.backlog ?_ ?_ hl.past nofun, hs.closings⟩
  · obtain ⟨n, hn, hf⟩ | ⟨h, hh, hf⟩ := held_iff.mp hh
    · have hfile : fileAt w.kernel n.client.sockfd = some (.conn c) := hf.2 ▸ hg
      have hconn : connectedNode w.kernel n = true :=
        connectedNode_iff.mpr ⟨hf.1, by simp [hfile]⟩
      exact held_iff.mpr (.inl ⟨n, hmem.mpr ⟨hn, hconn⟩, hf⟩)
    · exact held_iff.mpr (.inr ⟨h, List.mem_append_left _ hh, hf⟩)
  · obtain ⟨n, hn, hf⟩ | ⟨h, hh, hf⟩ := held_iff.mp hh
    · exact held_iff.mpr (.inl ⟨n, (hmem.mp hn).1, hf⟩)
    · obtain hh | rfl | ⟨n, hn, he⟩ := hcopy h hh
      · exact held_iff.mpr (.inr ⟨h, hh, hf⟩)
      · cases hf.1
      · exact held_iff.mpr (.inl ⟨n, (hmem.mp hn).1, he ▸ hf⟩)
  · refine List.Sublist.map _ ?_
    simp only [finish, cleanup_eq]
    exact List.filter_sublist
  · intro n hn c hc hstop
    obtain ⟨hn, hconn⟩ := hmem.mp hn
    obtain ⟨hf, -⟩ := hl.stopped n hn c hc hstop
    rw [(connectedNode_iff.mp hconn).1] at hf
    cases hf

end RasPiArduino.Bridge
