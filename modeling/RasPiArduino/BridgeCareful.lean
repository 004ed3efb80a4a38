import RasPiArduino.BridgeOwnership

/-! Each operation of the Bridge classes, called carefully, keeps the descriptors in order. -/
namespace RasPiArduino.Bridge
open RasPiArduino.Net RasPiArduino.BridgeServer RasPiArduino.Transition RasPiArduino.Table

variable {w t : World} {l : Label} {i : Nat} {h h' : Handle} {g : Int} {n : Node} {junk : Int}
  {fd : Nat} {fds : List Nat}

theorem spent_of_sameTable {k k' : Kernel} {c : Nat} (hk : SameTable k k') (hc : Spent k c) :
    Spent k' c := by
  unfold Spent
  rw [hk.backlog, hk.count]
  exact hc

theorem fileAt_neg (k : Kernel) (hg : g < 0) : fileAt k g = none := by
  cases g with
  | ofNat m => exact absurd hg (by simp)
  | negSucc m => rfl

theorem Listed.frame (hl : Listed w) (hspent : ∀ c, Spent w.kernel c → Spent t.kernel c)
    (hback : t.kernel.backlog.Nodup ∧ ∀ c ∈ t.kernel.backlog, c < t.kernel.conns.length)
    (hclients : t.clients = w.clients) (hstopped : t.stopped = w.stopped) (hpc : t.pc = w.pc) :
    Listed t where
  conns := hclients ▸ hl.conns
  spent c hc := hspent c (hl.spent c (hclients ▸ hc))
  backlog := hback
  nonZero := hclients ▸ hl.nonZero
  stopped := by
    rw [hclients, hstopped, hpc]
    exact hl.stopped
  past c hc := hspent c (hl.past c (hstopped ▸ hc))
  events fds hf := hl.events fds (hpc ▸ hf)

theorem Listed.shrink (hl : Listed w) (hspent : ∀ c, Spent w.kernel c → Spent t.kernel c)
    (hback : t.kernel.backlog.Nodup ∧ ∀ c ∈ t.kernel.backlog, c < t.kernel.conns.length)
    (hident : (t.clients.map Node.ident).Sublist (w.clients.map Node.ident))
    (hstopped : ∀ n ∈ t.clients, ∀ c, n.conn = some c → c ∉ t.stopped)
    (hpast : ∀ c ∈ t.stopped, Spent w.kernel c)
    (hevents : ∀ fds, t.pc = .handling fds → fds.Nodup) : Listed t := by
  have hsub : (t.clients.filterMap Node.conn).Sublist (w.clients.filterMap Node.conn) := by
    have := hident.filterMap Prod.snd
    rwa [List.filterMap_map, List.filterMap_map] at this
  refine ⟨hl.conns.sublist hsub, fun c hc => hspent c (hl.spent c (hsub.subset hc)), hback, ?_,
    fun n hn c hc hs => absurd hs (hstopped n hn c hc), fun c hc => hspent c (hpast c hc), hevents⟩
  intro n hn
  obtain ⟨m, hm, he⟩ := List.mem_map.mp (hident.subset (List.mem_map_of_mem hn))
  exact (Prod.mk.inj he).1 ▸ hl.nonZero m hm

theorem Listed.idle (hl : Listed w) (hpc : w.pc = .idle) : ∀ n ∈ w.clients, ∀ c,
    n.conn = some c → c ∉ w.stopped := by
  intro n hn c hc hs
  obtain ⟨-, fds, hf, -⟩ := hl.stopped n hn c hc hs
  simp [hpc] at hf

/-- A client of the sketch changes, and the table does not: it may stop to count as
connected, when it may let go, but does not come to count on another descriptor. -/
theorem safe_change (hs : Safe w) (hh : w.handles[i]? = some h) {k : Kernel}
    (hk : SameTable w.kernel k)
    (hnew : h'.client.flag = true → h.client.flag = true ∧ h'.client.sockfd = h.client.sockfd ∨
      fileAt w.kernel h'.client.sockfd = none)
    (hlet : h'.client.flag = h.client.flag ∧ h'.client.sockfd = h.client.sockfd ∨ LetsGo w i h) :
    Safe { w with kernel := k, handles := w.handles.set i h' } := by
  have hfile := fileAt_congr hk.files
  have hspent : ∀ c, Spent w.kernel c → Spent k c := fun c hc => spent_of_sameTable hk hc
  have hback : k.backlog.Nodup ∧ ∀ c ∈ k.backlog, c < k.conns.length := by
    rw [hk.backlog, hk.count]
    exact hs.listed.backlog
  have hbut (g : Int) := held_set (t := { w with kernel := k, handles := w.handles.set i h' })
    (g := g) hh rfl rfl
  have hold (g : Int) := held_at (g := g) hh
  refine ⟨hs.descriptors.frame rfl rfl rfl (fun g f hf => hfile g ▸ hf) (fun g _ => hfile g)
    (fun g c hg hheld => ?_) (fun g hg hheld => ?_) hspent,
    hs.listed.frame hspent hback rfl rfl rfl, hs.closings⟩
  · rw [hbut]
    obtain ⟨hf, he⟩ | hother := (hold g).mp hheld
    · obtain ⟨hf', he'⟩ | hlet := hlet
      · exact .inl ⟨hf'.trans hf, he'.trans he⟩
      · refine .inr (he ▸ hlet hf (isConn_iff.mpr ⟨c, ?_⟩))
        rw [he, ← hfile]
        exact hg
    · exact .inr hother
  · rw [hold]
    obtain ⟨hf, he⟩ | hother := (hbut g).mp hheld
    · obtain ⟨hf', he'⟩ | hnone := hnew hf
      · exact .inl ⟨hf', he'.symm.trans he⟩
      · rw [he, ← hfile] at hnone
        exact nomatch hg.symm.trans hnone
    · exact .inr hother

/-! What goes on outside the classes. -/

theorem safe_arrive (hs : Safe w) (a : Arrival) :
    Safe { w with kernel := Net.arrive w.kernel a } := by
  have hfile := fileAt_congr (arrive_table w.kernel a).1
  have hspent : ∀ c, Spent w.kernel c → Spent (Net.arrive w.kernel a) c :=
    fun c hc => arrive_spent hc a
  exact ⟨hs.descriptors.frame rfl rfl rfl (fun g f hf => hfile g ▸ hf) (fun g _ => hfile g)
    (fun _ _ _ hh => hh) (fun _ _ hh => hh) hspent,
    hs.listed.frame hspent (arrive_backlog hs.listed.backlog a) rfl rfl rfl, hs.closings⟩

theorem safe_openOther (hs : Safe w) (hheld : ¬ Held w (freeFd w.kernel.files)) :
    Safe { w with kernel := { w.kernel with files := install w.kernel.files .other } } := by
  have hd := hs.descriptors
  have hfile (g : Int) : fileAt { w.kernel with files := install w.kernel.files .other } g =
      if g = freeFd w.kernel.files then some .other else fileAt w.kernel g :=
    fileAt_install rfl g
  have hconn : ∀ g c, fileAt { w.kernel with files := install w.kernel.files .other } g =
      some (.conn c) → fileAt w.kernel g = some (.conn c) :=
    fun g c hg => fileAt_install_conn rfl (by simp) hg
  refine ⟨⟨fun g => ?_, hd.poll, fun g hg => ?_, fun g c hg => hd.held g c (hconn g c hg),
    fun g hg hf => ?_, fun g g' c hg hg' => hd.single g g' c (hconn g c hg) (hconn g' c hg'),
    fun g c hg => hd.spent g c (hconn g c hg)⟩,
    hs.listed.frame (fun _ hc => hc) hs.listed.backlog rfl rfl rfl, hs.closings⟩
  · rw [← hd.listener, hfile]
    split
    · next hg => simp [hg, freeFd_free]
    · exact Iff.rfl
  · rw [hfile, hd.instances g hg]
    split <;> rfl
  · rw [hfile] at hf
    split at hf
    · next he => exact absurd (he ▸ hg) hheld
    · exact hd.foreign g hg hf

theorem safe_closeOther (hs : Safe w) {m : Nat} (hm : fileAt w.kernel m = some .other)
    (hp : (m : Int) ∉ w.polls) : Safe { w with kernel := close w.kernel m } := by
  have hback : ∀ g f, fileAt (close w.kernel m) g = some f → fileAt w.kernel g = some f := by
    intro g f hf
    rw [fileAt_close] at hf
    split at hf
    · cases hf
    · exact hf
  have hkeep : ∀ g, fileAt w.kernel g = some .listener ∨ g ∈ w.polls →
      fileAt (close w.kernel m) g = fileAt w.kernel g := by
    intro g hg
    rw [fileAt_close, if_neg]
    rintro rfl
    obtain hg | hg := hg
    · rw [hm] at hg
      cases hg
    · exact hp hg
  exact ⟨hs.descriptors.frame rfl rfl rfl hback hkeep (fun _ _ _ hh => hh) (fun _ _ hh => hh)
    (fun _ hc => hc), hs.listed.frame (fun _ hc => hc) hs.listed.backlog rfl rfl rfl, hs.closings⟩

/-! begin(). -/

theorem safe_openListener (hs : Safe w) (hneg : w.sockfd < 0) : Safe (openListener w) := by
  have hd := hs.descriptors
  have hfile (g : Int) : fileAt (openListener w).kernel g =
      if g = freeFd w.kernel.files then some .listener else fileAt w.kernel g :=
    fileAt_install rfl g
  have hconn : ∀ g c, fileAt (openListener w).kernel g = some (.conn c) →
      fileAt w.kernel g = some (.conn c) :=
    fun g c hg => fileAt_install_conn (f := .listener) rfl (by simp) hg
  have hspent : ∀ c, Spent w.kernel c → Spent (openListener w).kernel c :=
    fun c hc => ⟨List.not_mem_nil, hc.2⟩
  refine ⟨⟨fun g => ?_, hd.poll, fun g hg => ?_, fun g c hg => hd.held g c (hconn g c hg),
    fun g hg hf => ?_, fun g g' c hg hg' => hd.single g g' c (hconn g c hg) (hconn g' c hg'),
    fun g c hg => hspent c (hd.spent g c (hconn g c hg))⟩,
    hs.listed.frame hspent ⟨List.nodup_nil, nofun⟩ rfl rfl rfl, hs.closings⟩
  · have hold : fileAt w.kernel g ≠ some .listener := by
      intro hg
      have := ((hd.listener g).mp hg).2
      omega
    rw [hfile, show (openListener w).sockfd = freeFd w.kernel.files from rfl]
    split
    · next hg => simp [hg]
    · next hg => simp [hold, hg]
  · rw [hfile, if_neg (ne_freeFd (hd.instances g hg)), hd.instances g hg]
  · rw [hfile] at hf
    split at hf
    · cases hf
    · exact hd.foreign g hg hf

theorem safe_openPoll (hs : Safe w) (hnone : w.pollfd ≤ 0) (hpos : freeFd w.kernel.files ≠ 0) :
    Safe (openPoll w) := by
  have hd := hs.descriptors
  have hfile (g : Int) : fileAt (openPoll w).kernel g =
      if g = freeFd w.kernel.files then some .other else fileAt w.kernel g :=
    fileAt_install rfl g
  have hpolls : w.polls = [] := by
    refine List.eq_nil_iff_forall_not_mem.mpr fun g hg => ?_
    have := ((hd.poll g).mp hg).2
    omega
  have hnew (g : Int) : g ∈ (openPoll w).polls ↔ g = freeFd w.kernel.files := by
    simp [openPoll, hpolls]
  have hconn : ∀ g c, fileAt (openPoll w).kernel g = some (.conn c) →
      fileAt w.kernel g = some (.conn c) :=
    fun g c hg => fileAt_install_conn (f := .other) rfl (by simp) hg
  have hlen : (openPoll w).kernel.conns.length = w.kernel.conns.length := List.length_map _
  have hspent : ∀ c, Spent w.kernel c → Spent (openPoll w).kernel c :=
    fun c hc => ⟨hc.1, hlen ▸ hc.2⟩
  refine ⟨⟨fun g => ?_, fun g => ?_, fun g hg => ?_, fun g c hg => hd.held g c (hconn g c hg),
    fun g hg hf => ?_, fun g g' c hg hg' => hd.single g g' c (hconn g c hg) (hconn g' c hg'),
    fun g c hg => hspent c (hd.spent g c (hconn g c hg))⟩,
    hs.listed.frame hspent ⟨hs.listed.backlog.1, hlen ▸ hs.listed.backlog.2⟩ rfl rfl rfl,
    hs.closings⟩
  · rw [hfile]
    split
    · next hg =>
      have := hd.listener g
      rw [hg, freeFd_free] at this
      rw [hg]
      exact iff_of_false nofun fun he => nomatch this.mpr he
    · exact hd.listener g
  · rw [hnew, show (openPoll w).pollfd = freeFd w.kernel.files from rfl]
    omega
  · rw [hfile, if_pos ((hnew g).mp hg)]
  · rw [hnew]
    rw [hfile] at hf
    split at hf
    · next he => exact he
    · have := hd.foreign g hg hf
      rw [hpolls] at this
      cases this

theorem safe_begin (hs : Safe w) {r : Begun} (hc : w.listening = false → CarefulBegin w r) :
    Safe (begin w r) := by
  unfold begin
  split
  · exact hs
  · next hl =>
    have hc := hc (by simpa using hl)
    cases r with
    | noSocket =>
      have hneg : w.sockfd < 0 := hc
      refine ⟨⟨fun g => ?_, hs.descriptors.poll, hs.descriptors.instances, hs.descriptors.held,
        hs.descriptors.foreign, hs.descriptors.single, hs.descriptors.spent⟩,
        hs.listed.frame (fun _ hc => hc) hs.listed.backlog rfl rfl rfl, hs.closings⟩
      dsimp only
      rw [hs.descriptors.listener]
      omega
    | noBind => exact safe_openListener hs hc
    | noListen => exact safe_openListener hs hc
    | noPoll =>
      have hopen := safe_openListener hs hc.1
      have hd := hopen.descriptors
      have hp := hc.2
      refine ⟨⟨hd.listener, fun g => ?_, hd.instances, hd.held, hd.foreign, hd.single, hd.spent⟩,
        hopen.listed.frame (fun _ hc => hc) hopen.listed.backlog rfl rfl rfl, hopen.closings⟩
      have := hd.poll g
      dsimp only [openListener] at this ⊢
      rw [this]
      omega
    | noControl =>
      exact safe_openPoll (safe_openListener hs hc.1) hc.2 (freeFd_install_ne_zero _ _)
    | noEvents => exact safe_openPoll (safe_openListener hs hc.1) hc.2 (freeFd_install_ne_zero _ _)
    | done =>
      have hall := safe_openPoll (safe_openListener hs hc.1) hc.2 (freeFd_install_ne_zero _ _)
      have hd := hall.descriptors
      exact ⟨⟨hd.listener, hd.poll, hd.instances, hd.held, hd.foreign, hd.single, hd.spent⟩,
        hall.listed.frame (fun _ hc => hc) hall.listed.backlog rfl rfl rfl, hall.closings⟩

end RasPiArduino.Bridge
