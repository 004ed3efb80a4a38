import RasPiArduino.BridgeAvailable

/-! Runs of a careful sketch: the Bridge classes have exactly the descriptors open that they
still refer to, and no stop() closes what it should not. -/
namespace RasPiArduino.Bridge
open RasPiArduino.Net RasPiArduino.BridgeServer RasPiArduino.Transition RasPiArduino.Table

variable {w t : World} {l : Label} {i : Nat} {h h' : Handle} {g junk : Int}
  {data : List UInt8} {ls : List Label}

/-! write() to all listed clients. -/

theorem writeAll_flag {k : Kernel} {ns : List Node} {n : Node} (hn : n ∈ (writeAll data k ns).1) :
    ∃ m ∈ ns, m.client.sockfd = n.client.sockfd ∧
      (n.client.flag = true → m.client.flag = true) := by
  induction ns generalizing k with
  | nil => cases hn
  | cons m ns ih =>
    obtain rfl | hn := List.mem_cons.mp hn
    · refine ⟨m, List.mem_cons_self, (m.client.write_sockfd k data).symm, fun hf => ?_⟩
      obtain he | ⟨he, -⟩ := m.client.write_client k data
      · exact he ▸ hf
      · exact nomatch (congrArg BridgeClient.flag he).symm.trans hf
    · obtain ⟨p, hp, hpn⟩ := ih hn
      exact ⟨p, List.mem_cons_of_mem m hp, hpn⟩

/-- Where a send succeeds, the first node with the descriptor keeps its flag, whatever goes to
other connections before. -/
theorem writeAll_keeps {k : Kernel} {ns : List Node} {c : Nat} (hg : fileAt k g = some (.conn c))
    (hsingle : ∀ g', fileAt k g' = some (.conn c) → g' = g) (hsend : ¬ (send k g data).1 < 0)
    (hn : ∃ n ∈ ns, n.client.flag = true ∧ n.client.sockfd = g) :
    ∃ n ∈ (writeAll data k ns).1, n.client.flag = true ∧ n.client.sockfd = g := by
  induction ns generalizing k with
  | nil =>
    obtain ⟨n, hn, -⟩ := hn
    cases hn
  | cons m ns ih =>
    by_cases hm : m.client.flag = true ∧ m.client.sockfd = g
    · refine ⟨_, List.mem_cons_self, ?_, (m.client.write_sockfd k data).trans hm.2⟩
      obtain he | ⟨-, hres⟩ := m.client.write_client k data
      · exact (congrArg BridgeClient.flag he).trans hm.1
      · exact absurd (hm.2 ▸ hres) hsend
    · have hrest : ∃ n ∈ ns, n.client.flag = true ∧ n.client.sockfd = g := by
        obtain ⟨n, hn, hf⟩ := hn
        obtain rfl | hn := List.mem_cons.mp hn
        · exact absurd hf hm
        · exact ⟨n, hn, hf⟩
      have hfile := fileAt_congr (m.client.write_table k data).files
      have hsame : (send (m.client.write k data).2.2 g data).1 = (send k g data).1 := by
        refine send_congr (hfile g) (fun d hd => ?_) data
        obtain rfl : c = d := by simpa [hg] using hd
        unfold BridgeClient.write
        split
        · rfl
        · next hf =>
          have hne : fileAt k m.client.sockfd ≠ some (.conn c) :=
            fun he => hm ⟨by simpa using hf, hsingle _ he⟩
          dsimp only
          split <;> exact send_conns hne data
      obtain ⟨n, hn, hf⟩ := ih ((hfile g).trans hg)
        (fun g' hg' => hsingle g' ((hfile g').symm.trans hg')) (hsame ▸ hsend) hrest
      exact ⟨n, List.mem_cons_of_mem _ hn, hf⟩

theorem safe_write (hs : Safe w) (hpc : w.pc = .idle)
    (hc : ∀ n ∈ w.clients, connectedNode w.kernel n = true →
      isConn w.kernel n.client.sockfd = true → (send w.kernel n.client.sockfd data).1 < 0 →
        ∃ h ∈ w.handles, h.client.flag = true ∧ h.client.sockfd = n.client.sockfd) :
    Safe (write w data) := by
  have hd := hs.descriptors
  have hl := hs.listed
  have hk : SameTable w.kernel (write w data).kernel := writeAll_table data w.kernel _
  have hfile := fileAt_congr hk.files
  have hident : (write w data).clients.map Node.ident =
      (cleanup w.kernel w.clients).map Node.ident := writeAll_ident data w.kernel _
  have hsub : ((write w data).clients.map Node.ident).Sublist (w.clients.map Node.ident) := by
    rw [hident, cleanup_eq]
    exact List.filter_sublist.map _
  refine ⟨hd.frame rfl rfl rfl (fun g f hf => hfile g ▸ hf) (fun g _ => hfile g)
    (fun g c hg hh => ?_) (fun g _ hh => ?_) (fun c hc => spent_of_sameTable hk hc),
    hl.shrink (fun c hc => spent_of_sameTable hk hc) ?_ hsub ?_ hl.past ?_, hs.closings⟩
  · rw [hfile] at hg
    obtain ⟨n, hn, hf, he⟩ | hh := held_iff.mp hh
    · have hconn : connectedNode w.kernel n = true :=
        connectedNode_iff.mpr ⟨hf, by simp [he, hg]⟩
      by_cases hsend : (send w.kernel g data).1 < 0
      · obtain ⟨x, hx, hxf⟩ := hc n hn hconn (isConn_iff.mpr ⟨c, he ▸ hg⟩) (he ▸ hsend)
        exact held_iff.mpr (.inr ⟨x, hx, he ▸ hxf⟩)
      · refine held_iff.mpr (.inl (writeAll_keeps hg (fun g' hg' => hd.single g' g c hg' hg) hsend
          ⟨n, ?_, hf, he⟩))
        rw [cleanup_eq]
        exact List.mem_filter.mpr ⟨hn, hconn⟩
    · exact held_iff.mpr (.inr hh)
  · obtain ⟨n, hn, hf, he⟩ | hh := held_iff.mp hh
    · obtain ⟨m, hm, hmn, hmf⟩ := writeAll_flag hn
      exact held_iff.mpr (.inl ⟨m, mem_cleanup hm, hmf hf, hmn.trans he⟩)
    · exact held_iff.mpr (.inr hh)
  · rw [hk.backlog, hk.count]
    exact hl.backlog
  · intro n hn c hcn
    obtain ⟨m, hm, he⟩ := List.mem_map.mp (hsub.subset (List.mem_map_of_mem hn))
    exact hl.idle hpc m hm c ((Prod.mk.inj he).2.trans hcn)
  · exact hl.events

/-! The clients of the sketch. -/

theorem safe_onClient (hs : Safe w) (hh : w.handles[i]? = some h)
    {f : BridgeClient → BridgeClient × Kernel} (hk : SameTable w.kernel (f h.client).2)
    (hf : (f h.client).1 = h.client ∨
      (f h.client).1 = { h.client with flag := false } ∧ LetsGo w i h) :
    Safe (onClient w i h f) := by
  obtain he | ⟨he, hlet⟩ := hf
  · refine safe_change hs hh hk (fun hf => .inl ?_) (.inl ?_)
    · exact ⟨he ▸ hf, congrArg BridgeClient.sockfd he⟩
    · exact ⟨congrArg BridgeClient.flag he, congrArg BridgeClient.sockfd he⟩
  · refine safe_change hs hh hk (fun hf => ?_) (.inr hlet)
    exact nomatch (congrArg BridgeClient.flag he).symm.trans hf

theorem safe_reading (hs : Safe w) (hh : w.handles[i]? = some h)
    {f : BridgeClient → BridgeClient × Kernel} (hk : SameTable w.kernel (f h.client).2)
    (hf : (f h.client).1 = h.client ∨ (f h.client).1 = { h.client with flag := false })
    (hopen : ∀ c x, fileAt w.kernel h.client.sockfd = some (.conn c) →
      w.kernel.conns[c]? = some x → (f h.client).1 = h.client) : Safe (onClient w i h f) := by
  refine safe_onClient hs hh hk ?_
  by_cases hconn : isConn w.kernel h.client.sockfd = true
  · obtain ⟨c, hc⟩ := isConn_iff.mp hconn
    exact .inl (hopen c _ hc (List.getElem?_eq_getElem (hs.descriptors.spent _ c hc).2))
  · exact hf.imp_right fun he => ⟨he, fun _ hc => absurd hc hconn⟩

theorem safe_openSocket (hs : Safe w) (hh : w.handles[i]? = some h) {failed flag : Bool}
    {room : Nat} (hlet : LetsGo w i h)
    (hflag : flag = true ∨ HeldBut w i (freeFd w.kernel.files)) :
    Safe (openSocket w i failed room flag) := by
  have hd := hs.descriptors
  have hl := hs.listed
  have hbut (g : Int) := held_set (t := openSocket w i failed room flag) (g := g) hh rfl rfl
  have hold (g : Int) := held_at (g := g) hh
  have hlen : (openSocket w i failed room flag).kernel.conns.length =
      w.kernel.conns.length + 1 := by simp [openSocket]
  have hspent : ∀ c, Spent w.kernel c → Spent (openSocket w i failed room flag).kernel c :=
    fun c hc => ⟨hc.1, hlen ▸ Nat.lt_succ_of_lt hc.2⟩
  refine ⟨hd.opened rfl rfl rfl rfl (fun g hg => ?_) ?_ (fun g c hg hheld => ?_)
    (fun g hg hheld => ?_) ?_, hl.frame hspent ⟨hl.backlog.1, fun c hc => ?_⟩ rfl rfl rfl,
    hs.closings⟩
  · exact absurd (hd.spent g _ hg).2 (Nat.lt_irrefl _)
  · rw [hbut]
    exact hflag.imp_left fun hf => ⟨hf, rfl⟩
  · rw [hbut]
    obtain ⟨hf, he⟩ | hother := (hold g).mp hheld
    · exact .inr (he ▸ hlet hf (isConn_iff.mpr ⟨c, he ▸ hg⟩))
    · exact .inr hother
  · rw [hold]
    obtain ⟨-, rfl⟩ | hother := (hbut g).mp hheld
    · exact absurd rfl (ne_freeFd hg)
    · exact .inr hother
  · rintro d (hds | rfl)
    · exact hspent d hds
    · exact ⟨fun hb => Nat.lt_irrefl _ (hl.backlog.2 _ hb), hlen ▸ Nat.lt_succ_self _⟩
  · exact hlen ▸ Nat.lt_succ_of_lt (hl.backlog.2 c hc)

theorem safe_connect (hs : Safe w) (hh : w.handles[i]? = some h) {r : Connected}
    (hc : CarefulConnect w i h r) : Safe (connect w i h r) := by
  cases r with
  | noHost => exact hs
  | noSocket => exact safe_change hs hh (.refl _) (fun _ => .inr rfl) (.inr hc)
  | refused => exact safe_openSocket hs hh hc.1 hc.2
  | done room => exact safe_openSocket hs hh hc (.inl rfl)

theorem safe_fresh (hs : Safe w) : Safe { w with handles := w.handles ++ [.fresh] } := by
  refine ⟨hs.descriptors.frame rfl rfl rfl (fun _ _ hf => hf) (fun _ _ => rfl)
    (fun g c _ hh => ?_) (fun g _ hh => ?_) (fun _ hc => hc),
    hs.listed.frame (fun _ hc => hc) hs.listed.backlog rfl rfl rfl, hs.closings⟩
  · exact held_iff.mpr ((held_iff.mp hh).imp_right fun ⟨h, hh, hf⟩ =>
      ⟨h, List.mem_append_left _ hh, hf⟩)
  · refine held_iff.mpr ((held_iff.mp hh).imp_right ?_)
    rintro ⟨h, hh, hf⟩
    obtain hh | rfl : h ∈ w.handles ∨ h = .fresh := by simpa using hh
    · exact ⟨h, hh, hf⟩
    · cases hf.1

theorem call_some {u : World} (h : call w t = some u) : w.pc = .idle ∧ t = u := by
  simpa [call, Option.ite_none_right_eq_some] using h

theorem callOn_some {f : Handle → World} (h : callOn w i f = some t) : w.pc = .idle ∧
    ∃ x, w.handles[i]? = some x ∧ f x = t := by
  simpa [callOn, Option.ite_none_right_eq_some, Option.map_eq_some_iff] using h

theorem safe_step (hs : Safe w) (hc : Careful w l) (ht : step w l = some t) : Safe t := by
  cases l with
  | arrive a =>
    obtain ⟨-, rfl⟩ : heard w a = true ∧ { w with kernel := Net.arrive w.kernel a } = t := by
      simpa [step, Option.ite_none_right_eq_some] using ht
    exact safe_arrive hs a
  | openOther =>
    obtain rfl := Option.some.inj ht
    exact safe_openOther hs hc
  | closeOther m =>
    obtain ⟨⟨hm, hp⟩, rfl⟩ : (fileAt w.kernel m = some .other ∧ (m : Int) ∉ w.polls) ∧
        { w with kernel := close w.kernel m } = t := by
      simpa only [step, Option.ite_none_right_eq_some, Option.some.injEq] using ht
    exact safe_closeOther hs hm hp
  | begin r =>
    obtain ⟨-, rfl⟩ := call_some ht
    exact safe_begin hs hc
  | end_ =>
    obtain ⟨hpc, rfl⟩ := call_some ht
    exact safe_end hs hpc hc
  | notListening =>
    simp only [step] at ht
    split at ht
    · cases ht
    · obtain ⟨-, rfl⟩ := call_some ht
      exact safe_fresh hs
  | poll fds =>
    obtain ⟨⟨hpc, -, hp⟩, rfl⟩ : (w.pc = .idle ∧ w.listening = true ∧ Polled w fds) ∧
        { w with kernel := fds.foldl reported w.kernel, pc := .handling fds } = t := by
      simpa only [step, Option.ite_none_right_eq_some, Option.some.injEq] using ht
    exact safe_poll hs hpc hp
  | handle junk =>
    simp only [step] at ht
    split at ht
    · next fd fds hpc =>
      obtain rfl := Option.some.inj ht
      simp only [Careful, hpc, CarefulEvent] at hc
      unfold handle
      split
      · next hfd =>
        rw [if_pos hfd] at hc
        exact safe_accept hs hpc hc
      · next hfd =>
        rw [if_neg hfd] at hc
        exact safe_data hs hpc hc
    · cases ht
  | finish junk =>
    obtain ⟨-, rfl⟩ : w.pc = .handling [] ∧ finish w junk = t := by
      simpa only [step, Option.ite_none_right_eq_some, Option.some.injEq] using ht
    exact safe_finish hs
  | write data =>
    obtain ⟨hpc, rfl⟩ := call_some ht
    exact safe_write hs hpc hc
  | create =>
    obtain ⟨-, rfl⟩ := call_some ht
    exact safe_fresh hs
  | connect i r =>
    obtain ⟨-, x, hx, rfl⟩ := callOn_some ht
    exact safe_connect hs hx (hc x hx)
  | send i data =>
    obtain ⟨-, x, hx, rfl⟩ := callOn_some ht
    refine safe_onClient hs hx (x.client.write_table w.kernel data) ?_
    exact (x.client.write_client w.kernel data).imp_right fun he => ⟨he.1, hc x hx he.2⟩
  | read i size junk =>
    obtain ⟨-, x, hx, rfl⟩ := callOn_some ht
    exact safe_reading hs hx (x.client.readBlock_table w.kernel size junk)
      (x.client.readBlock_client w.kernel size junk)
      fun _ _ hf hy => x.client.readBlock_same hf hy size junk
  | connected i =>
    obtain ⟨-, x, hx, rfl⟩ := callOn_some ht
    exact safe_reading hs hx (.refl _) (x.client.connected_client w.kernel)
      fun _ _ hf hy => x.client.connected_open hf hy
  | stop i =>
    obtain ⟨-, x, hx, rfl⟩ := callOn_some ht
    exact safe_stop hs hx (hc x hx)
  | drop i =>
    obtain ⟨-, x, hx, rfl⟩ := callOn_some ht
    exact safe_change hs hx (.refl _) (fun hf => absurd hf Bool.false_ne_true) (.inr (hc x hx))

theorem safe_start (std : List Bool) : Safe (start std) := by
  have hfile : ∀ g f, fileAt (start std).kernel g = some f → f = .other :=
    fun g f hg => fileAt_std hg
  have hlistener : ∀ g, fileAt (start std).kernel g ≠ some .listener := by
    intro g hg
    simpa using hfile g _ hg
  have hconn : ∀ g c, fileAt (start std).kernel g ≠ some (.conn c) := by
    intro g c hg
    simpa using hfile g _ hg
  refine ⟨⟨fun g => iff_of_false (hlistener g) ?_, fun g => ?_, ?_,
    fun g c hg => absurd hg (hconn g c), ?_, fun g g' c hg => absurd hg (hconn g c),
    fun g c hg => absurd hg (hconn g c)⟩, ⟨?_, ?_, ?_, ?_, ?_, ?_, ?_⟩, ?_⟩
  · rintro ⟨-, h⟩
    exact Int.negSucc_not_nonneg 0 |>.mp h
  · simp [start]
  · simp [start]
  · rintro g ⟨c, hc, -⟩
    cases hc
  all_goals simp [start, InOrder]

/-- In every state of a run whose steps are careful, the descriptors that the classes opened
are those they refer to, and every close() was of a number the object had not closed yet, and
of nothing that is not its own. -/
theorem careful_owned (std : List Bool) (hr : run step ls (start std) = some w)
    (hc : Along step (fun w l _ => Careful w l) ls (start std)) : Owned w :=
  (run_invariant (Q := fun w l _ => Careful w l) (fun _ _ _ hs ht hc => safe_step hs hc ht)
    (safe_start std) hr hc).owned

def acceptAndConnect : List Label :=
  [.begin .done, .arrive (.connect 100), .poll [3], .handle 0, .arrive (.data 0 [1]), .finish 0,
    .create, .connect 1 (.done 100), .send 1 [2], .end_, .stop 1, .drop 1]

theorem acceptAndConnect_owned :
    ∃ w, run step acceptAndConnect (start [true, true, true]) = some w ∧ Owned w :=
  ⟨_, rfl, careful_owned [true, true, true]
    (rfl : run step acceptAndConnect (start [true, true, true]) = some _) (by decide)⟩

/-- A client that connected is stopped, the process opens a file, and the client is stopped
again. -/
def stopTwice : List Label :=
  [.create, .connect 0 (.done 100), .stop 0, .openOther, .stop 0]

/-- The second stop() closes the file. -/
theorem stop_closes_other : ¬ ∀ std ls w, run step ls (start std) = some w → Owned w := by
  intro h
  have hx := (h [true, true, true] stopTwice _ rfl).closings ⟨true, some (.conn 0), some .other⟩
    (by decide)
  exact nomatch hx.1

end RasPiArduino.Bridge
