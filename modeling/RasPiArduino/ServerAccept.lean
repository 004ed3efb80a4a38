import RasPiArduino.ServerDescriptors

/-! Which connections come to be accepted: epoll reports the listener once for all that
arrived since its last report, and available() accepts one of them. -/
namespace RasPiArduino.BridgeServer
open RasPiArduino.Net RasPiArduino.Transition RasPiArduino.Table

def Label.isConnect : Label → Bool
  | .arrive (.connect _) => true
  | _ => false

def Label.isPoll : Label → Bool
  | .poll _ => true
  | _ => false

def connects (ls : List Label) : Nat := ls.countP Label.isConnect
def polls (ls : List Label) : Nat := ls.countP Label.isPoll

/-- Whatever follows on the schedule `ls`: after as many calls of available() as there
were connections, and no further connection, all of them are in the list. -/
def NoneLost (std : List Bool) (ls : List Label) : Prop :=
  ∀ ms s, run step (ls ++ ms) (begun std) = some s → s.pc = .idle → connects ms = 0 →
    connects ls ≤ polls ms → ∀ c < s.kernel.conns.length, c ∈ s.listed

/-- No connection arrives while epoll has another one to report. -/
def OnePerPoll (s : State) (l : Label) (_ : State) : Prop :=
  l.isConnect = true → s.kernel.edge = false

instance (s : State) (l : Label) (t : State) : Decidable (OnePerPoll s l t) := by
  unfold OnePerPoll
  infer_instance

def reports (s : State) : Nat :=
  (if s.kernel.edge then 1 else 0) + match s.pc with
    | .idle => 0
    | .handling fds => fds.countP fun fd : Nat => s.sockfd == (fd : Int)

/-- The connections in the backlog that no event will accept. -/
def stranded (s : State) : Nat := s.kernel.backlog.length - reports s

/-- The listener keeps its descriptor, every connection waits or is listed, and an event
to come finds one to accept. -/
structure Accounts (s : State) : Prop where
  listener : ∀ g, fileAt s.kernel g = some .listener ↔ g = s.sockfd
  zero : (fileAt s.kernel 0).isSome = true
  nodes : ∀ n ∈ s.clients, n.client.sockfd ≠ s.sockfd
  copies : ∀ c ∈ s.copies, c.sockfd ≠ s.sockfd
  backlog : s.kernel.backlog.Nodup
  waiting : ∀ c ∈ s.kernel.backlog, c ∉ s.listed
  all : ∀ c, c < s.kernel.conns.length ↔ c ∈ s.kernel.backlog ∨ c ∈ s.listed
  owed : reports s ≤ s.kernel.backlog.length

theorem fileAt_zero {k : Kernel} (h : freeFd k.files ≠ 0) : (fileAt k 0).isSome = true := by
  have hz : fileAt k 0 = (k.files[0]?).join := rfl
  cases hf : k.files with
  | nil => simp [freeFd, hf] at h
  | cons f fs =>
    cases f with
    | none => simp [freeFd, hf, List.findIdx_cons] at h
    | some f => simp [hz, hf]

theorem accounts_begun (std : List Bool) : Accounts (begun std) := by
  let k₀ : Kernel := ⟨std.map fun b => if b then some File.other else none, [], [], false⟩
  let k₁ : Kernel := { k₀ with files := install k₀.files .listener }
  have hk₁ (g : Int) : fileAt k₁ g = if g = freeFd k₀.files then some .listener else fileAt k₀ g :=
    fileAt_install rfl g
  have hk₂ (g : Int) : fileAt (begun std).kernel g =
      if g = freeFd k₁.files then some .other else fileAt k₁ g := fileAt_install rfl g
  have hstd (g : Int) : fileAt k₀ g ≠ some .listener := by
    intro hg
    cases fileAt_std hg
  have hsock : (begun std).sockfd = freeFd k₀.files := rfl
  have hne : (freeFd k₁.files : Int) ≠ freeFd k₀.files :=
    (ne_freeFd (by rw [hk₁, if_pos rfl])).symm
  refine ⟨fun g => ?_, ?_, by simp [begun], by simp [begun], List.nodup_nil, by simp [begun],
    by simp [begun], by simp [reports, begun]⟩
  · rw [hk₂, hk₁, hsock]
    split
    · next h => simp [h, hne]
    · split
      · next h => simp [h]
      · next h => simp [hstd g, h]
  · rw [hk₂]
    split
    · rfl
    · rw [hk₁]
      split
      · rfl
      · next h => exact fileAt_zero fun hz => h (by rw [hz]; rfl)

/-- The same listener, connections and list of accepted ones. -/
theorem Accounts.frame {s t : State} (h : Accounts s)
    (hf : ∀ g, fileAt t.kernel g = fileAt s.kernel g ∨
      fileAt t.kernel g = none ∧ 0 < g ∧ g ≠ s.sockfd)
    (hs : t.sockfd = s.sockfd) (hn : ∀ n ∈ t.clients, n.client.sockfd ≠ s.sockfd)
    (hc : ∀ c ∈ t.copies, c.sockfd ≠ s.sockfd) (hb : t.kernel.backlog = s.kernel.backlog)
    (hl : t.kernel.conns.length = s.kernel.conns.length) (hlist : t.listed = s.listed)
    (hr : reports t = reports s) : Accounts t where
  listener g := by
    rw [hs]
    obtain he | ⟨he, -, hne⟩ := hf g
    · rw [he, h.listener]
    · simp [he, hne]
  zero := by
    obtain he | ⟨-, hlt, -⟩ := hf 0
    · exact he ▸ h.zero
    · exact absurd hlt (by decide)
  nodes := hs ▸ hn
  copies := hs ▸ hc
  backlog := hb ▸ h.backlog
  waiting := by
    rw [hb, hlist]
    exact h.waiting
  all := by
    rw [hb, hlist, hl]
    exact h.all
  owed := by
    rw [hr, hb]
    exact h.owed

theorem reported_edge {k : Kernel} {sockfd : Int}
    (hl : ∀ g, fileAt k g = some .listener ↔ g = sockfd)
    (fd : Nat) : (reported k fd).edge = (k.edge && !(sockfd == (fd : Int))) := by
  unfold reported
  split
  · next h => simp [(hl fd).mp h]
  · next c h =>
    have hne : sockfd ≠ (fd : Int) := fun he => by simp [(hl fd).mpr he.symm] at h
    simp [hne]
  · next h₁ h₂ =>
    have hne : sockfd ≠ (fd : Int) := fun he => h₁ ((hl fd).mpr he.symm)
    simp [hne]

theorem reportedAll_edge {k : Kernel} {sockfd : Int}
    (hl : ∀ g, fileAt k g = some .listener ↔ g = sockfd) (fds : List Nat) :
    (fds.foldl reported k).edge = (k.edge && !(fds.any fun fd : Nat => sockfd == (fd : Int))) := by
  induction fds generalizing k with
  | nil => simp
  | cons fd fds ih =>
    have hl' : ∀ g, fileAt (reported k fd) g = some .listener ↔ g = sockfd := by
      intro g
      rw [fileAt_congr (reported_other k fd).1, hl]
    rw [List.foldl_cons, ih hl', reported_edge hl]
    simp [Bool.and_assoc]

theorem Accounts.sockfd_nat {s : State} (h : Accounts s) : ∃ n : Nat, s.sockfd = n := by
  have hl := (h.listener s.sockfd).mpr rfl
  cases hs : s.sockfd with
  | ofNat n => exact ⟨n, rfl⟩
  | negSucc n => simp [hs, fileAt] at hl

theorem mem_ready {k : Kernel} {fd : Nat} {f : File} (hf : fileAt k fd = some f) :
    fd ∈ ready k ↔ hasEdge k (some f) = true := by
  simp only [ready, List.mem_filter, List.mem_range, hf, and_iff_right_iff_imp]
  intro _
  by_contra hge
  rw [fileAt_nat, List.getElem?_eq_none (Nat.le_of_not_lt hge)] at hf
  cases hf

/-- A report moves the listener's edge into the events. -/
theorem reports_poll {s : State} (h : Accounts s) {fds : List Nat} (hpc : s.pc = .idle)
    (hr : Reports s fds) :
    reports { s with kernel := fds.foldl reported s.kernel, pc := .handling fds } = reports s ∧
      (fds.foldl reported s.kernel).edge = false := by
  obtain ⟨hnd, hready, -, hlisten⟩ := hr
  obtain ⟨n, hn⟩ := h.sockfd_nat
  have hrd := mem_ready ((h.listener n).mpr hn.symm)
  have hmem : n ∈ fds ↔ s.kernel.edge = true :=
    ⟨fun hin => hrd.mp (hready n hin), fun he => hlisten n (hrd.mpr he) hn⟩
  have hany : (fds.any fun fd : Nat => s.sockfd == (fd : Int)) = s.kernel.edge := by
    rw [Bool.eq_iff_iff, List.any_eq_true, ← hmem]
    constructor
    · rintro ⟨fd, hin, he⟩
      obtain rfl : n = fd := Int.ofNat_inj.mp (by simpa [hn] using he)
      exact hin
    · exact fun hin => ⟨n, hin, by simp [hn]⟩
  have hcount : (fds.countP fun fd : Nat => s.sockfd == (fd : Int)) =
      if s.kernel.edge then 1 else 0 := by
    have hp : (fun fd : Nat => s.sockfd == (fd : Int)) = fun fd => fd == n := by
      funext fd
      rw [Bool.eq_iff_iff, hn, beq_iff_eq, beq_iff_eq, Int.ofNat_inj, eq_comm]
    rw [hp, ← List.count, hnd.count]
    simp [hmem]
  have hedge : (fds.foldl reported s.kernel).edge = false := by
    rw [reportedAll_edge h.listener, hany]
    simp
  refine ⟨?_, hedge⟩
  simp [reports, hpc, hedge, hcount]

theorem Accounts.table {s t : State} (h : Accounts s) (hk : SameTable s.kernel t.kernel)
    (hs : t.sockfd = s.sockfd) (hn : ∀ n ∈ t.clients, n.client.sockfd ≠ s.sockfd)
    (hc : ∀ c ∈ t.copies, c.sockfd ≠ s.sockfd) (hlist : t.listed = s.listed)
    (hr : reports t = reports s) : Accounts t :=
  h.frame (fun g => .inl (fileAt_congr hk.files g)) hs hn hc hk.backlog hk.count hlist hr

/-- accept takes the first connection of the backlog into the list. -/
theorem accounts_accept {s : State} (h : Accounts s) {fd : Nat} {fds : List Nat}
    (hpc : s.pc = .handling (fd :: fds)) (hfd : s.sockfd = (fd : Int)) :
    let t := { acceptClient s with pc := .handling fds }
    Accounts t ∧ reports t + 1 = reports s ∧ t.kernel.backlog.length + 1 = s.kernel.backlog.length ∧
      t.kernel.conns.length = s.kernel.conns.length ∧ t.kernel.edge = s.kernel.edge := by
  intro t
  have howed := h.owed
  have hrep : reports s = (if s.kernel.edge then 1 else 0) +
      ((fds.countP fun fd : Nat => s.sockfd == (fd : Int)) + 1) := by
    simp [reports, hpc, hfd]
  obtain ⟨hb, -⟩ | ⟨c, cs, k, hb, hf, hkb, hkl, hke, ⟨-, ha⟩ | ⟨hz, -⟩⟩ := acceptClient_cases s
  · rw [hb] at howed
    simp [hrep] at howed
  · have ht : t = { s with
        kernel := k
        clients := s.clients ++ [⟨⟨freeFd s.kernel.files, true⟩, some c⟩]
        listed := s.listed ++ [c]
        pc := .handling fds } := by simp only [t, ha]
    have hrt : reports t + 1 = reports s := by
      rw [hrep, ht]
      simp [reports, hke, Nat.add_assoc]
    have hfile (g : Int) := fileAt_install hf g
    have hne : (freeFd s.kernel.files : Int) ≠ s.sockfd :=
      (ne_freeFd ((h.listener _).mpr rfl)).symm
    have hbl : t.kernel.backlog.length + 1 = s.kernel.backlog.length := by
      rw [ht, hb]
      simp [hkb]
    have hnd := h.backlog
    have hwait := h.waiting
    rw [hb] at hnd hwait
    obtain ⟨hcs, hnd⟩ := List.nodup_cons.mp hnd
    refine ⟨?_, hrt, hbl, by rw [ht]; exact hkl, by rw [ht]; exact hke⟩
    rw [ht] at hrt hbl ⊢
    refine ⟨fun g => ?_, ?_, ?_, h.copies, hkb ▸ hnd, ?_, fun d => ?_, by omega⟩
    · rw [hfile]
      split
      · next hg => simp [hg, hne]
      · exact h.listener g
    · rw [hfile]
      split
      · rfl
      · exact h.zero
    · intro n hn
      obtain hn | rfl : n ∈ s.clients ∨ n = ⟨⟨freeFd s.kernel.files, true⟩, some c⟩ := by
        simpa using hn
      · exact h.nodes n hn
      · exact hne
    · intro d hd
      rw [hkb] at hd
      simp only [List.mem_append, List.mem_singleton, not_or]
      exact ⟨hwait d (List.mem_cons_of_mem c hd), fun he => hcs (he ▸ hd)⟩
    · dsimp only
      rw [hkl, h.all, hb, hkb]
      simp only [List.mem_cons, List.mem_append, List.not_mem_nil, or_false]
      tauto
  · have hzero := h.zero
    have hfree := freeFd_free s.kernel
    rw [hz] at hfree
    simp [show fileAt s.kernel 0 = none from hfree] at hzero

/-- What a step does to the accounts: a connection that arrives while another one is
unreported is stranded; nothing else changes their number. -/
structure Outcome (s : State) (l : Label) (t : State) : Prop where
  accounts : Accounts t
  count : t.kernel.conns.length = s.kernel.conns.length + if l.isConnect then 1 else 0
  stranded : stranded t = stranded s + if l.isConnect && s.kernel.edge then 1 else 0
  edge : l.isConnect = false → l.isPoll = true ∨ s.kernel.edge = false → t.kernel.edge = false

theorem Accounts.keeps {s t : State} {l : Label} (ht : Accounts t) (hl : l.isConnect = false)
    (hp : l.isPoll = false) (hb : t.kernel.backlog = s.kernel.backlog)
    (hc : t.kernel.conns.length = s.kernel.conns.length) (he : t.kernel.edge = s.kernel.edge)
    (hr : reports t = reports s) : Outcome s l t where
  accounts := ht
  count := by simp [hc, hl]
  stranded := by simp [BridgeServer.stranded, hb, hr, hl]
  edge _ h := by simpa [hp, he] using h

theorem accounts_data {s : State} (h : Accounts s) {fd : Nat} {fds : List Nat} (junk : Int)
    (hpc : s.pc = .handling (fd :: fds)) (hfd : s.sockfd ≠ (fd : Int)) :
    Outcome s (.handle junk) { incomingData s fd junk with pc := .handling fds } := by
  have hrep (t : State) (hs : t.sockfd = s.sockfd) (he : t.kernel.edge = s.kernel.edge)
      (ht : t.pc = .handling fds) : reports t = reports s := by
    simp [reports, hpc, ht, hs, he, hfd]
  obtain he | ⟨i, n, hn, hns, he⟩ := incomingData_cases s fd junk <;> rw [he]
  · refine Accounts.keeps ?_ rfl rfl rfl rfl rfl (hrep _ rfl rfl rfl)
    exact h.table (.refl _) rfl h.nodes h.copies rfl (hrep _ rfl rfl rfl)
  · obtain ⟨hb, hc, hedge⟩ := stop_table n.client s.kernel
    refine Accounts.keeps ?_ rfl rfl hb (by rw [hc]) hedge (hrep _ rfl hedge rfl)
    refine h.frame (fun g => ?_) rfl ?_ h.copies hb (by rw [hc]) rfl (hrep _ rfl hedge rfl)
    · obtain ⟨hnone, hg, hpos⟩ | hsame := fileAt_stop n.client s.kernel g
      · exact .inr ⟨hnone, hpos, fun hgs => hfd (by rw [← hgs, hg, hns])⟩
      · exact .inl hsame
    · intro m hm
      obtain ⟨n', hn', hi⟩ := mem_setClient hn hm rfl
      exact (Prod.mk.inj hi).1 ▸ h.nodes n' hn'

theorem accounts_arrive {s : State} (h : Accounts s) (a : Arrival) :
    Outcome s (.arrive a) { s with kernel := arrive s.kernel a } := by
  have howed := h.owed
  obtain ⟨hf, ⟨⟨room, rfl⟩, hb, hl, he⟩ | ⟨hne, hb, hl, he⟩⟩ := arrive_table s.kernel a
  · have hfile := fileAt_congr hf
    have hrep : reports { s with kernel := arrive s.kernel (.connect room) } =
        reports s + if s.kernel.edge then 0 else 1 := by
      unfold reports
      dsimp only
      rw [he]
      cases s.kernel.edge <;> simp [Nat.add_comm]
    have hnew : s.kernel.conns.length ∉ s.kernel.backlog ∧ s.kernel.conns.length ∉ s.listed := by
      have := (h.all s.kernel.conns.length).not.mp (Nat.lt_irrefl _)
      exact not_or.mp this
    refine ⟨⟨fun g => ?_, ?_, h.nodes, h.copies, ?_, ?_, fun c => ?_, ?_⟩, ?_, ?_, by
      simp [Label.isConnect]⟩
    · rw [hfile]
      exact h.listener g
    · rw [hfile]
      exact h.zero
    · rw [hb]
      exact List.nodup_append.mpr ⟨h.backlog, by simp, fun c hc d hd => by
        obtain rfl : d = s.kernel.conns.length := by simpa using hd
        exact fun he => hnew.1 (he ▸ hc)⟩
    · rw [hb]
      intro c hc
      obtain hc | rfl : c ∈ s.kernel.backlog ∨ c = s.kernel.conns.length := by simpa using hc
      · exact h.waiting c hc
      · exact hnew.2
    · have hall := h.all c
      rw [hb, hl, Nat.lt_succ_iff_lt_or_eq, hall, List.mem_append, List.mem_singleton]
      tauto
    · rw [hrep, hb, List.length_append, List.length_singleton]
      split <;> omega
    · simp [hl, Label.isConnect]
    · rw [stranded, stranded, hrep, hb, List.length_append, List.length_singleton]
      cases hedge : s.kernel.edge
      · simp [Label.isConnect]
      · simp [Label.isConnect]
        omega
  · have hconn : (Label.arrive a).isConnect = false := by
      cases a <;> simp_all [Label.isConnect]
    have hrep : reports { s with kernel := arrive s.kernel a } = reports s := by
      simp [reports, he]
    exact Accounts.keeps (h.table ⟨hf, hb, hl, he⟩ rfl h.nodes h.copies rfl hrep) hconn rfl hb hl
      he hrep

theorem accounts_step {s t : State} {l : Label} (h : Accounts s) (hs : step s l = some t) :
    Outcome s l t := by
  cases step_move hs with
  | arrive a => exact accounts_arrive h a
  | poll fds hpc hr =>
    obtain ⟨hrep, he⟩ := reports_poll h hpc hr
    obtain ⟨hf, hb, hl⟩ := reportedAll_other fds s.kernel
    refine ⟨h.frame (fun g => .inl (fileAt_congr hf g)) rfl h.nodes h.copies hb hl rfl hrep, ?_, ?_,
      fun _ _ => he⟩
    · simpa [Label.isConnect] using hl
    · rw [stranded, hrep, hb]
      simp [Label.isConnect, stranded]
  | accept junk fd fds hpc hfd =>
    obtain ⟨ha, hr, hb, hl, he⟩ := accounts_accept h hpc hfd
    dsimp only at hr hb hl he
    refine ⟨ha, by simpa [Label.isConnect] using hl, ?_, ?_⟩
    · simp only [stranded, Label.isConnect, Bool.false_and, Bool.false_eq_true, if_false,
        Nat.add_zero]
      rw [← hr, ← hb, Nat.add_sub_add_right]
    · intro _ hor
      simpa [Label.isPoll, he] using hor
  | data junk fd fds hpc hfd => exact accounts_data h junk hpc hfd
  | finish hpc =>
    have hrep : reports (finish s) = reports s := by simp [reports, finish, hpc]
    refine Accounts.keeps (h.table (.refl _) rfl ?_ ?_ rfl hrep) rfl rfl rfl rfl rfl hrep
    · intro n hn
      exact h.nodes n (mem_cleanup hn)
    · intro c hc
      simp only [finish, List.mem_append, List.mem_singleton] at hc
      obtain hc | rfl := hc
      · exact h.copies c hc
      · split
        · next n hn =>
          exact h.nodes n (mem_cleanup (List.mem_of_find?_eq_some hn))
        · obtain ⟨m, hm⟩ := h.sockfd_nat
          simp [BridgeClient.none, hm]
  | write data hpc =>
    have hk := writeAll_table data s.kernel (cleanup s.kernel s.clients)
    have hrep : reports (write s data) = reports s := by
      simp [reports, write, hpc, hk.edge]
    refine Accounts.keeps (h.table hk rfl ?_ h.copies rfl hrep) rfl rfl hk.backlog hk.count
      hk.edge hrep
    intro n' hn'
    obtain ⟨n, hn, he⟩ := mem_write hn'
    exact (Prod.mk.inj he).1 ▸ h.nodes n hn
  | copy l k copies hpc hl hk hcs =>
    have hrep : reports { s with kernel := k, copies := copies } = reports s := by
      simp [reports, hk.edge]
    refine Accounts.keeps (h.table hk rfl h.nodes ?_ rfl hrep) ?_ ?_ hk.backlog hk.count
      hk.edge hrep
    · intro c hc
      obtain ⟨d, hd, he⟩ := List.mem_map.mp (hcs ▸ List.mem_map_of_mem hc)
      exact he ▸ h.copies d hd
    · cases l <;> first | rfl | cases hl
    · cases l <;> first | rfl | cases hl
  | copyStop i c hpc hc =>
    obtain ⟨hb, hl, hedge⟩ := stop_table c s.kernel
    have hcs := h.copies c (List.mem_of_getElem? hc)
    have hrep : reports { s with
        copies := s.copies.set i (c.stop s.kernel).1, kernel := (c.stop s.kernel).2 } =
        reports s := by
      simp [reports, hedge]
    refine Accounts.keeps ?_ rfl rfl hb (by rw [hl]) hedge hrep
    refine h.frame (fun g => ?_) rfl h.nodes ?_ hb (by rw [hl]) rfl hrep
    · obtain ⟨hnone, hg, hpos⟩ | hsame := fileAt_stop c s.kernel g
      · exact .inr ⟨hnone, hpos, fun hgs => hcs (hg.symm.trans hgs)⟩
      · exact .inl hsame
    · intro d hd
      obtain hd | rfl := List.mem_or_eq_of_mem_set hd
      · exact h.copies d hd
      · exact hcs

/-- Along a run the connections are counted, and one is stranded as soon as two arrive
between two polls. -/
theorem accounts_run {ls : List Label} {s t : State} (h : Accounts s)
    (hr : run step ls s = some t) :
    Accounts t ∧ t.kernel.conns.length = s.kernel.conns.length + connects ls ∧
      (stranded t = 0 ↔ stranded s = 0 ∧ Along step OnePerPoll ls s) := by
  induction ls generalizing s with
  | nil =>
    obtain rfl : s = t := by simpa using hr
    exact ⟨h, rfl, by simp [Along]⟩
  | cons l ls ih =>
    obtain ⟨m, hm, hr⟩ := run_cons_some.mp hr
    have ho := accounts_step h hm
    obtain ⟨ht, hc, hst⟩ := ih ho.accounts hr
    refine ⟨ht, ?_, ?_⟩
    · rw [hc, ho.count, connects, connects, List.countP_cons]
      omega
    · rw [hst, along_cons_of_step hm, ho.stranded, ← and_assoc]
      refine and_congr_left fun _ => ?_
      cases hl : l.isConnect <;> cases he : s.kernel.edge <;> simp [OnePerPoll, hl, he]

theorem edge_run {ms : List Label} {s t : State} (h : Accounts s) (hr : run step ms s = some t)
    (hc : connects ms = 0) (hp : 1 ≤ polls ms ∨ s.kernel.edge = false) : t.kernel.edge = false := by
  induction ms generalizing s with
  | nil =>
    obtain rfl : s = t := by simpa using hr
    simpa [polls] using hp
  | cons l ms ih =>
    obtain ⟨m, hm, hr⟩ := run_cons_some.mp hr
    have ho := accounts_step h hm
    obtain ⟨hl, hc⟩ : l.isConnect = false ∧ connects ms = 0 := by
      simpa [connects, List.countP_cons, and_comm] using hc
    refine ih ho.accounts hr hc ?_
    rcases Nat.eq_zero_or_pos (polls ms) with h0 | hpos
    · right
      refine ho.edge hl (hp.imp_left fun hp => ?_)
      by_contra hn
      rw [polls] at hp h0
      rw [List.countP_cons_of_neg hn, h0] at hp
      omega
    · exact .inl hpos

theorem onePerPoll_of_none {ms : List Label} (hc : connects ms = 0) (s : State) :
    Along step OnePerPoll ms s := by
  induction ms generalizing s with
  | nil => trivial
  | cons l ms ih =>
    obtain ⟨hl, hc⟩ : l.isConnect = false ∧ connects ms = 0 := by
      simpa [connects, List.countP_cons, and_comm] using hc
    unfold Along
    split
    · trivial
    · exact ⟨fun h => by simp [hl] at h, ih hc _⟩

theorem all_listed_iff {s : State} (h : Accounts s) (hpc : s.pc = .idle)
    (he : s.kernel.edge = false) :
    (∀ c < s.kernel.conns.length, c ∈ s.listed) ↔ stranded s = 0 := by
  have hrep : reports s = 0 := by simp [reports, hpc, he]
  rw [stranded, hrep, Nat.sub_zero, List.length_eq_zero_iff]
  constructor
  · intro hall
    cases hb : s.kernel.backlog with
    | nil => rfl
    | cons c cs =>
      have hc : c ∈ s.kernel.backlog := by simp [hb]
      exact absurd (hall c ((h.all c).mpr (.inl hc))) (h.waiting c hc)
  · intro hb c hc
    simpa [hb] using (h.all c).mp hc

theorem exists_reports (s : State) : ∃ fds, Reports s fds := by
  have hnd : (ready s.kernel).Nodup := List.nodup_range.filter _
  by_cases hl : ∃ n ∈ ready s.kernel, s.sockfd = (n : Int)
  · obtain ⟨n, hn, hs⟩ := hl
    have hperm := List.perm_cons_erase hn
    refine ⟨(n :: (ready s.kernel).erase n).take 64, ?_, ?_, ?_, ?_⟩
    · exact (hperm.nodup_iff.mp hnd).sublist (List.take_sublist _ _)
    · exact fun fd hfd => hperm.mem_iff.mpr (List.mem_of_mem_take hfd)
    · rw [List.length_take, hperm.length_eq]
    · intro fd _ hfd
      obtain rfl : n = fd := Int.ofNat_inj.mp (hs.symm.trans hfd)
      simp
  · refine ⟨(ready s.kernel).take 64, hnd.sublist (List.take_sublist _ _),
      fun fd hfd => List.mem_of_mem_take hfd, List.length_take, ?_⟩
    exact fun fd hfd hs => absurd ⟨fd, hfd, hs⟩ hl

theorem exists_rest (fds : List Nat) {s : State} (hpc : s.pc = .handling fds) :
    ∃ ms t, run step ms s = some t ∧ t.pc = .idle ∧ connects ms = 0 := by
  induction fds generalizing s with
  | nil => exact ⟨[.finish], finish s, by simp [run, step, hpc], rfl, rfl⟩
  | cons fd fds ih =>
    obtain ⟨ms, t, hr, ht, hc⟩ := ih (s := { handle s fd 0 with pc := .handling fds }) rfl
    refine ⟨.handle 0 :: ms, t, run_cons_some.mpr ⟨_, by simp [step, hpc], hr⟩, ht, ?_⟩
    simpa [connects, Label.isConnect] using hc

theorem exists_calls (n : Nat) (s : State) :
    ∃ ms t, run step ms s = some t ∧ t.pc = .idle ∧ connects ms = 0 ∧ n ≤ polls ms := by
  have hrest : ∃ ms t, run step ms s = some t ∧ t.pc = .idle ∧ connects ms = 0 := by
    cases hpc : s.pc with
    | idle => exact ⟨[], s, rfl, hpc, rfl⟩
    | handling fds => exact exists_rest fds hpc
  induction n with
  | zero =>
    obtain ⟨ms, t, hr, ht, hc⟩ := hrest
    exact ⟨ms, t, hr, ht, hc, Nat.zero_le _⟩
  | succ n ih =>
    obtain ⟨ms, t, hr, ht, hc, hn⟩ := ih
    obtain ⟨fds, hfds⟩ := exists_reports t
    obtain ⟨ns, u, hu, hidle, hcn⟩ := exists_rest fds
      (s := { t with kernel := fds.foldl reported t.kernel, pc := .handling fds }) rfl
    refine ⟨ms ++ .poll fds :: ns, u, run_append_some.mpr ⟨t, hr, run_cons_some.mpr
      ⟨_, by simp [step, ht, hfds], hu⟩⟩, hidle, ?_, ?_⟩
    · simp only [connects, List.countP_append, List.countP_cons] at hc hcn ⊢
      simp [hc, hcn, Label.isConnect]
    · simp only [polls, List.countP_append, List.countP_cons] at hn ⊢
      simp [Label.isPoll]
      omega

/-- On every schedule: no connection is lost exactly when at most one arrives between two
reports of epoll. -/
theorem none_lost_iff (std : List Bool) (ls : List Label) (h : (run step ls (begun std)).isSome) :
    NoneLost std ls ↔ Along step OnePerPoll ls (begun std) := by
  obtain ⟨t, ht⟩ := Option.isSome_iff_exists.mp h
  obtain ⟨hacc, hcount, hstr⟩ := accounts_run (accounts_begun std) ht
  have hzero : stranded (begun std) = 0 := rfl
  -- what a suffix without connections makes of the schedule
  have hend : ∀ ms u, run step ms t = some u → u.pc = .idle → connects ms = 0 →
      1 ≤ polls ms → ((∀ c < u.kernel.conns.length, c ∈ u.listed) ↔
        Along step OnePerPoll ls (begun std)) := by
    intro ms u hu hpc hc hp
    obtain ⟨haccu, -, hstru⟩ := accounts_run hacc hu
    rw [all_listed_iff haccu hpc (edge_run hacc hu hc (.inl hp)), hstru, hstr]
    exact ⟨fun h => h.1.2, fun h => ⟨⟨hzero, h⟩, onePerPoll_of_none hc t⟩⟩
  constructor
  · intro hnone
    obtain ⟨ms, u, hu, hpc, hc, hp⟩ := exists_calls (connects ls + 1) t
    refine (hend ms u hu hpc hc (by omega)).mp ?_
    exact hnone ms u (run_append_some.mpr ⟨t, ht, hu⟩) hpc hc (by omega)
  · intro hone ms u hu hpc hc hp
    obtain ⟨t', ht', hu⟩ := run_append_some.mp hu
    obtain rfl : t = t' := by simpa [ht] using ht'
    rcases Nat.eq_zero_or_pos (connects ls) with h0 | hpos
    · obtain ⟨-, hcountu, -⟩ := accounts_run hacc hu
      have hlen : u.kernel.conns.length = 0 := by
        rw [hcountu, hcount, h0, hc]
        rfl
      intro c hc
      omega
    · exact (hend ms u hu hpc hc (by omega)).mpr hone

def oneConnection : List Label := [.arrive (.connect 100), .poll [3], .handle 0, .finish]

theorem none_lost_iff_one : (run step oneConnection (begun [true, true, true])).isSome ∧
    NoneLost [true, true, true] oneConnection :=
  ⟨by decide, (none_lost_iff _ _ (by decide)).mpr (by decide)⟩

def twoConnections : List Label := [.arrive (.connect 100), .arrive (.connect 100)]

/-- Two calls of available() accept the first of them only. -/
theorem second_connection_lost :
    ¬ ∀ std ls, (run step ls (begun std)).isSome → NoneLost std ls := by
  intro h
  have hn := h [true, true, true] twoConnections (by decide)
    [.poll [3], .handle 0, .finish, .poll [], .finish]
  revert hn
  decide

end RasPiArduino.BridgeServer
