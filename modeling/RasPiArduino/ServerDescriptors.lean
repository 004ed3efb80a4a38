import RasPiArduino.ServerMoves
import Mathlib.Data.List.Nodup

/-! Whether the connected nodes of the clients list keep descriptors of their own, while
the sketch stops copies of them and accept takes the numbers again. -/
namespace RasPiArduino.BridgeServer
open RasPiArduino.Net RasPiArduino.Transition RasPiArduino.Table

/-- The connected nodes have different descriptors, each of the connection it was
accepted for. -/
structure Distinct (s : State) : Prop where
  own : ∀ n ∈ s.clients, connectedNode s.kernel n = true →
    ∃ c, n.conn = some c ∧ fileAt s.kernel n.client.sockfd = some (.conn c)
  differ : (s.clients.filter (connectedNode s.kernel)).Pairwise fun a b =>
    a.client.sockfd ≠ b.client.sockfd

/-- Each connection was handed a first part of the data at most, and that once. -/
def SentOnce (data : List UInt8) (k k' : Kernel) : Prop :=
  ∀ (c : Nat) (x y : Conn), k.conns[c]? = some x → k'.conns[c]? = some y →
    ∃ n, y.outbox = x.outbox ++ data.take n

/-- clientByFd(fd) gives no node of an older connection. -/
def FindsOwn (s : State) (fd : Nat) : Prop :=
  ∀ (i : Nat) (n : Node) (c : Nat), clientByFd s.clients fd = some i → s.clients[i]? = some n →
    fileAt s.kernel fd = some (.conn c) → n.conn = some c

def KeepsApart (s : State) (l : Label) (t : State) : Prop :=
  Distinct t ∧ (∀ data, l = .write data → SentOnce data s.kernel t.kernel) ∧
    ∀ junk fd fds, l = .handle junk → s.pc = .handling (fd :: fds) → s.sockfd ≠ fd → FindsOwn s fd

/-- The number accept is about to return is that of no listed node with its flag set. -/
def NumberFresh (s : State) (l : Label) (_ : State) : Prop :=
  ∀ junk fd fds, l = .handle junk → s.pc = .handling (fd :: fds) → s.sockfd = (fd : Int) →
    s.kernel.backlog ≠ [] → ∀ n ∈ s.clients, n.client.flag = true →
      n.client.sockfd ≠ freeFd s.kernel.files

def Own (k : Kernel) (n : Node) : Prop :=
  ∀ f, fileAt k n.client.sockfd = some f → ∃ c, n.conn = some c ∧ f = .conn c

/-- A node may have lost its number only after it was stopped, in the call of available()
that no longer has an event for that number. -/
structure Apart (s : State) : Prop where
  own : ∀ n ∈ s.clients, Own s.kernel n ∨ n.client.flag = false ∧
    ∃ fds, s.pc = .handling fds ∧ ∀ fd ∈ fds, n.client.sockfd ≠ (fd : Int)
  conns : (s.clients.filterMap Node.conn).Nodup
  older : ∀ c ∈ s.clients.filterMap Node.conn, c ∉ s.kernel.backlog ∧ c < s.kernel.conns.length
  backlog : s.kernel.backlog.Nodup ∧ ∀ c ∈ s.kernel.backlog, c < s.kernel.conns.length
  events : ∀ fds, s.pc = .handling fds →
    fds.Nodup ∧ ∀ fd ∈ fds, (fileAt s.kernel (fd : Int)).isSome = true

theorem Own.mono {k k' : Kernel} {n : Node} (h : Own k n)
    (hk : ∀ g, fileAt k' g = none ∨ fileAt k' g = fileAt k g) : Own k' n := by
  intro f hf
  obtain hn | he := hk n.client.sockfd
  · simp [hn] at hf
  · exact h f (he ▸ hf)

theorem fileAt_stop (c : BridgeClient) (k : Kernel) (g : Int) :
    fileAt (c.stop k).2 g = none ∧ g = c.sockfd ∧ 0 < g ∨
      fileAt (c.stop k).2 g = fileAt k g := by
  simp only [BridgeClient.stop]
  split
  · next hpos =>
    rw [fileAt_close]
    by_cases hg : g = c.sockfd
    · exact .inl ⟨if_pos hg, hg, hg ▸ hpos⟩
    · exact .inr (if_neg hg)
  · exact .inr rfl

theorem fileAt_stop_some {c : BridgeClient} {k : Kernel} {g : Int} {f : File}
    (h : fileAt (c.stop k).2 g = some f) : fileAt k g = some f := by
  obtain ⟨hnone, -⟩ | hsame := fileAt_stop c k g
  · rw [hnone] at h
    cases h
  · exact hsame ▸ h

theorem stop_table (c : BridgeClient) (k : Kernel) : (c.stop k).2.backlog = k.backlog ∧
    (c.stop k).2.conns = k.conns ∧ (c.stop k).2.edge = k.edge := by
  simp only [BridgeClient.stop]
  split
  · exact close_table k _
  · exact ⟨rfl, rfl, rfl⟩

theorem clientByFd_some {cs : List Node} {fd : Int} {i : Nat} {n : Node}
    (h : clientByFd cs fd = some i) (hn : cs[i]? = some n) : n.client.sockfd = fd := by
  obtain ⟨hi, hp, -⟩ := List.findIdx?_eq_some_iff_getElem.mp h
  rw [List.getElem?_eq_getElem hi, Option.some.injEq] at hn
  exact hn ▸ eq_of_beq hp

theorem incomingData_cases (s : State) (fd : Nat) (junk : Int) :
    incomingData s fd junk = s ∨ ∃ i n, s.clients[i]? = some n ∧ n.client.sockfd = (fd : Int) ∧
      incomingData s fd junk =
        { s with
          kernel := (n.client.stop s.kernel).2
          clients := s.clients.set i { n with client := (n.client.stop s.kernel).1 } } := by
  unfold incomingData
  split
  · exact .inl rfl
  · next i hi =>
    split
    · exact .inl rfl
    · next n hn =>
      split
      · exact .inr ⟨i, n, hn, clientByFd_some hi hn, rfl⟩
      · exact .inl rfl

theorem apart_begun (std : List Bool) : Apart (begun std) where
  own n hn := by simp [begun] at hn
  conns := List.nodup_nil
  older c hc := by simp [begun] at hc
  backlog := ⟨List.nodup_nil, by simp [begun]⟩
  events fds h := by simp [begun] at h

theorem Apart.frame {s t : State} (h : Apart s) (hk : SameTable s.kernel t.kernel)
    (hc : t.clients = s.clients) (hpc : t.pc = s.pc) : Apart t := by
  have hfile := fileAt_congr hk.files
  refine ⟨?_, hc ▸ h.conns, ?_, ?_, ?_⟩
  · intro n hn
    rw [hpc]
    exact (h.own n (hc ▸ hn)).imp_left fun ho => ho.mono fun g => .inr (hfile g)
  · rw [hc, hk.backlog, hk.count]
    exact h.older
  · rw [hk.backlog, hk.count]
    exact h.backlog
  · intro fds hf
    obtain ⟨hnd, hopen⟩ := h.events fds (hpc ▸ hf)
    exact ⟨hnd, fun fd hfd => (hfile fd).symm ▸ hopen fd hfd⟩

theorem Apart.arrive {s : State} (h : Apart s) (a : Arrival) :
    Apart { s with kernel := Net.arrive s.kernel a } := by
  have hfile := fileAt_congr (arrive_table s.kernel a).1
  refine ⟨fun n hn => (h.own n hn).imp_left fun ho => ho.mono fun g => .inr (hfile g), h.conns,
    fun c hc => arrive_spent (h.older c hc) a, arrive_backlog h.backlog a, fun fds hf => ?_⟩
  obtain ⟨hnd, hopen⟩ := h.events fds hf
  exact ⟨hnd, fun fd hfd => (hfile fd).symm ▸ hopen fd hfd⟩

theorem ready_open {k : Kernel} {fd : Nat} (h : fd ∈ ready k) :
    (fileAt k (fd : Int)).isSome = true := by
  simp only [ready, List.mem_filter] at h
  cases hf : fileAt k (fd : Int) with
  | none => simp [hf, hasEdge] at h
  | some f => rfl

theorem Apart.idle_own {s : State} (h : Apart s) (hpc : s.pc = .idle) :
    ∀ n ∈ s.clients, Own s.kernel n := by
  intro n hn
  obtain ho | ⟨-, fds, hf, -⟩ := h.own n hn
  · exact ho
  · simp [hpc] at hf

theorem Apart.flag_own {s : State} (h : Apart s) {n : Node} (hn : n ∈ s.clients)
    (hf : n.client.flag = true) : Own s.kernel n := by
  obtain ho | ⟨hff, -⟩ := h.own n hn
  · exact ho
  · simp [hf] at hff

theorem apart_distinct {s : State} (h : Apart s) : Distinct s := by
  have hown : ∀ n ∈ s.clients, connectedNode s.kernel n = true →
      ∃ c, n.conn = some c ∧ fileAt s.kernel n.client.sockfd = some (.conn c) := by
    intro n hn hc
    obtain ⟨hf, ho⟩ := connectedNode_iff.mp hc
    obtain ⟨f, hfile⟩ := Option.isSome_iff_exists.mp ho
    obtain ⟨c, hconn, rfl⟩ := h.flag_own hn hf f hfile
    exact ⟨c, hconn, hfile⟩
  refine ⟨hown, ?_⟩
  refine ((conns_pairwise h.conns).filter _).imp_of_mem ?_
  intro a b ha hb hab heq
  obtain ⟨ha, hca⟩ := List.mem_filter.mp ha
  obtain ⟨hb, hcb⟩ := List.mem_filter.mp hb
  obtain ⟨c, hc, hfa⟩ := hown a ha hca
  obtain ⟨d, hd, hfb⟩ := hown b hb hcb
  rw [heq, hfb] at hfa
  obtain rfl : d = c := by simpa using hfa
  exact hab d hc hd

theorem Apart.shrink {s t : State} (h : Apart s) (hk : SameTable s.kernel t.kernel)
    (hpc : t.pc = .idle) (hown : ∀ n ∈ t.clients, Own t.kernel n)
    (hsub : (t.clients.filterMap Node.conn).Sublist (s.clients.filterMap Node.conn)) :
    Apart t where
  own n hn := .inl (hown n hn)
  conns := h.conns.sublist hsub
  older c hc := by
    rw [hk.backlog, hk.count]
    exact h.older c (hsub.subset hc)
  backlog := by
    rw [hk.backlog, hk.count]
    exact h.backlog
  events fds hf := by simp [hpc] at hf

def Left (fds : List Nat) (n : Node) : Prop :=
  n.client.flag = false ∧ ∀ fd ∈ fds, n.client.sockfd ≠ (fd : Int)

theorem Apart.handling {s t : State} {fd : Nat} {fds : List Nat} (h : Apart s)
    (hpc : s.pc = .handling (fd :: fds)) (hpt : t.pc = .handling fds)
    (hown : ∀ n ∈ t.clients, Own t.kernel n ∨ Left fds n)
    (hconns : (t.clients.filterMap Node.conn).Nodup)
    (holder : ∀ c ∈ t.clients.filterMap Node.conn, c ∉ t.kernel.backlog ∧
      c < t.kernel.conns.length)
    (hb : t.kernel.backlog.Sublist s.kernel.backlog)
    (hl : t.kernel.conns.length = s.kernel.conns.length)
    (hopen : ∀ g ∈ fds, (fileAt s.kernel (g : Int)).isSome = true →
      (fileAt t.kernel (g : Int)).isSome = true) : Apart t where
  own n hn := (hown n hn).imp_right fun hs => ⟨hs.1, fds, hpt, hs.2⟩
  conns := hconns
  older := holder
  backlog := ⟨h.backlog.1.sublist hb, fun c hc => hl ▸ h.backlog.2 c (hb.subset hc)⟩
  events fds' hf := by
    obtain rfl : fds = fds' := by simpa [hpt] using hf
    obtain ⟨hnd, ho⟩ := h.events _ hpc
    exact ⟨(List.nodup_cons.mp hnd).2, fun g hg => hopen g hg (ho g (List.mem_cons_of_mem fd hg))⟩

theorem Apart.left {s : State} {fd : Nat} {fds : List Nat} (h : Apart s)
    (hpc : s.pc = .handling (fd :: fds)) {n : Node} (hn : n ∈ s.clients) :
    Own s.kernel n ∨ Left fds n := by
  refine (h.own n hn).imp_right fun hs => ⟨hs.1, ?_⟩
  obtain ⟨-, fds', hf, hne⟩ := hs
  obtain rfl : fd :: fds = fds' := by simpa [hpc] using hf
  exact fun g hg => hne g (List.mem_cons_of_mem fd hg)

/-- A new descriptor does not take the number of a node, but for one whose flag is clear and that
has no event to come. -/
theorem Apart.left_install {s : State} {fd : Nat} {fds : List Nat} (h : Apart s)
    (hpc : s.pc = .handling (fd :: fds)) {k : Kernel} {f : File}
    (hf : k.files = install s.kernel.files f)
    (hfresh : ∀ n ∈ s.clients, n.client.flag = true → n.client.sockfd ≠ freeFd s.kernel.files) :
    ∀ n ∈ s.clients, Own k n ∨ Left fds n := by
  intro n hn
  obtain ho | hs := h.left hpc hn
  · by_cases he : n.client.sockfd = freeFd s.kernel.files
    · cases hfl : n.client.flag with
      | true => exact absurd he (hfresh n hn hfl)
      | false =>
        -- the number was free, and so has no event to come
        refine .inr ⟨hfl, fun g hg hgs => ?_⟩
        have hog := (h.events _ hpc).2 g (List.mem_cons_of_mem fd hg)
        rw [← hgs, he, freeFd_free] at hog
        cases hog
    · refine .inl fun f' hfa => ho f' ?_
      rwa [fileAt_install hf, if_neg he] at hfa
  · exact .inr hs

theorem Apart.older_accept {s : State} (h : Apart s) {c : Nat} {cs : List Nat}
    (hb : s.kernel.backlog = c :: cs) : ∀ d ∈ s.clients.filterMap Node.conn,
      d ∉ cs ∧ d < s.kernel.conns.length ∧ d ≠ c := by
  intro d hd
  obtain ⟨hdb, hdl⟩ := h.older d hd
  rw [hb, List.mem_cons, not_or] at hdb
  exact ⟨hdb.2, hdl, hdb.1⟩

/-- accept takes a number that no node with its flag set has. -/
theorem apart_accept {s : State} (h : Apart s) {fd : Nat} {fds : List Nat}
    (hpc : s.pc = .handling (fd :: fds))
    (hfresh : s.kernel.backlog ≠ [] → ∀ n ∈ s.clients, n.client.flag = true →
      n.client.sockfd ≠ freeFd s.kernel.files) :
    Apart { acceptClient s with pc := .handling fds } := by
  obtain ⟨hb, ha⟩ | ⟨c, cs, k, hb, hf, hkb, hkl, -, ha⟩ := acceptClient_cases s
  · rw [ha]
    refine h.handling hpc rfl ?_ (by simpa using h.conns) (by simpa using h.older) (.refl _) rfl
      (fun _ _ ho => ho)
    intro n hn
    obtain hn | rfl : n ∈ s.clients ∨ n = ⟨⟨-1, true⟩, none⟩ := by simpa using hn
    · exact h.left hpc hn
    · exact .inl nofun
  · have hne : s.kernel.backlog ≠ [] := by simp [hb]
    have hfile (g : Int) := fileAt_install hf g
    have hold := h.left_install hpc hf (hfresh hne)
    have holder := h.older_accept hb
    rw [← hkb, ← hkl] at holder
    obtain ⟨hbn, hbl⟩ := h.backlog
    rw [hb] at hbn hbl
    have hsub : k.backlog.Sublist s.kernel.backlog := by
      rw [hkb, hb]
      exact List.sublist_cons_self c cs
    have hstay : ∀ g ∈ fds, (fileAt s.kernel (g : Int)).isSome = true →
        (fileAt k (g : Int)).isSome = true := by
      intro g _ ho
      rw [hfile]
      split
      · rfl
      · exact ho
    obtain ⟨-, ha⟩ | ⟨-, ha⟩ := ha <;> rw [ha]
    · refine h.handling hpc rfl ?_ ?_ ?_ hsub hkl hstay
      · intro n hn
        obtain hn | rfl : n ∈ s.clients ∨ n = ⟨⟨freeFd s.kernel.files, true⟩, some c⟩ := by
          simpa using hn
        · exact hold n hn
        · refine .inl fun f hfa => ⟨c, rfl, ?_⟩
          rw [hfile, if_pos rfl] at hfa
          exact (Option.some.inj hfa).symm
      · rw [List.filterMap_append, List.nodup_append]
        refine ⟨h.conns, by simp, fun d hd e he => ?_⟩
        obtain rfl : e = c := by simpa using he
        exact (holder d hd).2.2
      · rw [List.filterMap_append]
        intro d hd
        obtain hd | rfl : d ∈ s.clients.filterMap Node.conn ∨ d = c := by simpa using hd
        · exact ⟨(holder d hd).1, (holder d hd).2.1⟩
        · exact ⟨hkb ▸ (List.nodup_cons.mp hbn).1, hkl ▸ hbl d List.mem_cons_self⟩
    · exact h.handling hpc rfl hold h.conns
        (fun d hd => ⟨(holder d hd).1, (holder d hd).2.1⟩) hsub hkl hstay

theorem apart_data {s : State} (h : Apart s) {fd : Nat} {fds : List Nat} (junk : Int)
    (hpc : s.pc = .handling (fd :: fds)) :
    Apart { incomingData s fd junk with pc := .handling fds } := by
  obtain he | ⟨i, n, hn, hns, he⟩ := incomingData_cases s fd junk <;> rw [he]
  · exact h.handling hpc rfl (fun n hn => h.left hpc hn) h.conns h.older (.refl _) rfl
      (fun _ _ ho => ho)
  · have hstop (g : Int) := fileAt_stop n.client s.kernel g
    obtain ⟨hb, hc, -⟩ := stop_table n.client s.kernel
    have hmap := conns_set hn (n.client.stop s.kernel).1
    have hmono : ∀ m, Own s.kernel m → Own (n.client.stop s.kernel).2 m :=
      fun m ho => ho.mono fun g => (hstop g).imp_left And.left
    refine h.handling hpc rfl ?_ (hmap ▸ h.conns) ?_ ?_ ?_ ?_
    · intro m hm
      obtain ⟨j, hj⟩ := List.getElem?_of_mem hm
      obtain ⟨rfl, rfl⟩ | ⟨-, hj⟩ := (row_set hn).mp hj
      · exact (h.left hpc (List.mem_of_getElem? hn)).imp (fun ho => hmono n ho)
          fun hs => ⟨rfl, hs.2⟩
      · exact (h.left hpc (List.mem_of_getElem? hj)).imp_left (hmono m)
    · rw [hmap, hb, hc]
      exact h.older
    · rw [hb]
    · rw [hc]
    · intro g hg ho
      obtain ⟨-, hg', -⟩ | hg' := hstop (g : Int)
      · -- only the number of the event just handled was closed
        rw [hns, Int.ofNat_inj] at hg'
        exact absurd (hg' ▸ hg) (List.nodup_cons.mp (h.events _ hpc).1).1
      · exact hg' ▸ ho

theorem apart_step {s t : State} {l : Label} (h : Apart s) (hs : step s l = some t)
    (hq : NumberFresh s l t) : Apart t := by
  cases step_move hs with
  | arrive a => exact h.arrive a
  | poll fds hpc hr =>
    obtain ⟨hf, hb, hl⟩ := reportedAll_other fds s.kernel
    have hfile := fileAt_congr hf
    refine ⟨fun n hn => .inl ((h.idle_own hpc n hn).mono fun g => .inr (hfile g)), h.conns, ?_,
      ?_, ?_⟩
    · dsimp only
      rw [hb, hl]
      exact h.older
    · dsimp only
      rw [hb, hl]
      exact h.backlog
    · rintro fds' he
      obtain rfl : fds = fds' := by simpa using he
      exact ⟨hr.1, fun g hg => (hfile g).symm ▸ ready_open (hr.2.1 g hg)⟩
  | accept junk fd fds hpc hfd => exact apart_accept h hpc (hq junk fd fds rfl hpc hfd)
  | data junk fd fds hpc hfd => exact apart_data h junk hpc
  | finish hpc =>
    refine h.shrink (.refl _) rfl ?_ ?_
    · intro n hn
      simp only [finish, cleanup_eq, List.mem_filter] at hn
      exact h.flag_own hn.1 (connectedNode_iff.mp hn.2).1
    · simp only [finish, cleanup_eq]
      exact (List.filter_sublist).filterMap _
  | write data hpc =>
    have hk := writeAll_table data s.kernel (cleanup s.kernel s.clients)
    have hident := writeAll_ident data s.kernel (cleanup s.kernel s.clients)
    refine h.shrink hk hpc ?_ ?_
    · intro n' hn'
      obtain ⟨n, hn, he⟩ := mem_write hn'
      obtain ⟨hsock, hconn⟩ := Prod.mk.inj he
      have hkernel : (write s data).kernel =
          (writeAll data s.kernel (cleanup s.kernel s.clients)).2 := rfl
      intro f hf
      rw [← hsock, hkernel, fileAt_congr hk.files] at hf
      exact hconn ▸ h.idle_own hpc n hn f hf
    · have hconns : (writeAll data s.kernel (cleanup s.kernel s.clients)).1.filterMap Node.conn =
          (cleanup s.kernel s.clients).filterMap Node.conn := by
        simpa [List.filterMap_map, Node.ident, Function.comp_def] using
          congrArg (List.filterMap Prod.snd) hident
      have hclients : (write s data).clients =
          (writeAll data s.kernel (cleanup s.kernel s.clients)).1 := rfl
      rw [hclients, hconns, cleanup_eq]
      exact List.filter_sublist.filterMap _
  | copy l k copies hpc hl hk => exact h.frame hk rfl rfl
  | copyStop i c hpc hc =>
    obtain ⟨hb, hl, -⟩ := stop_table c s.kernel
    refine ⟨fun n hn => .inl ((h.idle_own hpc n hn).mono fun g =>
      (fileAt_stop c s.kernel g).imp_left And.left), h.conns, ?_, ?_, ?_⟩
    · dsimp only
      rw [hb, hl]
      exact h.older
    · dsimp only
      rw [hb, hl]
      exact h.backlog
    · intro fds hf
      simp [hpc] at hf

def peer (k : Kernel) (n : Node) : Option Nat :=
  match fileAt k n.client.sockfd with
  | some (.conn c) => some c
  | _ => none

theorem peer_iff {k : Kernel} {n : Node} {c : Nat} :
    peer k n = some c ↔ fileAt k n.client.sockfd = some (.conn c) := by
  unfold peer
  split <;> simp_all

theorem peer_congr {k k' : Kernel} (h : k'.files = k.files) : peer k' = peer k := by
  funext n
  rw [peer, fileAt_congr h, ← peer]

/-- A write reaches the connection behind the descriptor only, with a first part of the
data. -/
theorem write_conns (cl : BridgeClient) (k : Kernel) (data : List UInt8) {c : Nat} {x : Conn}
    (hx : k.conns[c]? = some x) :
    ∃ y, (cl.write k data).2.2.conns[c]? = some y ∧
      (fileAt k cl.sockfd ≠ some (.conn c) → y = x) ∧
      ∃ n, y.outbox = x.outbox ++ data.take n := by
  have hsame : ∃ y, k.conns[c]? = some y ∧ (fileAt k cl.sockfd ≠ some (.conn c) → y = x) ∧
      ∃ n, y.outbox = x.outbox ++ data.take n := ⟨x, hx, fun _ => rfl, 0, by simp⟩
  have hsend : ∃ y, (send k cl.sockfd data).2.conns[c]? = some y ∧
      (fileAt k cl.sockfd ≠ some (.conn c) → y = x) ∧
      ∃ n, y.outbox = x.outbox ++ data.take n := by
    unfold send
    split
    · next d hd =>
      split
      · exact hsame
      · next z hz =>
        split
        · exact hsame
        · split
          · exact hsame
          · split
            · exact hsame
            · by_cases hcd : c = d
              · subst hcd
                obtain rfl : x = z := by simpa [hx] using hz
                exact ⟨_, row_set_self hx, fun hne => absurd hd hne, x.room, rfl⟩
              · exact ⟨x, (row_set hz).mpr (.inr ⟨hcd, hx⟩), fun _ => rfl, 0, by simp⟩
    · exact hsame
  unfold BridgeClient.write
  split
  · exact hsame
  · dsimp only
    split <;> exact hsend

theorem writeAll_other (data : List UInt8) (cs : List Node) {k : Kernel} {c : Nat} {x : Conn}
    (hx : k.conns[c]? = some x) (hc : ∀ n ∈ cs, peer k n ≠ some c) :
    (writeAll data k cs).2.conns[c]? = some x := by
  induction cs generalizing k with
  | nil => exact hx
  | cons n ns ih =>
    obtain ⟨y, hy, hsame, -⟩ := write_conns n.client k data hx
    obtain rfl := hsame fun hf => hc n List.mem_cons_self (peer_iff.mpr hf)
    refine ih (k := (n.client.write k data).2.2) hy fun m hm => ?_
    rw [peer_congr (n.client.write_table k data).files]
    exact hc m (List.mem_cons_of_mem n hm)

theorem writeAll_sentOnce (data : List UInt8) {cs : List Node} {k : Kernel}
    (hd : (cs.filterMap (peer k)).Nodup) : SentOnce data k (writeAll data k cs).2 := by
  induction cs generalizing k with
  | nil =>
    intro c x y hx hy
    obtain rfl : x = y := by simpa [writeAll, hx] using hy
    exact ⟨0, by simp⟩
  | cons n ns ih =>
    intro c x y hx hy
    obtain ⟨z, hz, hsame, m, hout⟩ := write_conns n.client k data hx
    have hpeer := peer_congr (n.client.write_table k data).files
    by_cases hc : fileAt k n.client.sockfd = some (.conn c)
    · have hp := peer_iff.mpr hc
      rw [List.filterMap_cons_some hp, List.nodup_cons] at hd
      have hother := writeAll_other data ns hz fun a ha hpa => by
        rw [hpeer] at hpa
        exact hd.1 (List.mem_filterMap.mpr ⟨a, ha, hpa⟩)
      obtain rfl : z = y := by
        rw [writeAll, hother] at hy
        exact Option.some.inj hy
      exact ⟨m, hout⟩
    · obtain rfl := hsame hc
      refine ih (k := (n.client.write k data).2.2) ?_ c z y hz hy
      rw [hpeer]
      exact hd.sublist ((List.sublist_cons_self n ns).filterMap _)

theorem apart_sentOnce {s : State} (h : Apart s) (data : List UInt8) :
    SentOnce data s.kernel (write s data).kernel := by
  refine writeAll_sentOnce data ?_
  rw [cleanup_eq]
  have hd := apart_distinct h
  have hpeer : (s.clients.filter (connectedNode s.kernel)).filterMap (peer s.kernel) =
      (s.clients.filter (connectedNode s.kernel)).filterMap Node.conn := by
    refine List.filterMap_congr fun n hn => ?_
    obtain ⟨hn, hc⟩ := List.mem_filter.mp hn
    obtain ⟨c, hconn, hf⟩ := hd.own n hn hc
    rw [hconn, peer_iff.mpr hf]
  rw [hpeer]
  exact h.conns.sublist (List.filter_sublist.filterMap _)

theorem apart_findsOwn {s : State} (h : Apart s) {fd : Nat} {fds : List Nat}
    (hpc : s.pc = .handling (fd :: fds)) : FindsOwn s fd := by
  intro i n c hi hn hf
  have hsock := clientByFd_some hi hn
  obtain ho | ⟨-, fds', hf', hne⟩ := h.own n (List.mem_of_getElem? hn)
  · obtain ⟨d, hd, he⟩ := ho (.conn c) (hsock ▸ hf)
    obtain rfl : c = d := by simpa using he
    exact hd
  · obtain rfl : fd :: fds = fds' := by simpa [hpc] using hf'
    exact absurd hsock (hne fd List.mem_cons_self)

theorem number_fresh {s t : State} {l : Label} (h0 : ∀ n ∈ s.clients, n.client.sockfd ≠ 0)
    (hs : step s l = some t) (ht : Distinct t) : NumberFresh s l t := by
  rintro junk fd fds rfl hpc hfd hb n hn hflag he
  cases step_move hs with
  | copy l k copies hpc' => simp [hpc] at hpc'
  | data junk fd' fds' hpc' hne =>
    obtain ⟨rfl, rfl⟩ : fd = fd' ∧ fds = fds' := by simpa [hpc] using hpc'
    exact hne hfd
  | accept junk fd' fds' hpc' hfd' =>
    obtain ⟨hb', -⟩ | ⟨c, cs, k, -, hf, -, -, -, ⟨hz, ha⟩ | ⟨hz, -⟩⟩ := acceptClient_cases s
    · exact hb hb'
    · have hopen : (fileAt k (freeFd s.kernel.files : Int)).isSome = true := by
        simp [fileAt_install hf]
      have hpair := ht.differ
      simp only [ha, List.filter_append, List.pairwise_append] at hpair
      refine hpair.2.2 n (List.mem_filter.mpr ⟨hn, ?_⟩)
        ⟨⟨freeFd s.kernel.files, true⟩, some c⟩ (List.mem_filter.mpr ⟨by simp, ?_⟩) he
      · exact connectedNode_iff.mpr ⟨hflag, he ▸ hopen⟩
      · exact connectedNode_iff.mpr ⟨rfl, hopen⟩
    · exact h0 n hn (by rw [he, hz]; rfl)

/-- available() takes the number 0 for a failure of accept: no node has it. -/
def NonZero (s : State) : Prop := ∀ n ∈ s.clients, n.client.sockfd ≠ 0

theorem nonZero_step {s t : State} {l : Label} (h : NonZero s) (hs : step s l = some t) :
    NonZero t := by
  cases step_move hs with
  | accept junk fd fds hpc hfd =>
    obtain ⟨-, ha⟩ | ⟨c, cs, k, -, -, -, -, -, ⟨hz, ha⟩ | ⟨-, ha⟩⟩ := acceptClient_cases s <;>
      rw [ha] <;> intro n hn
    · obtain hn | rfl : n ∈ s.clients ∨ n = ⟨⟨-1, true⟩, none⟩ := by simpa using hn
      · exact h n hn
      · simp
    · obtain hn | rfl : n ∈ s.clients ∨ n = ⟨⟨freeFd s.kernel.files, true⟩, some c⟩ := by
        simpa using hn
      · exact h n hn
      · simpa using hz
    · exact h n hn
  | data junk fd fds hpc hfd =>
    obtain he | ⟨i, n, hn, -, he⟩ := incomingData_cases s fd junk <;> rw [he]
    · exact h
    · intro m hm
      obtain ⟨n', hn', hi⟩ := mem_setClient hn hm rfl
      exact (Prod.mk.inj hi).1 ▸ h n' hn'
  | finish hpc =>
    intro n hn
    exact h n (mem_cleanup hn)
  | write data hpc =>
    intro n' hn'
    obtain ⟨n, hn, he⟩ := mem_write hn'
    exact (Prod.mk.inj he).1 ▸ h n hn
  | _ => exact h

/-- In every run: the connected nodes keep descriptors of their own exactly when accept
never returns the number of a listed node that has its flag set. -/
theorem keeps_apart_iff (std : List Bool) (ls : List Label) :
    Along step KeepsApart ls (begun std) ↔ Along step NumberFresh ls (begun std) := by
  constructor
  · intro hp
    refine Along.of_invariant (I := NonZero) ?_ (by simp [NonZero, begun]) hp
    intro s l t h0 hs hp
    exact ⟨nonZero_step h0 hs, number_fresh h0 hs hp.1⟩
  · intro hq
    refine Along.of_invariant (I := Apart) ?_ (apart_begun std) hq
    intro s l t h hs hq
    have ht := apart_step h hs hq
    refine ⟨ht, apart_distinct ht, ?_, fun junk fd fds _ hpc _ => apart_findsOwn h hpc⟩
    rintro data rfl
    cases step_move hs with
    | write data hpc => exact apart_sentOnce h data
    | copy l k copies hpc hl => cases hl

def stopAndConnect : List Label :=
  [.arrive (.connect 100), .poll [3], .handle 0, .finish, .arrive (.data 0 [1]), .poll [5],
    .handle 0, .finish, .copyStop 1, .arrive (.connect 100), .poll [3], .handle 0]

/-- The number 5 is then in the list twice, and a write goes to the second peer twice. -/
theorem stopped_copy_shares_descriptor :
    ¬ ∀ std ls, Along step KeepsApart ls (begun std) := by
  intro h
  have hd : Along step (fun _ _ t => (t.clients.filter (connectedNode t.kernel)).Pairwise
      fun a b => a.client.sockfd ≠ b.client.sockfd) stopAndConnect (begun [true, true, true]) :=
    (h [true, true, true] stopAndConnect).imp fun _ _ _ hk => hk.1.differ
  revert hd
  decide

end RasPiArduino.BridgeServer
