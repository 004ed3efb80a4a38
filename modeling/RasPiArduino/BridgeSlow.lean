import RasPiArduino.BridgeRuns

/-! Clients whose send buffer is full for a while, and which of them lose their flag or their
node for it. -/
namespace RasPiArduino.Bridge
open RasPiArduino.Net RasPiArduino.BridgeServer RasPiArduino.Transition

/-- The number of a client is that of a connection which has not failed. -/
def live (k : Kernel) (c : BridgeClient) : Bool :=
  match fileAt k c.sockfd with
  | some (.conn d) => (k.conns[d]?).any fun x => !x.failed
  | _ => false

def stopping (w : World) (l : Label) (n : Node) : Bool :=
  match l with
  | .end_ => true
  | .handle junk => match w.pc with
    | .handling (fd :: _) =>
      decide (w.sockfd ≠ fd ∧ (clientByFd w.clients fd).bind (fun i => w.clients[i]?) = some n ∧
        n.client.available w.kernel junk = 0)
    | _ => false
  | _ => false

/-- No connected client of a connection that has not failed loses its flag but by stop(), no
such node leaves the list, and write() returns how many bytes were taken. -/
structure Patient (w : World) (l : Label) (t : World) : Prop where
  handles : ∀ i h, w.handles[i]? = some h → h.client.flag = true →
    live w.kernel h.client = true → l ≠ .stop i → l ≠ .drop i →
      ∃ h', t.handles[i]? = some h' ∧ h'.client.flag = true
  nodes : (w.clients.filter fun n =>
    n.client.flag && live w.kernel n.client && !stopping w l n).Sublist t.clients
  taken : ∀ i data h d x, l = .send i data → w.handles[i]? = some h → h.client.flag = true →
    fileAt w.kernel h.client.sockfd = some (.conn d) → w.kernel.conns[d]? = some x →
      ∃ bytes x', bytes <+: data ∧ (h.client.write w.kernel data).1 = bytes.length ∧
        t.kernel.conns[d]? = some x' ∧ x'.outbox = x.outbox ++ bytes

/-- A live connection has room for a byte behind what `before` others send over it. -/
def HasRoom (k : Kernel) (c : BridgeClient) (data : List UInt8) (before : Nat) : Prop :=
  ∀ d x, fileAt k c.sockfd = some (.conn d) → k.conns[d]? = some x → x.failed = false →
    data = [] ∨ before * data.length < x.room

def sharing (k : Kernel) (ns : List Node) (c : BridgeClient) : Nat :=
  ns.countP fun m => fileAt k m.client.sockfd = fileAt k c.sockfd

def AllHaveRoom (k : Kernel) (data : List UInt8) (ns : List Node) : Prop :=
  ∀ l n r, ns = l ++ n :: r → HasRoom k n.client data (sharing k l n.client)

/-- Nothing is sent to a live connection whose buffer is full. -/
def Room (w : World) : Label → Prop
  | .send i data => ∀ h, w.handles[i]? = some h → h.client.flag = true →
    HasRoom w.kernel h.client data 0
  | .write data => AllHaveRoom w.kernel data (w.clients.filter (connectedNode w.kernel))
  | _ => True

variable {w t : World} {l : Label} {k : Kernel} {c : BridgeClient} {n m : Node} {ns : List Node}
  {d : Nat} {x : Conn} {fd : Int} {data : List UInt8} {i : Nat} {h : Handle}

theorem live_iff : live k c = true ↔ ∃ d x, fileAt k c.sockfd = some (.conn d) ∧
    k.conns[d]? = some x ∧ x.failed = false := by
  constructor
  · intro h
    unfold live at h
    split at h
    · next d hf =>
      cases hx : k.conns[d]? with
      | none => simp [hx] at h
      | some x => exact ⟨d, x, hf, hx, by simpa [hx] using h⟩
    · cases h
  · intro ⟨d, x, hf, hx, hfail⟩
    simp [live, hf, hx, hfail]

theorem send_takes (hf : fileAt k fd = some (.conn d)) (hx : k.conns[d]? = some x)
    (hfail : x.failed = false) (h : data = [] ∨ 0 < x.room) : send k fd data =
      (((data.take x.room).length : Int), { k with conns := k.conns.set d { x with
        room := x.room - (data.take x.room).length
        outbox := x.outbox ++ data.take x.room } }) := by
  have hopen : ¬ x.failed = true := by simp [hfail]
  rw [send, hf]
  simp only [hx, if_neg hopen]
  by_cases h0 : data = []
  · subst h0
    obtain ⟨hd, rfl⟩ := List.getElem?_eq_some_iff.mp hx
    have hself : k.conns.set d k.conns[d] = k.conns := List.set_getElem_self hd
    simp only [if_true, List.take_nil, List.length_nil, Nat.sub_zero, List.append_nil, hself]
    rfl
  · have hroom : x.room ≠ 0 := by
      have := h.resolve_left h0
      omega
    rw [if_neg h0, if_neg hroom]

theorem send_full (hf : fileAt k fd = some (.conn d)) (hx : k.conns[d]? = some x)
    (h : ¬ (data = [] ∨ 0 < x.room)) : send k fd data = (-1, k) := by
  obtain ⟨h0, hroom⟩ := not_or.mp h
  have hz : x.room = 0 := by omega
  cases hfail : x.failed <;> simp [send, hf, hx, hfail, h0, hz]

theorem send_dead (h : live k c = false) (data : List UInt8) :
    send k c.sockfd data = (-1, k) := by
  cases hf : fileAt k c.sockfd with
  | none => simp [send, hf]
  | some f =>
    cases f with
    | conn d =>
      cases hx : k.conns[d]? with
      | none => simp [send, hf, hx]
      | some x =>
        have hfail : x.failed = true := by simpa [live, hf, hx] using h
        simp [send, hf, hx, hfail]
    | _ => simp [send, hf]

theorem write_takes (hflag : c.flag = true) (hf : fileAt k c.sockfd = some (.conn d))
    (hx : k.conns[d]? = some x) (hfail : x.failed = false) (h : data = [] ∨ 0 < x.room) :
    c.write k data = (((data.take x.room).length : Int), c, (send k c.sockfd data).2) := by
  have hpos : ¬ ((data.take x.room).length : Int) < 0 := by omega
  rw [BridgeClient.write, hflag, if_neg (by simp), send_takes hf hx hfail h]
  dsimp only
  rw [if_neg hpos]

theorem write_fails (hflag : c.flag = true) (h : send k c.sockfd data = (-1, k)) :
    c.write k data = (0, { c with flag := false }, k) := by
  rw [BridgeClient.write, hflag, if_neg (by simp), h]
  rfl

theorem write_live (hflag : c.flag = true) (hc : live k c = true) (data : List UInt8) :
    ((c.write k data).2.1.flag = true ↔ HasRoom k c data 0) ∧
      (HasRoom k c data 0 → (c.write k data).2.1 = c) := by
  obtain ⟨d, x, hf, hx, hfail⟩ := live_iff.mp hc
  have hroom : HasRoom k c data 0 ↔ data = [] ∨ 0 < x.room := by
    constructor
    · intro h
      simpa using h d x hf hx hfail
    · intro h e y hf' hy _
      obtain rfl : d = e := by simpa [hf] using hf'
      obtain rfl : x = y := Option.some.inj (hx.symm.trans hy)
      simpa using h
  rw [hroom]
  by_cases h : data = [] ∨ 0 < x.room
  · rw [write_takes hflag hf hx hfail h]
    exact ⟨iff_of_true hflag h, fun _ => rfl⟩
  · rw [write_fails hflag (send_full hf hx h)]
    exact ⟨iff_of_false (by simp) h, fun hr => absurd hr h⟩

theorem write_dead (hflag : c.flag = true) (hc : live k c = false) :
    c.write k data = (0, { c with flag := false }, k) := write_fails hflag (send_dead hc data)

theorem live_send (k : Kernel) (fd : Int) (data : List UInt8) (c : BridgeClient) :
    live (send k fd data).2 c = live k c := by
  have hfile := fileAt_congr (send_table k fd data).files c.sockfd
  unfold live
  rw [hfile]
  split
  · next e he =>
    by_cases hfd : fileAt k fd = some (.conn e)
    · cases hx : k.conns[e]? with
      | none => simp [send, hfd, hx]
      | some x =>
        have hlt := (List.getElem?_eq_some_iff.mp hx).1
        cases hfail : x.failed with
        | true => simp [send, hfd, hx, hfail]
        | false =>
          by_cases h : data = [] ∨ 0 < x.room
          · simp [send_takes hfd hx hfail h, hlt, hfail]
          · simp [send_full hfd hx h, hx, hfail]
    · rw [send_conns hfd data]
  · rfl

theorem live_write (k : Kernel) (c c' : BridgeClient) (data : List UInt8) :
    live (c.write k data).2.2 c' = live k c' := by
  rw [BridgeClient.write]
  split
  · rfl
  · dsimp only
    split <;> exact live_send k c.sockfd data c'

/-- What was sent over a connection counts for the clients behind that share it. -/
theorem hasRoom_behind (hflag : n.client.flag = true) (hroom : HasRoom k n.client data 0)
    (c : BridgeClient) (before : Nat) : HasRoom (n.client.write k data).2.2 c data before ↔
      HasRoom k c data
        (before + if fileAt k n.client.sockfd = fileAt k c.sockfd then 1 else 0) := by
  cases hlive : live k n.client with
  | false =>
    rw [write_dead hflag hlive]
    split
    · next hsame =>
      have hnone (b : Nat) : HasRoom k c data b := by
        intro d x hf hx hfail
        have hyes := live_iff.mpr ⟨d, x, hsame.trans hf, hx, hfail⟩
        simp [hlive] at hyes
      exact iff_of_true (hnone _) (hnone _)
    · exact Iff.rfl
  | true =>
    obtain ⟨d, x, hf, hx, hfail⟩ := live_iff.mp hlive
    have hlt := (List.getElem?_eq_some_iff.mp hx).1
    have h0 : data = [] ∨ 0 < x.room := by simpa using hroom d x hf hx hfail
    rw [write_takes hflag hf hx hfail h0, send_takes hf hx hfail h0]
    by_cases hsame : fileAt k n.client.sockfd = fileAt k c.sockfd
    · have hc := hsame.symm.trans hf
      have hone (k' : Kernel) (hk : k'.files = k.files) (y : Conn) (hy : k'.conns[d]? = some y)
          (hyf : y.failed = false) (b : Nat) :
          HasRoom k' c data b ↔ data = [] ∨ b * data.length < y.room := by
        constructor
        · exact fun h => h d y ((fileAt_congr hk _).trans hc) hy hyf
        · intro h e z hf' hz _
          rw [fileAt_congr hk, hc] at hf'
          cases hf'
          obtain rfl : y = z := Option.some.inj (hy.symm.trans hz)
          exact h
      have hbehind := hone { k with conns := k.conns.set d { x with
        room := x.room - (data.take x.room).length
        outbox := x.outbox ++ data.take x.room } } rfl _ (List.getElem?_set_self hlt) hfail before
      rw [if_pos hsame, hone k rfl x hx hfail, hbehind]
      apply or_congr_right
      dsimp only
      rw [Nat.add_mul, Nat.one_mul, List.length_take]
      omega
    · rw [if_neg hsame]
      have hother (e : Nat) (he : fileAt k c.sockfd = some (.conn e)) : d ≠ e :=
        fun hde => hsame (hf.trans (hde ▸ he.symm))
      constructor
      · intro h e y he hy
        exact h e y he ((List.getElem?_set_ne (hother e he)).trans hy)
      · intro h e y he hy
        exact h e y he ((List.getElem?_set_ne (hother e he)).symm.trans hy)

theorem sharing_cons (k : Kernel) (n : Node) (ns : List Node) (c : BridgeClient) :
    sharing k (n :: ns) c =
      sharing k ns c + if fileAt k n.client.sockfd = fileAt k c.sockfd then 1 else 0 := by
  simp [sharing, List.countP_cons]

theorem AllHaveRoom.head (h : AllHaveRoom k data (n :: ns)) : HasRoom k n.client data 0 :=
  h [] n ns rfl

theorem allHaveRoom_cons (hflag : n.client.flag = true) (hroom : HasRoom k n.client data 0) :
    AllHaveRoom k data (n :: ns) ↔ AllHaveRoom (n.client.write k data).2.2 data ns := by
  have hfile (g : Int) : fileAt (n.client.write k data).2.2 g = fileAt k g :=
    fileAt_congr (n.client.write_table k data).files g
  have hshare (l : List Node) (c : BridgeClient) :
      sharing (n.client.write k data).2.2 l c = sharing k l c := by
    simp only [sharing, hfile]
  constructor
  · intro h l m r hl
    rw [hasRoom_behind hflag hroom, hshare, ← sharing_cons]
    exact h (n :: l) m r (by rw [hl, List.cons_append])
  · intro h l m r hl
    cases l with
    | nil =>
      obtain ⟨rfl, -⟩ := List.cons.inj hl
      exact hroom
    | cons p l =>
      obtain ⟨rfl, hl'⟩ := List.cons.inj hl
      have hm := h l m r hl'
      rwa [hasRoom_behind hflag hroom, hshare, ← sharing_cons] at hm

theorem writeAll_count (hflag : ∀ n ∈ ns, n.client.flag = true) (data : List UInt8) :
    (writeAll data k ns).1.countP (fun n => n.client.flag) ≤
      ns.countP fun n => live k n.client := by
  induction ns generalizing k with
  | nil => exact Nat.le_refl _
  | cons n ns ih =>
    have hrest := ih (k := (n.client.write k data).2.2) fun m hm =>
      hflag m (List.mem_cons_of_mem n hm)
    simp only [live_write] at hrest
    rw [writeAll]
    simp only [List.countP_cons]
    apply Nat.add_le_add hrest
    cases hlive : live k n.client with
    | false => simp [write_dead (hflag n List.mem_cons_self) hlive]
    | true => split <;> simp

/-- write() leaves all live nodes as they are exactly if there is room at each. -/
theorem writeAll_patient (hflag : ∀ n ∈ ns, n.client.flag = true) :
    (ns.filter fun n => live k n.client).Sublist (writeAll data k ns).1 ↔
      AllHaveRoom k data ns := by
  induction ns generalizing k with
  | nil =>
    apply iff_of_true List.Sublist.slnil
    intro l n r hl
    simp at hl
  | cons n ns ih =>
    have hn := hflag n List.mem_cons_self
    have hflag' : ∀ m ∈ ns, m.client.flag = true := fun m hm => hflag m (List.mem_cons_of_mem n hm)
    have hrest := ih (k := (n.client.write k data).2.2) hflag'
    simp only [live_write] at hrest
    have hall : writeAll data k (n :: ns) =
        ({ n with client := (n.client.write k data).2.1 } ::
          (writeAll data (n.client.write k data).2.2 ns).1,
          (writeAll data (n.client.write k data).2.2 ns).2) := rfl
    -- the nodes that stay have the flag
    have hkept (m : Node) (hm : m ∈ ns.filter fun n => live k n.client) : m.client.flag = true :=
      hflag' m (List.mem_filter.mp hm).1
    rw [hall]
    dsimp only
    cases hlive : live k n.client with
    | false =>
      have hroom : HasRoom k n.client data 0 := by
        intro d x hf hx hfail
        have hyes := live_iff.mpr ⟨d, x, hf, hx, hfail⟩
        simp [hlive] at hyes
      rw [allHaveRoom_cons hn hroom, ← hrest, List.filter_cons_of_neg (by simp [hlive])]
      constructor
      · intro hsub
        cases hf : ns.filter fun n => live k n.client with
        | nil => exact List.nil_sublist _
        | cons m ms =>
          rw [hf] at hsub
          cases hsub with
          | cons _ hsub => exact hsub
          | cons_cons _ hsub =>
            have hm := hkept { n with client := (n.client.write k data).2.1 } (by simp [hf])
            simp [write_dead hn hlive] at hm
      · exact fun hsub => hsub.cons _
    | true =>
      obtain ⟨hiff, hsame⟩ := write_live hn hlive data
      rw [List.filter_cons_of_pos (by simp [hlive])]
      by_cases hroom : HasRoom k n.client data 0
      · rw [allHaveRoom_cons hn hroom, ← hrest, hsame hroom]
        exact List.cons_sublist_cons
      · apply iff_of_false
        · intro hsub
          have hcleared : (n.client.write k data).2.1.flag = false := by
            simpa using mt hiff.mp hroom
          have hcount := hsub.countP_le (p := fun n => n.client.flag)
          have hle := writeAll_count (k := (n.client.write k data).2.2) hflag' data
          simp only [live_write] at hle
          have hfull : (ns.filter fun n => live k n.client).countP (fun n => n.client.flag) =
              ns.countP fun n => live k n.client := by
            rw [List.countP_eq_length.mpr hkept, List.countP_eq_length_filter]
          rw [List.countP_cons, List.countP_cons, hfull] at hcount
          simp only [hn, hcleared, if_true, Bool.false_eq_true, if_false] at hcount
          omega
        · exact fun h => hroom h.head

theorem hasRoom_of_dead (h : live k c = false) (data : List UInt8) (before : Nat) :
    HasRoom k c data before := by
  intro d x hf hx hfail
  have hyes := live_iff.mpr ⟨d, x, hf, hx, hfail⟩
  simp [h] at hyes

theorem write_taken (hflag : c.flag = true) (hf : fileAt k c.sockfd = some (.conn d))
    (hx : k.conns[d]? = some x) : ∃ bytes x', bytes <+: data ∧
      (c.write k data).1 = bytes.length ∧ (c.write k data).2.2.conns[d]? = some x' ∧
        x'.outbox = x.outbox ++ bytes := by
  have hnone (h : send k c.sockfd data = (-1, k)) : ∃ bytes x', bytes <+: data ∧
      (c.write k data).1 = bytes.length ∧ (c.write k data).2.2.conns[d]? = some x' ∧
        x'.outbox = x.outbox ++ bytes := by
    rw [write_fails hflag h]
    exact ⟨[], x, List.nil_prefix, rfl, hx, by simp⟩
  cases hlive : live k c with
  | false => exact hnone (send_dead hlive data)
  | true =>
    obtain ⟨e, y, hf', hy, hfail⟩ := live_iff.mp hlive
    obtain rfl : d = e := by simpa [hf] using hf'
    obtain rfl : x = y := Option.some.inj (hx.symm.trans hy)
    by_cases h : data = [] ∨ 0 < x.room
    · have hlt := (List.getElem?_eq_some_iff.mp hx).1
      rw [write_takes hflag hf hx hfail h, send_takes hf hx hfail h]
      exact ⟨data.take x.room, _, List.take_prefix _ _, rfl, List.getElem?_set_self hlt, rfl⟩
    · exact hnone (send_full hf hx h)

/-! The steps. -/

theorem filter_sublist_set {α : Type*} {p : α → Bool} {xs : List α} {i : Nat} {x : α}
    (hx : xs[i]? = some x) (hp : ¬ p x = true) (y : α) :
    (xs.filter p).Sublist (xs.set i y) := by
  induction xs generalizing i with
  | nil => simp at hx
  | cons z zs ih =>
    cases i with
    | zero =>
      obtain rfl : z = x := by simpa using hx
      rw [List.filter_cons_of_neg hp, List.set_cons_zero]
      exact List.filter_sublist.cons y
    | succ i =>
      have hrest := ih (i := i) (by simpa using hx)
      rw [List.set_cons_succ, List.filter_cons]
      split
      · exact hrest.cons_cons z
      · exact hrest.cons z

theorem patient_of (hl : ∀ i data, l ≠ .send i data)
    (hh : ∀ i h, w.handles[i]? = some h → h.client.flag = true →
      live w.kernel h.client = true → l ≠ .stop i → l ≠ .drop i →
        ∃ h', t.handles[i]? = some h' ∧ h'.client.flag = true)
    (hn : (w.clients.filter fun n =>
      n.client.flag && live w.kernel n.client && !stopping w l n).Sublist t.clients) :
    Patient w l t :=
  ⟨hh, hn, fun i data _ _ _ he => absurd he (hl i data)⟩

theorem patient_same (hl : ∀ i data, l ≠ .send i data) (hh : t.handles = w.handles)
    (hn : t.clients = w.clients) : Patient w l t := by
  apply patient_of hl
  · intro i h hi hf _ _ _
    exact ⟨h, hh ▸ hi, hf⟩
  · rw [hn]
    exact List.filter_sublist

theorem patient_append (hl : ∀ i data, l ≠ .send i data) {hs : List Handle}
    (hh : t.handles = w.handles ++ hs) (hn : (w.clients.filter fun n =>
      n.client.flag && live w.kernel n.client && !stopping w l n).Sublist t.clients) :
    Patient w l t := by
  apply patient_of hl _ hn
  intro i h hi hf _ _ _
  refine ⟨h, ?_, hf⟩
  rw [hh, List.getElem?_append_left (List.getElem?_eq_some_iff.mp hi).1]
  exact hi

theorem patient_set (hl : ∀ i data, l ≠ .send i data) (hi : w.handles[i]? = some h)
    {h' : Handle} (hh : t.handles = w.handles.set i h') (hn : t.clients = w.clients)
    (hf : h.client.flag = true → live w.kernel h.client = true → l ≠ .stop i → l ≠ .drop i →
      h'.client.flag = true) : Patient w l t := by
  apply patient_of hl
  · intro j x hj hfx hlive hs hd
    rw [hh]
    by_cases hij : i = j
    · subst hij
      obtain rfl : h = x := Option.some.inj (hi.symm.trans hj)
      exact ⟨h', List.getElem?_set_self (List.getElem?_eq_some_iff.mp hi).1, hf hfx hlive hs hd⟩
    · exact ⟨x, (List.getElem?_set_ne hij).trans hj, hfx⟩
  · rw [hn]
    exact List.filter_sublist

theorem stopAll_handles (w : World) (ns : List Node) : (stopAll w ns).handles = w.handles := by
  induction ns generalizing w with
  | nil => rfl
  | cons n ns ih =>
    rw [stopAll, ih, stopNode]
    split <;> rfl

theorem patient_handle {fd : Nat} {fds : List Nat} {junk : Int}
    (hpc : w.pc = .handling (fd :: fds)) :
    Patient w (.handle junk) { handle w fd junk with pc := .handling fds } := by
  unfold handle
  split
  · apply patient_of (by simp)
    · exact fun i h hi hf _ _ _ => ⟨h, hi, hf⟩
    · apply List.filter_sublist.trans
      dsimp only [acceptClient, BridgeServer.acceptClient]
      split
      · exact List.sublist_append_left _ _
      · exact List.Sublist.refl _
  · next hfd =>
    unfold incomingData
    split
    · exact patient_same (by simp) rfl rfl
    · next i hi =>
      split
      · exact patient_same (by simp) rfl rfl
      · next n hn =>
        split
        · next ha =>
          apply patient_of (by simp)
          · intro j h hj hf _ _ _
            refine ⟨h, ?_, hf⟩
            dsimp only [stopNode]
            split <;> exact hj
          · have hstop : stopping w (.handle junk) n = true := by
              simp [stopping, hpc, hfd, hi, hn, ha]
            exact filter_sublist_set hn (by simp [hstop]) _
        · exact patient_same (by simp) rfl rfl

theorem patient_send (hi : w.handles[i]? = some h)
    (ht : onClient w i h (fun c => (c.write w.kernel data).2) = t) :
    Patient w (.send i data) t ↔ Room w (.send i data) := by
  subst ht
  have hlt := (List.getElem?_eq_some_iff.mp hi).1
  have hself : (w.handles.set i { h with client := (h.client.write w.kernel data).2.1 })[i]? =
      some { h with client := (h.client.write w.kernel data).2.1 } := List.getElem?_set_self hlt
  constructor
  · intro hp h' hi' hf
    obtain rfl : h = h' := Option.some.inj (hi.symm.trans hi')
    cases hlive : live w.kernel h.client with
    | false => exact hasRoom_of_dead hlive data 0
    | true =>
      obtain ⟨x, hx, hxf⟩ := hp.handles i h hi hf hlive (by simp) (by simp)
      obtain rfl := Option.some.inj (hself.symm.trans hx)
      exact (write_live hf hlive data).1.mp hxf
  · intro hroom
    refine ⟨?_, List.filter_sublist, ?_⟩
    · intro j x hj hf hlive _ _
      by_cases hij : i = j
      · subst hij
        obtain rfl : h = x := Option.some.inj (hi.symm.trans hj)
        exact ⟨_, hself, (write_live hf hlive data).1.mpr (hroom h hi hf)⟩
      · exact ⟨x, (List.getElem?_set_ne hij).trans hj, hf⟩
    · intro j bytes x d y hl hj hf hc hy
      cases hl
      obtain rfl : h = x := Option.some.inj (hi.symm.trans hj)
      exact write_taken hf hc hy

theorem patient_write : Patient w (.write data) (write w data) ↔ Room w (.write data) := by
  have hclients : (write w data).clients =
      (writeAll data w.kernel (w.clients.filter (connectedNode w.kernel))).1 := by
    rw [← cleanup_eq]
    rfl
  have hflag : ∀ n ∈ w.clients.filter (connectedNode w.kernel), n.client.flag = true :=
    fun n hn => (connectedNode_iff.mp (List.mem_filter.mp hn).2).1
  -- a live node with the flag is not cleaned up
  have hnodes : (w.clients.filter fun n =>
      n.client.flag && live w.kernel n.client && !stopping w (.write data) n) =
        (w.clients.filter (connectedNode w.kernel)).filter fun n => live w.kernel n.client := by
    rw [List.filter_filter]
    apply List.filter_congr
    intro n _
    have hopen : live w.kernel n.client = true →
        (fileAt w.kernel n.client.sockfd).isSome = true := by
      intro h
      obtain ⟨d, x, hf, -⟩ := live_iff.mp h
      simp [hf]
    cases hlive : live w.kernel n.client with
    | false => simp
    | true => simp [stopping, connectedNode, BridgeClient.connected_eq, hopen hlive]
  rw [Room, ← writeAll_patient hflag, ← hnodes, ← hclients]
  constructor
  · exact fun hp => hp.nodes
  · exact fun hn => patient_of (by simp) (fun i h hi hf _ _ _ => ⟨h, hi, hf⟩) hn

theorem patient_arrive {a : Arrival} (ht : step w (.arrive a) = some t) :
    Patient w (.arrive a) t := by
  obtain ⟨-, rfl⟩ : heard w a = true ∧ { w with kernel := Net.arrive w.kernel a } = t := by
    simpa [step, Option.ite_none_right_eq_some] using ht
  exact patient_same (by simp) rfl rfl

theorem patient_closeOther {m : Nat} (ht : step w (.closeOther m) = some t) :
    Patient w (.closeOther m) t := by
  obtain ⟨-, rfl⟩ : (fileAt w.kernel m = some .other ∧ (m : Int) ∉ w.polls) ∧
      { w with kernel := close w.kernel m } = t := by
    simpa only [step, Option.ite_none_right_eq_some, Option.some.injEq] using ht
  exact patient_same (by simp) rfl rfl

theorem patient_begin {r : Begun} (ht : step w (.begin r) = some t) : Patient w (.begin r) t := by
  obtain ⟨-, rfl⟩ := call_some ht
  unfold begin
  split
  · exact patient_same (by simp) rfl rfl
  · cases r <;> exact patient_same (by simp) rfl rfl

theorem patient_end (ht : step w .end_ = some t) : Patient w .end_ t := by
  obtain ⟨-, rfl⟩ := call_some ht
  apply patient_of (by simp)
  · intro i h hi hf _ _ _
    exact ⟨h, (congrArg (·[i]?) (stopAll_handles w w.clients)).trans hi, hf⟩
  · simp [stopping]

theorem patient_notListening (ht : step w .notListening = some t) :
    Patient w .notListening t := by
  simp only [step] at ht
  split at ht
  · cases ht
  · obtain ⟨-, rfl⟩ := call_some ht
    exact patient_append (by simp) rfl List.filter_sublist

theorem patient_poll {fds : List Nat} (ht : step w (.poll fds) = some t) :
    Patient w (.poll fds) t := by
  obtain ⟨-, rfl⟩ : (w.pc = .idle ∧ w.listening = true ∧ Polled w fds) ∧
      { w with kernel := fds.foldl reported w.kernel, pc := .handling fds } = t := by
    simpa only [step, Option.ite_none_right_eq_some, Option.some.injEq] using ht
  exact patient_same (by simp) rfl rfl

theorem patient_finish {junk : Int} (ht : step w (.finish junk) = some t) :
    Patient w (.finish junk) t := by
  obtain ⟨-, rfl⟩ : w.pc = .handling [] ∧ finish w junk = t := by
    simpa only [step, Option.ite_none_right_eq_some, Option.some.injEq] using ht
  apply patient_append (by simp) rfl
  dsimp only [finish]
  rw [cleanup_eq]
  apply List.monotone_filter_right
  intro n hn
  simp only [Bool.and_eq_true] at hn
  obtain ⟨d, x, hf, -⟩ := live_iff.mp hn.1.2
  exact connectedNode_iff.mpr ⟨hn.1.1, by simp [hf]⟩

theorem patient_connect {i : Nat} {r : Connected} (ht : step w (.connect i r) = some t) :
    Patient w (.connect i r) t := by
  obtain ⟨-, x, hx, rfl⟩ := callOn_some ht
  cases r with
  | noHost => exact patient_same (by simp) rfl rfl
  | noSocket => exact patient_set (by simp) hx rfl rfl fun hf _ _ _ => hf
  | refused => exact patient_set (by simp) hx rfl rfl fun hf _ _ _ => hf
  | done room => exact patient_set (by simp) hx rfl rfl fun _ _ _ _ => rfl

theorem patient_read {i size : Nat} {junk : Int} (ht : step w (.read i size junk) = some t) :
    Patient w (.read i size junk) t := by
  obtain ⟨-, x, hx, rfl⟩ := callOn_some ht
  refine patient_set (by simp) hx rfl rfl ?_
  intro hf hlive _ _
  obtain ⟨d, y, hc, hy, -⟩ := live_iff.mp hlive
  exact (congrArg BridgeClient.flag (x.client.readBlock_same hc hy size junk)).trans hf

theorem patient_connected {i : Nat} (ht : step w (.connected i) = some t) :
    Patient w (.connected i) t := by
  obtain ⟨-, x, hx, rfl⟩ := callOn_some ht
  refine patient_set (by simp) hx rfl rfl ?_
  intro hf hlive _ _
  obtain ⟨d, y, hc, hy, -⟩ := live_iff.mp hlive
  exact (congrArg BridgeClient.flag (x.client.connected_open hc hy)).trans hf

theorem patient_stop {i : Nat} (ht : step w (.stop i) = some t) : Patient w (.stop i) t := by
  obtain ⟨-, x, hx, rfl⟩ := callOn_some ht
  unfold stop
  split
  · exact patient_set (by simp) hx rfl rfl fun _ _ hs _ => absurd rfl hs
  · exact patient_set (by simp) hx rfl rfl fun _ _ hs _ => absurd rfl hs

/-- Only what is sent can disconnect a live client. -/
theorem patient_iff (ht : step w l = some t) : Patient w l t ↔ Room w l := by
  cases l with
  | arrive a => exact iff_of_true (patient_arrive ht) trivial
  | openOther =>
    obtain rfl := Option.some.inj ht
    exact iff_of_true (patient_same (by simp) rfl rfl) trivial
  | closeOther m => exact iff_of_true (patient_closeOther ht) trivial
  | begin r => exact iff_of_true (patient_begin ht) trivial
  | end_ => exact iff_of_true (patient_end ht) trivial
  | notListening => exact iff_of_true (patient_notListening ht) trivial
  | poll fds => exact iff_of_true (patient_poll ht) trivial
  | handle junk =>
    simp only [step] at ht
    split at ht
    · next fd fds hpc =>
      obtain rfl := Option.some.inj ht
      exact iff_of_true (patient_handle hpc) trivial
    · cases ht
  | finish junk => exact iff_of_true (patient_finish ht) trivial
  | write data =>
    obtain ⟨-, rfl⟩ := call_some ht
    exact patient_write
  | create =>
    obtain ⟨-, rfl⟩ := call_some ht
    exact iff_of_true (patient_append (by simp) rfl List.filter_sublist) trivial
  | connect i r => exact iff_of_true (patient_connect ht) trivial
  | send i data =>
    obtain ⟨-, x, hx, ht⟩ := callOn_some ht
    exact patient_send hx ht
  | read i size junk => exact iff_of_true (patient_read ht) trivial
  | connected i => exact iff_of_true (patient_connected ht) trivial
  | stop i => exact iff_of_true (patient_stop ht) trivial
  | drop i =>
    obtain ⟨-, x, hx, rfl⟩ := callOn_some ht
    exact iff_of_true (patient_set (by simp) hx rfl rfl fun _ _ _ hd => absurd rfl hd) trivial

/-- Along every run no live client is disconnected but by stop() exactly if nothing is sent
while its buffer is full. -/
theorem patient_along_iff (std : List Bool) (ls : List Label) :
    Along step Patient ls (start std) ↔ Along step (fun w l _ => Room w l) ls (start std) := by
  have hstep : ∀ w l t, True → step w l = some t →
      (Patient w l t ↔ Room w l) ∧ (Room w l → True) :=
    fun _ _ _ _ ht => ⟨patient_iff ht, fun _ => trivial⟩
  exact along_iff_of_keeps hstep trivial

/-- The buffer has room for one byte, and the sketch sends two. -/
theorem full_buffer_disconnects : ¬ ∀ std ls, Along step Patient ls (start std) := by
  intro h
  have h₀ := h [true, true, true] [.create, .connect 0 (.done 1), .send 0 [1], .send 0 [2]]
  have h₁ := ((along_cons_of_step rfl).mp h₀).2
  have h₂ := ((along_cons_of_step rfl).mp h₁).2
  have h₃ := ((along_cons_of_step rfl).mp h₂).2
  have h₄ := ((along_cons_of_step rfl).mp h₃).1
  obtain ⟨h', hh, hf⟩ := h₄.handles 0 _ rfl rfl (by decide) (by simp) (by simp)
  obtain rfl := Option.some.inj hh
  cases hf

end RasPiArduino.Bridge
