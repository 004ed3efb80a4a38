import Mathlib.Data.List.Basic

/-! The descriptor table, TCP connections and epoll, as far as the Bridge classes use
them: accept takes the lowest free number, and a registered descriptor is reported once
after each arrival. -/
namespace RasPiArduino.Net

inductive File where
  | listener
  | conn (c : Nat)
  | other               -- the epoll instance, stdin and the like
  deriving DecidableEq, Repr

structure Conn where
  inbox : List UInt8      -- received and not yet read
  fin : Bool              -- the peer has closed its side
  failed : Bool           -- reset, or given up
  room : Nat              -- free bytes in the send buffer
  outbox : List UInt8     -- taken by send
  registered : Bool       -- with epoll
  edge : Bool             -- something arrived that epoll has not reported
  deriving DecidableEq, Repr

structure Kernel where
  files : List (Option File)
  conns : List Conn
  backlog : List Nat      -- connections that wait for accept
  edge : Bool             -- some of them arrived since epoll last reported the listener
  deriving DecidableEq, Repr

def fileAt (k : Kernel) : Int → Option File
  | .ofNat n => (k.files[n]?).join
  | .negSucc _ => none

def close (k : Kernel) : Int → Kernel
  | .ofNat n => { k with files := k.files.set n none }
  | .negSucc _ => k

/-- The lowest number that is not in use. -/
def freeFd (files : List (Option File)) : Nat := files.findIdx Option.isNone

def install (files : List (Option File)) (f : File) : List (Option File) :=
  if freeFd files < files.length then files.set (freeFd files) (some f) else files ++ [some f]

def accept4 (k : Kernel) : Int × Kernel :=
  match k.backlog with
  | [] => (-1, k)
  | c :: cs => (freeFd k.files, { k with files := install k.files (.conn c), backlog := cs })

def probe (k : Kernel) (fd : Int) : Int := if (fileAt k fd).isSome then 0 else -1

def fionread (k : Kernel) (fd : Int) : Option Int :=
  match fileAt k fd with
  | some (.conn c) => (k.conns[c]?).map fun s => s.inbox.length
  | _ => none

def recv (k : Kernel) (fd : Int) (size : Nat) : Int × List UInt8 × Kernel :=
  match fileAt k fd with
  | some (.conn c) => match k.conns[c]? with
    | none => (-1, [], k)
    | some s =>
      if s.inbox = [] then (if s.fin && !s.failed then 0 else -1, [], k)
      else ((s.inbox.take size).length, s.inbox.take size,
        { k with conns := k.conns.set c { s with inbox := s.inbox.drop size } })
  | _ => (-1, [], k)

/-- send with MSG_DONTWAIT takes what there is room for, or fails. -/
def send (k : Kernel) (fd : Int) (data : List UInt8) : Int × Kernel :=
  match fileAt k fd with
  | some (.conn c) => match k.conns[c]? with
    | none => (-1, k)
    | some s =>
      if s.failed then (-1, k)
      else if data = [] then (0, k)
      else if s.room = 0 then (-1, k)
      else ((data.take s.room).length, { k with conns := k.conns.set c { s with
        room := s.room - (data.take s.room).length
        outbox := s.outbox ++ data.take s.room } })
  | _ => (-1, k)

def epollAdd (k : Kernel) (fd : Int) : Kernel :=
  match fileAt k fd with
  | some (.conn c) => { k with conns := k.conns.modify c fun s =>
      { s with registered := true, edge := s.inbox ≠ [] || s.fin || s.failed } }
  | _ => k

def hasEdge (k : Kernel) : Option File → Bool
  | some .listener => k.edge
  | some (.conn c) => (k.conns[c]?).any Conn.edge
  | _ => false

def ready (k : Kernel) : List Nat :=
  (List.range k.files.length).filter fun n => hasEdge k (fileAt k n)

def reported (k : Kernel) (fd : Nat) : Kernel :=
  match fileAt k fd with
  | some .listener => { k with edge := false }
  | some (.conn c) => { k with conns := k.conns.modify c fun s => { s with edge := false } }
  | _ => k

/-! What the peers and the network do. -/

inductive Arrival where
  | connect (room : Nat)
  | data (c : Nat) (bytes : List UInt8)
  | fin (c : Nat)
  | fail (c : Nat)
  | drain (c n : Nat)       -- the peer takes n bytes of the send buffer
  deriving DecidableEq, Repr

def arrive (k : Kernel) : Arrival → Kernel
  | .connect room => { k with
      conns := k.conns ++ [⟨[], false, false, room, [], false, false⟩]
      backlog := k.backlog ++ [k.conns.length]
      edge := true }
  | .data c bytes => { k with conns := k.conns.modify c fun s =>
      { s with inbox := s.inbox ++ bytes, edge := s.registered } }
  | .fin c => { k with conns := k.conns.modify c fun s =>
      { s with fin := true, edge := s.registered } }
  | .fail c => { k with conns := k.conns.modify c fun s =>
      { s with failed := true, edge := s.registered } }
  | .drain c n => { k with conns := k.conns.modify c fun s => { s with room := s.room + n } }

/-! The descriptor table after each of these. -/

theorem fileAt_nat (k : Kernel) (n : Nat) : fileAt k (n : Int) = (k.files[n]?).join := rfl

theorem fileAt_congr {k k' : Kernel} (h : k'.files = k.files) (fd : Int) :
    fileAt k' fd = fileAt k fd := by
  cases fd <;> simp [fileAt, h]

theorem fileAt_close (k : Kernel) (fd g : Int) :
    fileAt (close k fd) g = if g = fd then none else fileAt k g := by
  cases fd with
  | negSucc n =>
    split
    · next h => simp [h, fileAt]
    · rfl
  | ofNat n => cases g with
    | negSucc m => simp [fileAt]
    | ofNat m =>
      simp only [fileAt, close, List.getElem?_set, Int.ofNat.injEq]
      split
      · next h => by_cases hm : m < k.files.length <;> simp [h, hm]
      · next h => rw [if_neg (fun h' => h h'.symm)]

theorem freeFd_free (k : Kernel) : fileAt k (freeFd k.files : Int) = none := by
  rw [fileAt_nat]
  rcases Nat.lt_or_ge (freeFd k.files) k.files.length with h | h
  · have hnone : (k.files[freeFd k.files]).isNone = true := List.findIdx_getElem
    rw [List.getElem?_eq_getElem h, Option.join_some]
    exact Option.isNone_iff_eq_none.mp hnone
  · rw [List.getElem?_eq_none h]
    rfl

theorem ne_freeFd {k : Kernel} {g : Int} {f : File} (h : fileAt k g = some f) :
    g ≠ freeFd k.files := by
  rintro rfl
  rw [freeFd_free] at h
  cases h

theorem getElem?_install (files : List (Option File)) (f : File) (n : Nat) :
    (install files f)[n]? = if n = freeFd files then some (some f) else files[n]? := by
  unfold install
  have hle : freeFd files ≤ files.length := List.findIdx_le_length
  split
  · next h =>
    rw [List.getElem?_set]
    by_cases hn : freeFd files = n
    · simp [hn, hn ▸ h]
    · simp [hn, Ne.symm hn]
  · next h =>
    have he : freeFd files = files.length := by omega
    rw [List.getElem?_append, he]
    by_cases hn : n = files.length
    · simp [hn]
    · by_cases hlt : n < files.length
      · simp [hlt, hn]
      · simp [hlt, hn]
        omega

theorem freeFd_install_ne_zero (files : List (Option File)) (f : File) :
    freeFd (install files f) ≠ 0 := by
  intro h
  have hsome : ∃ g, (install files f)[0]? = some (some g) := by
    rw [getElem?_install]
    by_cases hfree : 0 = freeFd files
    · exact ⟨f, if_pos hfree⟩
    · rw [if_neg hfree]
      cases files with
      | nil => exact absurd rfl hfree
      | cons x xs =>
        cases x with
        | none => exact absurd rfl hfree
        | some g => exact ⟨g, rfl⟩
  obtain ⟨g, hg⟩ := hsome
  cases hi : install files f with
  | nil => simp [hi] at hg
  | cons x xs =>
    obtain rfl : x = some g := by simpa [hi] using hg
    simp [hi, freeFd, List.findIdx_cons] at h

theorem fileAt_install {k k' : Kernel} {f : File} (h : k'.files = install k.files f) (g : Int) :
    fileAt k' g = if g = freeFd k.files then some f else fileAt k g := by
  cases g with
  | negSucc m => rw [if_neg (by simp)]; rfl
  | ofNat m =>
    have hm : (Int.ofNat m = freeFd k.files) ↔ m = freeFd k.files := Int.ofNat_inj
    simp only [fileAt, h, getElem?_install, hm]
    split <;> rfl

theorem fileAt_install_conn {k k' : Kernel} {f : File} {g : Int} {c : Nat}
    (h : k'.files = install k.files f) (hf : f ≠ .conn c) (hg : fileAt k' g = some (.conn c)) :
    fileAt k g = some (.conn c) := by
  rw [fileAt_install h] at hg
  split at hg
  · exact absurd (Option.some.inj hg) hf
  · exact hg

theorem fileAt_std {std : List Bool} {conns : List Conn} {backlog : List Nat} {edge : Bool}
    {g : Int} {f : File}
    (h : fileAt ⟨std.map fun b => if b then some .other else none, conns, backlog, edge⟩ g =
      some f) : f = .other := by
  cases g with
  | negSucc m => cases h
  | ofNat m =>
    simp only [fileAt, List.getElem?_map] at h
    cases hm : std[m]? with
    | none => simp [hm] at h
    | some b => cases b <;> simp_all

/-- The parts of the sockets that reading, sending and epoll do not touch. -/
structure SameTable (k k' : Kernel) : Prop where
  files : k'.files = k.files
  backlog : k'.backlog = k.backlog
  count : k'.conns.length = k.conns.length
  edge : k'.edge = k.edge

theorem SameTable.refl (k : Kernel) : SameTable k k := ⟨rfl, rfl, rfl, rfl⟩

theorem SameTable.trans {k₁ k₂ k₃ : Kernel} (h : SameTable k₁ k₂) (h' : SameTable k₂ k₃) :
    SameTable k₁ k₃ :=
  ⟨h'.files.trans h.files, h'.backlog.trans h.backlog, h'.count.trans h.count,
    h'.edge.trans h.edge⟩

theorem recv_table (k : Kernel) (fd : Int) (size : Nat) : SameTable k (recv k fd size).2.2 := by
  unfold recv
  split
  · split
    · exact .refl k
    · split
      · exact .refl k
      · exact ⟨rfl, rfl, List.length_set, rfl⟩
  · exact .refl k

theorem send_table (k : Kernel) (fd : Int) (data : List UInt8) :
    SameTable k (send k fd data).2 := by
  unfold send
  split
  · split
    · exact .refl k
    · split
      · exact .refl k
      · split
        · exact .refl k
        · split
          · exact .refl k
          · exact ⟨rfl, rfl, List.length_set, rfl⟩
  · exact .refl k

theorem send_congr {k k' : Kernel} {fd : Int} (hf : fileAt k' fd = fileAt k fd)
    (hc : ∀ c, fileAt k fd = some (.conn c) → k'.conns[c]? = k.conns[c]?) (data : List UInt8) :
    (send k' fd data).1 = (send k fd data).1 := by
  unfold send
  rw [hf]
  split
  · next c h =>
    rw [hc c h]
    split
    · rfl
    · split
      · rfl
      · split
        · rfl
        · split <;> rfl
  · rfl

theorem send_conns {k : Kernel} {fd : Int} {c : Nat} (h : fileAt k fd ≠ some (.conn c))
    (data : List UInt8) : (send k fd data).2.conns[c]? = k.conns[c]? := by
  unfold send
  split
  · next d hd =>
    have hdc : d ≠ c := fun he => h (he ▸ hd)
    split
    · rfl
    · split
      · rfl
      · split
        · rfl
        · split
          · rfl
          · exact List.getElem?_set_ne hdc
  · rfl

theorem epollAdd_table (k : Kernel) (fd : Int) : SameTable k (epollAdd k fd) := by
  unfold epollAdd
  split
  · exact ⟨rfl, rfl, List.length_modify .., rfl⟩
  · exact .refl k

theorem close_table (k : Kernel) (fd : Int) : (close k fd).backlog = k.backlog ∧
    (close k fd).conns = k.conns ∧ (close k fd).edge = k.edge := by
  cases fd <;> exact ⟨rfl, rfl, rfl⟩

theorem reported_other (k : Kernel) (fd : Nat) : (reported k fd).files = k.files ∧
    (reported k fd).backlog = k.backlog ∧ (reported k fd).conns.length = k.conns.length := by
  unfold reported
  split
  · exact ⟨rfl, rfl, rfl⟩
  · exact ⟨rfl, rfl, List.length_modify ..⟩
  · exact ⟨rfl, rfl, rfl⟩

theorem reportedAll_other (fds : List Nat) (k : Kernel) :
    (fds.foldl reported k).files = k.files ∧ (fds.foldl reported k).backlog = k.backlog ∧
      (fds.foldl reported k).conns.length = k.conns.length := by
  induction fds generalizing k with
  | nil => exact ⟨rfl, rfl, rfl⟩
  | cons fd fds ih =>
    obtain ⟨h₁, h₂, h₃⟩ := reported_other k fd
    obtain ⟨i₁, i₂, i₃⟩ := ih (reported k fd)
    exact ⟨i₁.trans h₁, i₂.trans h₂, i₃.trans h₃⟩

theorem arrive_table (k : Kernel) (a : Arrival) : (arrive k a).files = k.files ∧
    ((∃ room, a = .connect room) ∧ (arrive k a).backlog = k.backlog ++ [k.conns.length] ∧
        (arrive k a).conns.length = k.conns.length + 1 ∧ (arrive k a).edge = true ∨
      (∀ room, a ≠ .connect room) ∧ (arrive k a).backlog = k.backlog ∧
        (arrive k a).conns.length = k.conns.length ∧ (arrive k a).edge = k.edge) := by
  cases a with
  | connect room => exact ⟨rfl, .inl ⟨⟨room, rfl⟩, rfl, by simp [arrive], rfl⟩⟩
  | _ => exact ⟨rfl, .inr ⟨by simp, rfl, List.length_modify .., rfl⟩⟩

theorem arrive_spent {k : Kernel} {c : Nat} (h : c ∉ k.backlog ∧ c < k.conns.length)
    (a : Arrival) : c ∉ (arrive k a).backlog ∧ c < (arrive k a).conns.length := by
  obtain ⟨hnb, hlt⟩ := h
  obtain ⟨-, ⟨-, hb, hl, -⟩ | ⟨-, hb, hl, -⟩⟩ := arrive_table k a
  · rw [hb, hl]
    exact ⟨by simp [hnb]; omega, by omega⟩
  · rw [hb, hl]
    exact ⟨hnb, hlt⟩

theorem arrive_backlog {k : Kernel}
    (h : k.backlog.Nodup ∧ ∀ c ∈ k.backlog, c < k.conns.length) (a : Arrival) :
    (arrive k a).backlog.Nodup ∧
      ∀ c ∈ (arrive k a).backlog, c < (arrive k a).conns.length := by
  obtain ⟨hnd, hlt⟩ := h
  obtain ⟨-, ⟨-, hb, hl, -⟩ | ⟨-, hb, hl, -⟩⟩ := arrive_table k a <;> rw [hb, hl]
  · refine ⟨List.nodup_append.mpr ⟨hnd, by simp, fun c hc d hd => ?_⟩, fun c hc => ?_⟩
    · have := hlt c hc
      simp at hd
      omega
    · obtain hc | rfl : c ∈ k.backlog ∨ c = k.conns.length := by simpa using hc
      · exact Nat.lt_succ_of_lt (hlt c hc)
      · exact Nat.lt_succ_self _
  · exact ⟨hnd, hlt⟩

end RasPiArduino.Net
