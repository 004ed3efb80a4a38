import Mathlib
import RasPiArduino.Interrupts

/-! twi.c and the transfers of wiring_ids.c: the same code for two I2C controllers. What a
controller shows in its registers is up to the bus: a call is given what its reads of the status
find, and it is still waiting when they are used up. Counters are uint32_t. -/
namespace RasPiArduino.Twi
open Isr (bv)

inductive Reg where
  | c
  | s
  | dlen
  | a
  | fifo
  deriving DecidableEq, Repr

/-- The control register, and the writes to all registers so far. -/
structure Bsc where
  control : BitVec 32
  writes : List (Reg × BitVec 32)
  deriving DecidableEq, Repr

def Bsc.write (b : Bsc) (reg : Reg) (v : BitVec 32) : Bsc :=
  ⟨if reg = .c then v else b.control, b.writes ++ [(reg, v)]⟩

def bsci2cen : BitVec 32 := bv 15

def bscst : BitVec 32 := bv 7

def bscclear : BitVec 32 := bv 4

def bscread : BitVec 32 := bv 0

def bscclkt : BitVec 32 := bv 9

def bscerr : BitVec 32 := bv 8

def bscrxd : BitVec 32 := bv 5

def bsctxd : BitVec 32 := bv 4

def bscdone : BitVec 32 := bv 1

def word (x : UInt8) : BitVec 32 := x.toBitVec.setWidth 32

/-- The registers are set up for a transfer of `len` bytes. -/
def prepare (b : Bsc) (address : UInt8) (len : Nat) : Bsc :=
  let b := b.write .a (word address)
  let b := b.write .c (b.control ||| bscclear)
  let b := b.write .s (bscclkt ||| bscerr ||| bscdone)
  b.write .dlen (BitVec.ofNat 32 len)

def reason (remaining : Nat) : List (BitVec 32) → Option UInt8
  | [] => none
  | s :: ss =>
    if s &&& bscerr ≠ 0 then some 1
    else match ss with
      | [] => none
      | s :: _ =>
        if s &&& bscclkt ≠ 0 then some 2
        else if remaining ≠ 0 then some 3
        else some 0

/-! Sending. `none` is a read outside `buf`. -/

structure Sending where
  bsc : Bsc
  i : Nat
  remaining : Nat
  deriving DecidableEq, Repr

def Sending.push (t : Sending) (buf : List UInt8) : Option Sending :=
  buf[t.i]?.map fun x => ⟨t.bsc.write .fifo (word x), t.i + 1, t.remaining - 1⟩

def burst (buf : List UInt8) : Nat → Sending → Option Sending
  | 0, t => some t
  | n+1, t => if t.remaining ≠ 0 then t.push buf >>= burst buf n else some t

/-- The second loop; `feeding` says that the next read of the status is that of its inner loop,
which is there only while bytes remain. The reads that are left after the loop, if it is. -/
def send (buf : List UInt8) :
    Bool → List (BitVec 32) → Sending → Option (Sending × Option (List (BitVec 32)))
  | _, [], t => some (t, none)
  | false, s :: ss, t =>
    if s &&& bscdone ≠ 0 then some (t, some ss) else send buf (t.remaining ≠ 0) ss t
  | true, s :: ss, t =>
    if s &&& bsctxd ≠ 0 then t.push buf >>= fun t => send buf (t.remaining ≠ 0) ss t
    else send buf false ss t

def writeTo (b : Bsc) (address : UInt8) (buf : List UInt8) (len : Nat)
    (looks : List (BitVec 32)) : Option (Option UInt8 × Bsc) := do
  let t ← burst buf 16 ⟨prepare b address len, 0, len⟩
  let (t, left) ← send buf false looks { t with bsc := t.bsc.write .c (bsci2cen ||| bscst) }
  match left.bind (reason t.remaining) with
  | none => some (none, t.bsc)
  | some r => some (some r, t.bsc.write .c (t.bsc.control ||| bscdone))

def twiWriteTo : Bsc → UInt8 → List UInt8 → Nat → List (BitVec 32) → Option (Option UInt8 × Bsc) :=
  writeTo

/-! Receiving. A read of the status comes with the byte that the FIFO gives if it is read next. -/

abbrev Look := BitVec 32 × UInt8

/-- `stores` are the places in the buffer of the caller and the bytes stored there; `wrapped` says
that the counter of the bytes remaining was counted down at 0. -/
structure Receiving where
  bsc : Bsc
  i : Nat
  remaining : Nat
  stores : List (Nat × UInt8)
  wrapped : Bool
  deriving DecidableEq, Repr

def Receiving.pull (t : Receiving) (x : UInt8) : Receiving where
  bsc := t.bsc
  i := (t.i + 1) % 2^32
  remaining := (t.remaining + (2^32 - 1)) % 2^32
  stores := t.stores ++ [(t.i, x)]
  wrapped := t.wrapped || t.remaining == 0

/-- The first loop; `draining` says that the next read of the status is that of its inner loop. -/
def receive : Bool → List Look → Receiving → Receiving × Option (List Look)
  | _, [], t => (t, none)
  | false, (s, _) :: ls, t =>
    if s &&& bscdone ≠ 0 then (t, some ls) else receive true ls t
  | true, (s, x) :: ls, t =>
    if s &&& bscrxd ≠ 0 then receive true ls (t.pull x) else receive false ls t

def drain : List Look → Receiving → Receiving × Option (List Look)
  | [], t => (t, if t.remaining ≠ 0 then none else some [])
  | (s, x) :: ls, t =>
    if t.remaining ≠ 0 then
      if s &&& bscrxd ≠ 0 then drain ls (t.pull x) else (t, some ls)
    else (t, some ((s, x) :: ls))

def Receiving.start (b : Bsc) (address : UInt8) (len : Nat) : Receiving :=
  ⟨(prepare b address len).write .c (bsci2cen ||| bscst ||| bscread), 0, len, [], false⟩

def readFrom (b : Bsc) (address : UInt8) (len : Nat) (looks : List Look) :
    Option UInt8 × Receiving :=
  let (t, left) := receive false looks (.start b address len)
  match left with
  | none => (none, t)
  | some ls =>
    let (t, left) := drain ls t
    match left.bind fun ls => reason t.remaining (ls.map Prod.fst) with
    | none => (none, t)
    | some r => (some r, { t with bsc := t.bsc.write .c (t.bsc.control ||| bscdone) })

def twiReadFrom : Bsc → UInt8 → Nat → List Look → Option UInt8 × Receiving := readFrom

def idsRead : Bsc → UInt8 → Nat → List Look → Option UInt8 × Receiving := readFrom

/-! What is sent. -/

def pushed (b : Bsc) : List (BitVec 32) :=
  b.writes.filterMap fun w => if w.1 = .fifo then some w.2 else none

@[simp] theorem pushed_write_fifo (b : Bsc) (v : BitVec 32) :
    pushed (b.write .fifo v) = pushed b ++ [v] := by
  simp [pushed, Bsc.write, List.filterMap_append]

@[simp] theorem pushed_write {reg : Reg} (hreg : reg ≠ .fifo) (b : Bsc) (v : BitVec 32) :
    pushed (b.write reg v) = pushed b := by
  simp [pushed, Bsc.write, List.filterMap_append, hreg]

theorem pushed_prepare (b : Bsc) (address : UInt8) (len : Nat) :
    pushed (prepare b address len) = pushed b := by
  simp [prepare]

theorem reason_zero {remaining : Nat} {ss : List (BitVec 32)} (h : reason remaining ss = some 0) :
    remaining = 0 := by
  unfold reason at h
  split at h
  · cases h
  · split at h
    · cases h
    · split at h
      · cases h
      · split at h
        · cases h
        · split at h
          · cases h
          · next hr => exact not_not.mp hr

structure Sent (words : List (BitVec 32)) (buf : List UInt8) (len : Nat) (t : Sending) : Prop where
  count : t.i + t.remaining = len
  pushed : pushed t.bsc = words ++ (buf.take t.i).map word

variable {words : List (BitVec 32)} {buf : List UInt8} {len : Nat} {t : Sending}

theorem Sent.push (h : Sent words buf len t) (hlen : len ≤ buf.length) (hr : t.remaining ≠ 0) :
    ∃ t', t.push buf = some t' ∧ Sent words buf len t' := by
  have hcount := h.count
  have hi : t.i < buf.length := by omega
  refine ⟨_, by rw [Sending.push, List.getElem?_eq_getElem hi]; rfl, ?_, ?_⟩
  · dsimp only
    omega
  · dsimp only
    rw [pushed_write_fifo, h.pushed, List.take_succ_eq_append_getElem hi, List.map_append,
      List.append_assoc]
    rfl

theorem Sent.burst (h : Sent words buf len t) (hlen : len ≤ buf.length) (n : Nat) :
    ∃ t', burst buf n t = some t' ∧ Sent words buf len t' := by
  induction n generalizing t with
  | zero => exact ⟨t, rfl, h⟩
  | succ n ih =>
    rw [Twi.burst]
    split
    · next hr =>
      obtain ⟨u, hu, hsent⟩ := h.push hlen hr
      rw [hu]
      exact ih hsent
    · exact ⟨t, rfl, h⟩

theorem Sent.send (h : Sent words buf len t) (hlen : len ≤ buf.length) {feeding : Bool}
    (hr : feeding = true → t.remaining ≠ 0) (looks : List (BitVec 32)) :
    ∃ t' left, send buf feeding looks t = some (t', left) ∧ Sent words buf len t' := by
  induction looks generalizing t feeding with
  | nil => exact ⟨t, none, by cases feeding <;> rfl, h⟩
  | cons s ss ih =>
    cases feeding with
    | false =>
      rw [Twi.send]
      split
      · exact ⟨t, some ss, rfl, h⟩
      · exact ih h of_decide_eq_true
    | true =>
      rw [Twi.send]
      split
      · obtain ⟨u, hu, hsent⟩ := h.push hlen (hr rfl)
        rw [hu]
        exact ih hsent of_decide_eq_true
      · exact ih h fun hf => by cases hf

/-- Whatever the status shows, a beginning of the bytes has been pushed, and all of them when the
call returns 0. -/
theorem writeTo_spec (b : Bsc) (address : UInt8) (hlen : len ≤ buf.length)
    (looks : List (BitVec 32)) : ∃ r b', writeTo b address buf len looks = some (r, b') ∧
      ∃ k ≤ len, pushed b' = pushed b ++ (buf.take k).map word ∧ (r = some 0 → k = len) := by
  have h0 : Sent (pushed b) buf len ⟨prepare b address len, 0, len⟩ :=
    ⟨Nat.zero_add len, by simp [pushed_prepare]⟩
  obtain ⟨t, hburst, ht⟩ := h0.burst hlen 16
  have ht' : Sent (pushed b) buf len { t with bsc := t.bsc.write .c (bsci2cen ||| bscst) } :=
    ⟨ht.count, by rw [pushed_write (by decide), ht.pushed]⟩
  obtain ⟨u, left, hsend, hu⟩ := ht'.send hlen (show false = true → _ from nofun) looks
  have hcount := hu.count
  simp only [writeTo, hburst, hsend, Option.bind_eq_bind, Option.bind_some]
  cases hreason : left.bind (reason u.remaining) with
  | none => exact ⟨none, u.bsc, rfl, u.i, by omega, hu.pushed, nofun⟩
  | some r =>
    refine ⟨some r, _, rfl, u.i, by omega, by rw [pushed_write (by decide), hu.pushed], ?_⟩
    intro hr
    obtain ⟨ss, -, hss⟩ := Option.bind_eq_some_iff.mp hreason
    obtain rfl : r = 0 := Option.some.inj hr
    have hzero := reason_zero hss
    omega

/-! What is received. -/

/-- How many bytes the bus has ready for the first loop. -/
def offered : Bool → List Look → Nat
  | _, [] => 0
  | false, (s, _) :: ls => if s &&& bscdone ≠ 0 then 0 else offered true ls
  | true, (s, _) :: ls => if s &&& bscrxd ≠ 0 then offered true ls + 1 else offered false ls

/-- The bytes stored so far fill the beginning of the buffer, and the rest of `len` remains. -/
structure Received (len : Nat) (t : Receiving) : Prop where
  count : t.stores.length + t.remaining = len
  next : t.i = t.stores.length
  places : t.stores.map Prod.fst = List.range t.stores.length
  unwrapped : t.wrapped = false

variable {r : Receiving}

theorem length_pull_stores (r : Receiving) (x : UInt8) :
    (r.pull x).stores.length = r.stores.length + 1 := by
  rw [Receiving.pull, List.length_append, List.length_singleton]

theorem receive_stores (draining : Bool) (ls : List Look) (r : Receiving) :
    (receive draining ls r).1.stores.length = r.stores.length + offered draining ls := by
  induction ls generalizing draining r with
  | nil => cases draining <;> rfl
  | cons l ls ih =>
    cases draining with
    | false =>
      rw [receive, offered]
      split
      · rfl
      · exact ih true r
    | true =>
      rw [receive, offered]
      split
      · rw [ih, length_pull_stores]
        omega
      · exact ih false r

theorem drain_stores (ls : List Look) (r : Receiving) :
    r.stores.length ≤ (drain ls r).1.stores.length := by
  induction ls generalizing r with
  | nil => exact Nat.le_refl _
  | cons l ls ih =>
    rw [drain]
    split
    · split
      · refine Nat.le_trans ?_ (ih _)
        rw [length_pull_stores]
        exact Nat.le_succ _
      · exact Nat.le_refl _
    · exact Nat.le_refl _

theorem Received.pull (h : Received len r) (hlen : len < 2^32) (hr : r.remaining ≠ 0) (x : UInt8) :
    Received len (r.pull x) := by
  have hcount := h.count
  have hnext := h.next
  have hstores := length_pull_stores r x
  constructor
  · rw [hstores, Receiving.pull]
    dsimp only
    omega
  · rw [hstores, Receiving.pull]
    dsimp only
    omega
  · rw [hstores, Receiving.pull, List.map_append, h.places, List.range_succ, hnext]
    rfl
  · rw [Receiving.pull, h.unwrapped, Bool.false_or, beq_eq_false_iff_ne]
    exact hr

theorem Received.receive (h : Received len r) (hlen : len < 2^32) {draining : Bool}
    {ls : List Look} (hoffered : offered draining ls ≤ r.remaining) :
    Received len (receive draining ls r).1 := by
  induction ls generalizing draining r with
  | nil =>
    cases draining with
    | false => exact h
    | true => exact h
  | cons l ls ih =>
    cases draining with
    | false =>
      rw [offered] at hoffered
      rw [Twi.receive]
      split
      · exact h
      · next hdone => exact ih h (by rwa [if_neg hdone] at hoffered)
    | true =>
      rw [offered] at hoffered
      rw [Twi.receive]
      split
      · next hrxd =>
        rw [if_pos hrxd] at hoffered
        have hpull := h.pull hlen (by omega) l.2
        have hcount := h.count
        have hcount' := hpull.count
        rw [length_pull_stores] at hcount'
        exact ih hpull (by omega)
      · next hrxd => exact ih h (by rwa [if_neg hrxd] at hoffered)

theorem Received.drain (h : Received len r) (hlen : len < 2^32) (ls : List Look) :
    Received len (drain ls r).1 := by
  induction ls generalizing r with
  | nil => exact h
  | cons l ls ih =>
    rw [Twi.drain]
    split
    · next hr =>
      split
      · exact ih (h.pull hlen hr l.2)
      · exact h
    · exact h

theorem received_start (b : Bsc) (address : UInt8) (len : Nat) :
    Received len (.start b address len) :=
  ⟨Nat.zero_add len, rfl, rfl, rfl⟩

theorem readFrom_cases (b : Bsc) (address : UInt8) (len : Nat) (looks : List Look) :
    ∃ t c, (t = (receive false looks (.start b address len)).1 ∨
        ∃ ls, t = (drain ls (receive false looks (.start b address len)).1).1) ∧
      (readFrom b address len looks).2 = { t with bsc := c } ∧
      ((readFrom b address len looks).1 = some 0 → t.remaining = 0) := by
  unfold readFrom
  generalize receive false looks (.start b address len) = first
  obtain ⟨t, left⟩ := first
  cases left with
  | none => exact ⟨t, t.bsc, Or.inl rfl, rfl, nofun⟩
  | some ls =>
    generalize hdrain : drain ls t = second
    obtain ⟨u, left⟩ := second
    have hu : u = (drain ls t).1 := by rw [hdrain]
    dsimp only
    rw [hdrain]
    dsimp only
    cases hreason : left.bind fun ls => reason u.remaining (ls.map Prod.fst) with
    | none => exact ⟨u, u.bsc, Or.inr ⟨ls, hu⟩, rfl, nofun⟩
    | some v =>
      refine ⟨u, _, Or.inr ⟨ls, hu⟩, rfl, fun hv => ?_⟩
      obtain rfl : v = 0 := Option.some.inj hv
      obtain ⟨ls', -, hls⟩ := Option.bind_eq_some_iff.mp hreason
      exact reason_zero hls

theorem offered_le (b : Bsc) (address : UInt8) (len : Nat) (looks : List Look) :
    offered false looks ≤ (readFrom b address len looks).2.stores.length := by
  obtain ⟨t, c, ht, hread, -⟩ := readFrom_cases b address len looks
  have hfirst : offered false looks =
      (receive false looks (.start b address len)).1.stores.length := by
    rw [receive_stores, Receiving.start, List.length_nil, Nat.zero_add]
  rw [hread, hfirst]
  obtain rfl | ⟨ls, rfl⟩ := ht
  · exact Nat.le_refl _
  · exact drain_stores ls _

theorem readFrom_received (b : Bsc) (address : UInt8) (hlen : len < 2^32) {looks : List Look}
    (hoffered : offered false looks ≤ len) : Received len (readFrom b address len looks).2 ∧
      ((readFrom b address len looks).1 = some 0 →
        (readFrom b address len looks).2.stores.length = len) := by
  obtain ⟨t, c, ht, hread, hzero⟩ := readFrom_cases b address len looks
  have hfirst := (received_start b address len).receive hlen hoffered
  have hreceived : Received len t := by
    obtain rfl | ⟨ls, rfl⟩ := ht
    · exact hfirst
    · exact hfirst.drain hlen ls
  have hcount := hreceived.count
  rw [hread]
  refine ⟨⟨hcount, hreceived.next, hreceived.places, hreceived.unwrapped⟩, fun h => ?_⟩
  have hremaining := hzero h
  dsimp only
  omega

/-- A read stores at most `len` bytes, at places below `len`, does not count below 0, and returns 0
only when all of them have come. -/
structure Bounded (len : Nat) (result : Option UInt8 × Receiving) : Prop where
  stores : result.2.stores.length ≤ len
  places : ∀ p ∈ result.2.stores, p.1 < len
  unwrapped : result.2.wrapped = false
  complete : result.1 = some 0 → result.2.stores.length = len

theorem bounded_readFrom_iff (b : Bsc) (address : UInt8) (hlen : len < 2^32)
    (looks : List Look) :
    Bounded len (readFrom b address len looks) ↔ offered false looks ≤ len := by
  constructor
  · intro h
    exact Nat.le_trans (offered_le b address len looks) h.stores
  · intro h
    obtain ⟨hreceived, hcomplete⟩ := readFrom_received b address hlen h
    have hcount := hreceived.count
    refine ⟨by omega, fun p hp => ?_, hreceived.unwrapped, hcomplete⟩
    have hplace := List.mem_map_of_mem (f := Prod.fst) hp
    rw [hreceived.places, List.mem_range] at hplace
    omega

end RasPiArduino.Twi
