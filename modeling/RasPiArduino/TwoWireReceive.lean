import RasPiArduino.TwoWire

/-! What a request stores, and what is read after it. -/
namespace RasPiArduino.TwoWire.Receive
open Twi Machine

inductive Call where
  | available
  | read
  | peek
  deriving DecidableEq, Repr

def call (w : Wire) : Call → Option (Int × Wire)
  | .available => some (available w, w)
  | .read => read w
  | .peek => (peek w).map fun c => (c, w)

def queueCall (q : List UInt8) : Call → Option (Int × List UInt8)
  | .available => some (q.length, q)
  | .read => match q with
    | [] => some (-1, [])
    | x :: q => some (x.toNat, q)
  | .peek => match q with
    | [] => some (-1, [])
    | x :: q => some (x.toNat, x :: q)

structure Holds (w : Wire) (q : List UInt8) : Prop where
  index : w.rxBufferIndex ≤ w.rxBufferLength
  le : w.rxBufferLength ≤ bufferLength
  content : (w.rxBuffer.toList.take w.rxBufferLength).drop w.rxBufferIndex = q

variable {w : Wire} {q : List UInt8} {x : UInt8}

theorem Holds.length (h : Holds w q) : q.length = w.rxBufferLength - w.rxBufferIndex := by
  have hle := h.le
  rw [← h.content, List.length_drop, List.length_take, Vector.length_toList, Nat.min_eq_left hle]

theorem Holds.head (h : Holds w (x :: q)) : w.rxBufferIndex < w.rxBufferLength ∧
    w.rxBuffer[w.rxBufferIndex]? = some x ∧
    Holds { w with rxBufferIndex := (w.rxBufferIndex + 1) % 2^8 } q := by
  have hlen := h.length
  rw [List.length_cons] at hlen
  have hlt : w.rxBufferIndex < w.rxBufferLength := by omega
  have hle := h.le
  have hcontent := h.content
  have hi : w.rxBufferIndex < (w.rxBuffer.toList.take w.rxBufferLength).length := by
    rw [List.length_take, Vector.length_toList]
    omega
  rw [List.drop_eq_getElem_cons hi] at hcontent
  obtain ⟨hx, hq⟩ := List.cons.inj hcontent
  have hmod : (w.rxBufferIndex + 1) % 2^8 = w.rxBufferIndex + 1 := by
    simp only [bufferLength] at hle
    omega
  refine ⟨hlt, ?_, ?_, hle, ?_⟩
  · rw [List.getElem_take, Vector.getElem_toList] at hx
    rw [Vector.getElem?_eq_getElem (by omega), hx]
  · dsimp only
    omega
  · dsimp only
    rw [hmod, hq]

theorem Holds.empty (h : Holds w []) : ¬ w.rxBufferIndex < w.rxBufferLength := by
  have hlen := h.length
  rw [List.length_nil] at hlen
  omega

theorem Holds.call {r : Int} {q' : List UInt8} (h : Holds w q) {c : Call}
    (hc : queueCall q c = some (r, q')) : ∃ w', call w c = some (r, w') ∧ Holds w' q' := by
  cases c with
  | available =>
    obtain ⟨rfl, rfl⟩ := Prod.mk.inj (Option.some.inj hc)
    have hindex := h.index
    refine ⟨w, ?_, h⟩
    rw [Receive.call, available, h.length]
    congr 2
    omega
  | read =>
    cases q with
    | nil =>
      obtain ⟨rfl, rfl⟩ := Prod.mk.inj (Option.some.inj hc)
      exact ⟨w, by rw [Receive.call, read, if_neg h.empty], h⟩
    | cons x q =>
      obtain ⟨rfl, rfl⟩ := Prod.mk.inj (Option.some.inj hc)
      obtain ⟨hlt, hx, hnext⟩ := h.head
      exact ⟨_, by rw [Receive.call, read, if_pos hlt, hx]; rfl, hnext⟩
  | peek =>
    cases q with
    | nil =>
      obtain ⟨rfl, rfl⟩ := Prod.mk.inj (Option.some.inj hc)
      exact ⟨w, by rw [Receive.call, peek, if_neg h.empty]; rfl, h⟩
    | cons x q =>
      obtain ⟨rfl, rfl⟩ := Prod.mk.inj (Option.some.inj hc)
      obtain ⟨hlt, hx, -⟩ := h.head
      exact ⟨w, by rw [Receive.call, peek, if_pos hlt, hx]; rfl, h⟩

/-- Over a run these calls give out the bytes held, in order, and nothing else. -/
def GivesOut (w : Wire) (q : List UInt8) : Prop := ∀ calls rs q',
  answers queueCall calls q = some (rs, q') → ∃ w', answers call calls w = some (rs, w')

theorem Holds.givesOut (h : Holds w q) : GivesOut w q := by
  intro calls rs q' hq
  obtain ⟨w', hw', -⟩ := simulates (fun _ _ _ _ _ hs hc => hs.call hc) h hq
  exact ⟨w', hw'⟩

theorem store_places (buffer : Vector UInt8 bufferLength) (stores : List (Nat × UInt8))
    (hle : stores.length ≤ bufferLength)
    (hplaces : stores.map Prod.fst = List.range stores.length) :
    ∃ buffer', stores.foldlM (fun b p => store b p.1 p.2) buffer = some buffer' ∧
      buffer'.toList.take stores.length = stores.map Prod.snd := by
  induction stores using List.reverseRecOn with
  | nil => exact ⟨buffer, rfl, rfl⟩
  | append_singleton stores p ih =>
    obtain ⟨i, x⟩ := p
    rw [List.length_append, List.length_singleton] at hle hplaces
    rw [List.map_append, List.map_singleton, List.range_succ] at hplaces
    obtain ⟨hbefore, hi⟩ := List.append_inj' hplaces rfl
    obtain rfl : i = stores.length := by simpa using hi
    obtain ⟨b, hb, htake⟩ := ih (by omega) hbefore
    have hlt : stores.length < bufferLength := hle
    refine ⟨b.set stores.length x, ?_, ?_⟩
    · rw [List.foldlM_append, hb]
      simp [store, hlt]
    · rw [List.length_append, List.length_singleton, take_set hlt, htake, List.map_append]
      rfl

/-- What is promised of a request: no access outside the buffer, and then just the bytes that were
received in this transfer, if they are all that were asked for. -/
def Requests (w : Wire) (address : UInt8) (quantity : Nat) (looks : List Look) : Prop :=
  ∃ ret w', requestFrom w address quantity looks = some (ret, w') ∧ ∀ n, ret = some n →
    ∃ q, q.length = n ∧ GivesOut w' q ∧
      (q = [] ∨ q = (twiReadFrom w.bsc address (min quantity bufferLength) looks).2.stores.map
        Prod.snd)

theorem requests (w : Wire) (address : UInt8) (quantity : Nat) {looks : List Look}
    (hoffered : offered false looks ≤ min quantity bufferLength) :
    Requests w address quantity looks := by
  have hclip : (if quantity > bufferLength then bufferLength else quantity) =
      min quantity bufferLength := by
    split <;> omega
  have hsize : min quantity bufferLength ≤ bufferLength := Nat.min_le_right _ _
  have h32 : min quantity bufferLength < 2^32 := Nat.lt_of_le_of_lt hsize (by decide)
  obtain ⟨hreceived, hcomplete⟩ := readFrom_received w.bsc address h32 hoffered
  have hcount := hreceived.count
  obtain ⟨b, hb, htake⟩ := store_places w.rxBuffer _ (by omega) hreceived.places
  rw [Requests]
  simp only [requestFrom, hclip, twiReadFrom]
  rw [hb, Option.map_some]
  cases hread : (readFrom w.bsc address (min quantity bufferLength) looks).1 with
  | none => exact ⟨none, _, rfl, nofun⟩
  | some r =>
    refine ⟨_, _, rfl, fun n hn => ?_⟩
    rw [Option.some_inj] at hn
    by_cases hr : r = 0
    · subst hr
      have hall := hcomplete hread
      rw [if_pos rfl] at hn
      refine ⟨_, by rw [List.length_map, hall, hn], ?_, Or.inr rfl⟩
      refine Holds.givesOut ⟨Nat.zero_le _, ?_, ?_⟩
      · dsimp only
        rwa [if_pos rfl]
      · dsimp only
        rw [hall] at htake
        rw [if_pos rfl, List.drop_zero, htake]
    · rw [if_neg hr] at hn
      refine ⟨[], hn, Holds.givesOut ⟨Nat.zero_le _, ?_, ?_⟩, Or.inl rfl⟩
      · dsimp only
        rw [if_neg hr]
        exact Nat.zero_le _
      · dsimp only
        rw [if_neg hr, List.take_zero, List.drop_nil]

/-- What is promised of the reads for `len` bytes, by both controllers and for TwoWire. -/
structure Receives (len : Nat) (looks : List Look) : Prop where
  twi : ∀ b address, Bounded len (twiReadFrom b address len looks)
  ids : ∀ b address, Bounded len (idsRead b address len looks)
  requests : ∀ w address quantity, min quantity bufferLength = len →
    Requests w address quantity looks

/-- The reads do what is promised exactly when the bus has no more bytes ready before the end of
the transfer than were asked for. -/
theorem receives_iff (len : UInt32) (looks : List Look) :
    Receives len.toNat looks ↔ offered false looks ≤ len.toNat := by
  have hlen := len.toNat_lt
  constructor
  · intro h
    exact (bounded_readFrom_iff ⟨0, []⟩ 0 hlen looks).mp (h.twi ⟨0, []⟩ 0)
  · intro h
    refine ⟨fun b address => (bounded_readFrom_iff b address hlen looks).mpr h,
      fun b address => (bounded_readFrom_iff b address hlen looks).mpr h,
      fun w address quantity hq => requests w address quantity (by rwa [hq])⟩

/-- Two bytes are stored where one was asked for. -/
theorem second_byte_stored : ¬ ∀ (len : UInt32) looks, Receives len.toNat looks := by
  intro h
  have hstores := ((h 1 [(0, 0), (bscrxd, 7), (bscrxd, 8), (0, 0), (bscdone, 0)]).twi
    ⟨0, []⟩ 0x50).stores
  revert hstores
  decide

end RasPiArduino.TwoWire.Receive
