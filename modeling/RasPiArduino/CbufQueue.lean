import RasPiArduino.Cbuf
import RasPiArduino.Machine

/-! What a cbuf is for: a queue of bytes with one place less than the array has. -/
namespace RasPiArduino.Cbuf
open RasPiArduino.Machine RasPiArduino.Ring

inductive Call where
  | writeChar (c : UInt8)
  | write (src : List UInt8)
  | readChar
  | read (n : Nat)
  | peek
  | flush
  deriving DecidableEq, Repr

/-- The number a call returns, and the bytes it stores in `dst`. -/
structure Answer where
  ret : Int
  dst : List UInt8
  deriving DecidableEq, Repr

def call (b : Cbuf) : Call → Option (Answer × Cbuf)
  | .writeChar c => b.write c |>.map fun (n, b') => (⟨n, []⟩, b')
  | .write src => b.writeBlock src |>.map fun (n, b') => (⟨n, []⟩, b')
  | .readChar => b.read |>.map fun (c, b') => (⟨c, []⟩, b')
  | .read n => b.readBlock n |>.map fun (k, dst, b') => (⟨k, dst⟩, b')
  | .peek => b.peek |>.map fun c => (⟨c, []⟩, b)
  | .flush => some (⟨0, []⟩, b.flush)

def queueCall (capacity : Nat) (q : List UInt8) : Call → Option (Answer × List UInt8)
  | .writeChar c => if q.length < capacity then some (⟨1, []⟩, q ++ [c]) else some (⟨0, []⟩, q)
  | .write src => some (⟨(min src.length (capacity - q.length) : Nat), []⟩,
      q ++ src.take (capacity - q.length))
  | .readChar => match q with
    | [] => some (⟨-1, []⟩, [])
    | c :: cs => some (⟨c.toNat, []⟩, cs)
  | .read n => some (⟨(min n q.length : Nat), q.take n⟩, q.drop n)
  | .peek => match q with
    | [] => some (⟨-1, []⟩, [])
    | c :: cs => some (⟨c.toNat, []⟩, c :: cs)
  | .flush => some (⟨0, []⟩, [])

structure Holds (size : Nat) (b : Cbuf) (q : List UInt8) : Prop where
  ok : b.Ok
  size : b.size = size
  content : b.content = q

variable {b : Cbuf} {size : Nat} {q : List UInt8}

theorem Holds.length (h : Holds size b q) : q.length = b.getSize := by
  rw [← h.content, h.ok.length_content]

theorem Holds.room (h : Holds size b q) : b.room = size - 1 - q.length := by
  rw [h.length, h.ok.room_eq, h.size]

theorem Ok.write_eq_writeBlock (h : b.Ok) (c : UInt8) : b.write c = b.writeBlock [c] := by
  have hb := h.begin_lt
  have he := h.end_lt
  have hfull := h.full_iff
  simp only [write, writeBlock, List.length_singleton]
  by_cases hr : b.room = 0
  · have hnop : overwrite b.buf b.endPtr [] = b.buf := by simp [overwrite]
    have hn : (if 1 < b.room then 1 else b.room) = 0 := by split <;> omega
    rw [if_pos (hfull.mpr hr), hn, if_neg (by omega)]
    simp only [List.take_zero, store, List.length_nil, Nat.add_zero, if_pos (Nat.le_of_lt he), hnop,
      Option.bind_eq_bind, Option.bind_some, wrapIfBufend, if_neg (Nat.ne_of_lt he)]
  · have hn : (if 1 < b.room then 1 else b.room) = 1 := by split <;> omega
    rw [if_neg (fun hf => hr (hfull.mp hf)), hn, if_neg (by omega)]
    cases hs : b.store b.endPtr [c] <;> simp [hs]

/-- One byte is read as a block of one byte is; -1 stands for the empty block. -/
theorem Ok.read_eq_readBlock (h : b.Ok) : b.read = (b.readBlock 1).map fun (_, dst, b') =>
    (match dst with
      | [] => -1
      | c :: _ => c.toNat, b') := by
  have hb := h.begin_lt
  have he := h.end_lt
  have hlen := h.length_content
  have hsize := b.getSize_cases
  cases hc : b.content with
  | nil =>
    have h0 : b.getSize = 0 := by rw [← hlen, hc]; rfl
    rw [h.read_nil hc, readBlock, h0, if_neg (by omega), if_neg (by omega), load_eq (by omega)]
    simp [arc, wrapIfBufend, Nat.ne_of_lt hb]
  | cons c cs =>
    have h0 : b.getSize = cs.length + 1 := by rw [← hlen, hc]; rfl
    have hn : (if 1 < b.getSize then 1 else b.getSize) = 1 := by split <;> omega
    have hne : b.empty = false := by
      rw [Bool.eq_false_iff]
      exact fun he => by simp [h.empty_iff.mp he] at hc
    have hfirst : (b.buf.drop b.beginPtr).take 1 = [c] := by
      rw [List.take_one, List.head?_drop, h.first hc]
      rfl
    rw [readBlock, hn, if_neg (by omega), load, if_pos (by omega), hfirst, read, hne, h.first hc]
    rfl

theorem Ok.flush_holds (h : b.Ok) : Holds b.size b.flush [] := by
  refine ⟨⟨h.size_lt, ?_, ?_⟩, rfl, by simp [content, getSize, flush]⟩
  all_goals exact Nat.lt_of_le_of_lt (Nat.zero_le _) h.begin_lt

theorem Holds.call (h : Holds size b q) (o : Call) {r : Answer} {q' : List UInt8}
    (hq : queueCall (size - 1) q o = some (r, q')) :
    ∃ b', b.call o = some (r, b') ∧ Holds size b' q' := by
  have hlen := h.length
  have hroom := h.room
  cases o with
  | writeChar c =>
    obtain ⟨b', hb, hok, hs, hc⟩ := h.ok.writeBlock_eq [c]
    rw [hroom, List.length_singleton] at hb
    rw [hroom, h.content] at hc
    have hcall : b.call (.writeChar c) = some (⟨(min 1 (size - 1 - q.length) : Nat), []⟩, b') := by
      simp [Cbuf.call, h.ok.write_eq_writeBlock, hb]
    simp only [queueCall] at hq
    split at hq
    · obtain ⟨rfl, rfl⟩ := Prod.mk.inj (Option.some.inj hq)
      refine ⟨b', by rw [hcall, Nat.min_eq_left (by omega)]; rfl, hok, hs.trans h.size, ?_⟩
      rw [hc, List.take_of_length_le (by simp; omega)]
    · obtain ⟨rfl, rfl⟩ := Prod.mk.inj (Option.some.inj hq)
      have h0 : size - 1 - q.length = 0 := by omega
      refine ⟨b', by rw [hcall, h0]; rfl, hok, hs.trans h.size, ?_⟩
      rw [hc, h0, List.take_zero, List.append_nil]
  | write src =>
    obtain ⟨b', hb, hok, hs, hc⟩ := h.ok.writeBlock_eq src
    obtain ⟨rfl, rfl⟩ := Prod.mk.inj (Option.some.inj hq)
    refine ⟨b', ?_, hok, hs.trans h.size, by rw [hc, hroom, h.content]⟩
    simp [Cbuf.call, hb, hroom]
  | readChar =>
    cases q with
    | nil =>
      obtain ⟨rfl, rfl⟩ := Prod.mk.inj (Option.some.inj hq)
      exact ⟨b, by simp [Cbuf.call, h.ok.read_nil h.content], h⟩
    | cons c cs =>
      obtain ⟨rfl, rfl⟩ := Prod.mk.inj (Option.some.inj hq)
      obtain ⟨b', hb, hok, hs, hc⟩ := h.ok.read_cons h.content
      exact ⟨b', by simp [Cbuf.call, hb], hok, hs.trans h.size, hc⟩
  | read n =>
    obtain ⟨b', hb, hok, hs, hc⟩ := h.ok.readBlock_eq n
    obtain ⟨rfl, rfl⟩ := Prod.mk.inj (Option.some.inj hq)
    refine ⟨b', ?_, hok, hs.trans h.size, by rw [hc, h.content]⟩
    simp [Cbuf.call, hb, hlen, h.content]
  | peek =>
    cases q with
    | nil =>
      obtain ⟨rfl, rfl⟩ := Prod.mk.inj (Option.some.inj hq)
      exact ⟨b, by simp [Cbuf.call, h.ok.peek_nil h.content], h⟩
    | cons c cs =>
      obtain ⟨rfl, rfl⟩ := Prod.mk.inj (Option.some.inj hq)
      exact ⟨b, by simp [Cbuf.call, h.ok.peek_cons h.content], h⟩
  | flush =>
    obtain ⟨rfl, rfl⟩ := Prod.mk.inj (Option.some.inj hq)
    exact ⟨b.flush, rfl, h.size ▸ h.ok.flush_holds⟩

theorem Holds.observed (h : Holds size b q) (hpos : 0 < size) : b.getSize = q.length ∧
    b.getSize + b.room = size - 1 ∧ (b.empty = true ↔ b.getSize = 0) ∧
    (b.full = true ↔ b.room = 0) := by
  have hlt := h.ok.getSize_lt
  have hs := h.size
  refine ⟨h.length.symm, by rw [h.room, h.length]; omega, ?_, h.ok.full_iff⟩
  rw [h.ok.empty_iff, h.content, ← h.length, List.length_eq_zero_iff]

theorem queueCall_total (capacity : Nat) (q : List UInt8) (o : Call) :
    ∃ a, queueCall capacity q o = some a := by
  cases o with
  | writeChar c => simp only [queueCall]; split <;> exact ⟨_, rfl⟩
  | write src => exact ⟨_, rfl⟩
  | readChar => cases q <;> exact ⟨_, rfl⟩
  | read n => exact ⟨_, rfl⟩
  | peek => cases q <;> exact ⟨_, rfl⟩
  | flush => exact ⟨_, rfl⟩

/-- Every sequence of calls on a new buffer is answered as by a queue of capacity
size - 1, without an access outside the array. -/
theorem cbuf_refines_queue (mem : List UInt8) (hpos : 1 ≤ mem.length) (hsize : mem.length < 2^32)
    (calls : List Call) :
    ∃ rs b q, answers (queueCall (mem.length - 1)) calls [] = some (rs, q) ∧
      answers call calls (new mem) = some (rs, b) ∧ b.content = q ∧ b.getSize = q.length ∧
      b.getSize + b.room = mem.length - 1 ∧ (b.empty = true ↔ b.getSize = 0) ∧
      (b.full = true ↔ b.room = 0) ∧ (∀ c, b.write c = b.writeBlock [c]) ∧
      b.read = (b.readBlock 1).map fun (_, dst, b') =>
        (match dst with
          | [] => -1
          | c :: _ => c.toNat, b') := by
  have hnew : Holds mem.length (new mem) [] := ⟨new_ok hpos hsize, rfl, new_content mem⟩
  obtain ⟨⟨rs, q⟩, hq⟩ := answers_total (queueCall_total (mem.length - 1)) calls []
  obtain ⟨b, hb, h⟩ := simulates (fun s q o r q' h hg => h.call o hg) hnew hq
  obtain ⟨h₁, h₂, h₃, h₄⟩ := h.observed hpos
  exact ⟨rs, b, q, hq, hb, h.content, h₁, h₂, h₃, h₄, h.ok.write_eq_writeBlock,
    h.ok.read_eq_readBlock⟩

/-- Four bytes wrap around an array of four: three are kept, two of them read. -/
theorem cbuf_refines_queue_wrapped : ∃ b, answers call
      [.write [1, 2], .readChar, .write [3, 4, 5], .read 2] (new [0, 0, 0, 0]) =
        some ([⟨2, []⟩, ⟨1, []⟩, ⟨2, []⟩, ⟨2, [2, 3]⟩], b) ∧ b.content = [4] := by
  obtain ⟨rs, b, q, hq, hb, hc, -⟩ := cbuf_refines_queue [0, 0, 0, 0] (by decide) (by decide)
    [.write [1, 2], .readChar, .write [3, 4, 5], .read 2]
  have he : answers (queueCall 3) [.write [1, 2], .readChar, .write [3, 4, 5], .read 2] [] =
      some ([⟨2, []⟩, ⟨1, []⟩, ⟨2, []⟩, ⟨2, [2, 3]⟩], [4]) := by decide
  obtain ⟨rfl, rfl⟩ := Prod.mk.inj (Option.some.inj (hq.symm.trans he))
  exact ⟨b, hb, hc⟩

end RasPiArduino.Cbuf
