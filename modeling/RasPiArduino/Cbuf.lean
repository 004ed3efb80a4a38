import Mathlib
import RasPiArduino.Ring

/-! The class cbuf. Pointers are offsets from `_buf`, so that `_bufend` is the size;
`none` is an access outside the array. -/
namespace RasPiArduino
open RasPiArduino.Ring

structure Cbuf where
  buf : List UInt8
  beginPtr : Nat
  endPtr : Nat
  deriving DecidableEq, Repr

namespace Cbuf

/-- The constructor, on the memory that `new char[size]` returned. -/
def new (mem : List UInt8) : Cbuf := ⟨mem, 0, 0⟩

def size (b : Cbuf) : Nat := b.buf.length

def wrapIfBufend (b : Cbuf) (ptr : Nat) : Nat := if ptr = b.size then 0 else ptr

def getSize (b : Cbuf) : Nat :=
  if b.endPtr ≥ b.beginPtr then b.endPtr - b.beginPtr else b.size - (b.beginPtr - b.endPtr)

/-- size_t has 32 bits: for size 0 the subtraction wraps. -/
def room (b : Cbuf) : Nat :=
  if b.endPtr ≥ b.beginPtr then (2^32 + b.size - (b.endPtr - b.beginPtr) - 1) % 2^32
  else b.beginPtr - b.endPtr - 1

def empty (b : Cbuf) : Bool := b.beginPtr == b.endPtr

def full (b : Cbuf) : Bool := b.wrapIfBufend (b.endPtr + 1) == b.beginPtr

def load (b : Cbuf) (ptr n : Nat) : Option (List UInt8) :=
  if ptr + n ≤ b.size then some ((b.buf.drop ptr).take n) else none

def store (b : Cbuf) (ptr : Nat) (src : List UInt8) : Option Cbuf :=
  if ptr + src.length ≤ b.size then some { b with buf := overwrite b.buf ptr src } else none

/-- char is unsigned on the target. -/
def peek (b : Cbuf) : Option Int :=
  if b.empty then some (-1) else (b.buf[b.beginPtr]?).map fun c => (c.toNat : Int)

def read (b : Cbuf) : Option (Int × Cbuf) :=
  if b.empty then some (-1, b)
  else (b.buf[b.beginPtr]?).map fun c =>
    ((c.toNat : Int), { b with beginPtr := b.wrapIfBufend (b.beginPtr + 1) })

def readBlock (b : Cbuf) (size : Nat) : Option (Nat × List UInt8 × Cbuf) :=
  let n := if size < b.getSize then size else b.getSize
  if b.endPtr < b.beginPtr ∧ n > b.size - b.beginPtr then do
    let top := b.size - b.beginPtr
    let dst ← b.load b.beginPtr top
    let rest ← b.load 0 (n - top)
    some (n, dst ++ rest, { b with beginPtr := b.wrapIfBufend (n - top) })
  else do
    let dst ← b.load b.beginPtr n
    some (n, dst, { b with beginPtr := b.wrapIfBufend (b.beginPtr + n) })

def write (b : Cbuf) (c : UInt8) : Option (Nat × Cbuf) :=
  if b.full then some (0, b)
  else (b.store b.endPtr [c]).map fun b' =>
    (1, { b' with endPtr := b.wrapIfBufend (b.endPtr + 1) })

def writeBlock (b : Cbuf) (src : List UInt8) : Option (Nat × Cbuf) :=
  let n := if src.length < b.room then src.length else b.room
  if b.endPtr ≥ b.beginPtr ∧ n > b.size - b.endPtr then do
    let top := b.size - b.endPtr
    let b' ← b.store b.endPtr (src.take top)
    let b'' ← b'.store 0 ((src.drop top).take (n - top))
    some (n, { b'' with endPtr := b.wrapIfBufend (n - top) })
  else do
    let b' ← b.store b.endPtr (src.take n)
    some (n, { b' with endPtr := b.wrapIfBufend (b.endPtr + n) })

def flush (b : Cbuf) : Cbuf := { b with beginPtr := 0, endPtr := 0 }

/-! What the buffer holds, and what each operation does to that. -/

/-- Both pointers in the array, whose size a size_t holds. -/
structure Ok (b : Cbuf) : Prop where
  size_lt : b.size < 2^32
  begin_lt : b.beginPtr < b.size
  end_lt : b.endPtr < b.size

def content (b : Cbuf) : List UInt8 := arc b.buf b.beginPtr b.getSize

variable {b : Cbuf}

theorem new_ok {mem : List UInt8} (h : 0 < mem.length) (hs : mem.length < 2^32) : (new mem).Ok :=
  ⟨hs, h, h⟩

theorem new_content (mem : List UInt8) : (new mem).content = [] := by
  simp [content, getSize, new]

theorem getSize_cases (b : Cbuf) :
    b.beginPtr ≤ b.endPtr ∧ b.getSize = b.endPtr - b.beginPtr ∨
      b.endPtr < b.beginPtr ∧ b.getSize = b.size - (b.beginPtr - b.endPtr) := by
  unfold getSize
  split <;> omega

theorem Ok.getSize_lt (h : b.Ok) : b.getSize < b.size := by
  have h₁ := h.begin_lt
  have h₂ := h.end_lt
  have h₃ := b.getSize_cases
  omega

theorem Ok.end_eq (h : b.Ok) : b.endPtr = (b.beginPtr + b.getSize) % b.size := by
  have h₁ := h.begin_lt
  have h₂ := h.end_lt
  have h₃ := h.getSize_lt
  have h₄ := b.getSize_cases
  have h₅ := mod_cases (a := b.beginPtr + b.getSize) (n := b.size) (by omega)
  omega

theorem getSize_of_end {n : Nat} (hb : b.beginPtr < b.size) (hn : n < b.size)
    (he : b.endPtr = (b.beginPtr + n) % b.size) : b.getSize = n := by
  have h₁ := mod_cases (a := b.beginPtr + n) (n := b.size) (by omega)
  have h₂ := b.getSize_cases
  omega

theorem Ok.room_eq (h : b.Ok) : b.room = b.size - 1 - b.getSize := by
  have h₁ := h.begin_lt
  have h₂ := h.end_lt
  have h₃ := h.size_lt
  have h₄ := b.getSize_cases
  unfold room
  split <;> omega

theorem Ok.length_content (h : b.Ok) : b.content.length = b.getSize :=
  length_arc (Nat.le_of_lt h.getSize_lt)

theorem Ok.empty_iff (h : b.Ok) : b.empty = true ↔ b.content = [] := by
  have h₁ := h.begin_lt
  have h₂ := h.end_lt
  rw [← List.length_eq_zero_iff, h.length_content]
  simp only [empty, getSize, beq_iff_eq]
  split <;> omega

theorem Ok.full_iff (h : b.Ok) : b.full = true ↔ b.room = 0 := by
  have h₁ := h.begin_lt
  have h₂ := h.end_lt
  rw [h.room_eq]
  simp only [full, wrapIfBufend, getSize, beq_iff_eq]
  split <;> split <;> omega

theorem wrapIfBufend_eq {ptr : Nat} (h : ptr ≤ b.size) :
    b.wrapIfBufend ptr = ptr % b.size := by
  unfold wrapIfBufend
  split
  · next he => rw [he, Nat.mod_self]
  · rw [Nat.mod_eq_of_lt (by omega)]

theorem Ok.advance (h : b.Ok) (b' : Cbuf) {n : Nat} (hn : n ≤ b.getSize) (hbuf : b'.buf = b.buf)
    (hend : b'.endPtr = b.endPtr) (hbegin : b'.beginPtr = (b.beginPtr + n) % b.size) :
    b'.Ok ∧ b'.size = b.size ∧ b'.content = b.content.drop n := by
  have hs : b'.size = b.size := congrArg List.length hbuf
  have hlt := h.getSize_lt
  have hb := h.begin_lt
  have hpos : 0 < b.size := by omega
  have hok : b'.Ok := by
    refine ⟨hs ▸ h.size_lt, ?_, ?_⟩
    · rw [hs, hbegin]
      exact Nat.mod_lt _ hpos
    · rw [hs, hend]
      exact h.end_lt
  have hsize : b'.getSize = b.getSize - n := by
    refine getSize_of_end hok.begin_lt (by omega) ?_
    rw [hend, h.end_eq, hs, hbegin, Nat.mod_add_mod]
    congr 1
    omega
  refine ⟨hok, hs, ?_⟩
  rw [content, content, drop_arc hn (Nat.le_of_lt hlt), hsize, hbuf, hbegin, size, arc_mod]

theorem Ok.extend (h : b.Ok) (src : List UInt8) (b' : Cbuf)
    (hn : b.getSize + src.length < b.size) (hblock : b.endPtr + src.length ≤ b.size)
    (hbuf : b'.buf = overwrite b.buf b.endPtr src) (hbegin : b'.beginPtr = b.beginPtr)
    (hend : b'.endPtr = (b.endPtr + src.length) % b.size) :
    b'.Ok ∧ b'.size = b.size ∧ b'.content = b.content ++ src := by
  have hs : b'.size = b.size := by
    rw [size, hbuf]
    exact length_overwrite hblock
  have hb := h.begin_lt
  have hpos : 0 < b.size := by omega
  have hok : b'.Ok := by
    refine ⟨hs ▸ h.size_lt, ?_, ?_⟩
    · rw [hs, hbegin]
      exact hb
    · rw [hs, hend]
      exact Nat.mod_lt _ hpos
  have hsize : b'.getSize = b.getSize + src.length := by
    refine getSize_of_end hok.begin_lt (by omega) ?_
    rw [hend, h.end_eq, hs, hbegin, Nat.mod_add_mod, Nat.add_assoc]
  refine ⟨hok, hs, ?_⟩
  rw [content, content, hsize, hbuf, hbegin, h.end_eq]
  exact arc_overwrite hb (Nat.le_of_lt hn) (by rw [← size, ← h.end_eq]; exact hblock)

theorem load_eq {p n : Nat} (h : p + n ≤ b.size) : b.load p n = some (arc b.buf p n) := by
  rw [load, if_pos h, arc_block h]

/-- read(dst, size) takes the oldest bytes, as many as are asked for and there. -/
theorem Ok.readBlock_eq (h : b.Ok) (len : Nat) :
    ∃ b', b.readBlock len = some (min len b.getSize, b.content.take len, b') ∧ b'.Ok ∧
      b'.size = b.size ∧ b'.content = b.content.drop len := by
  have hb := h.begin_lt
  have he := h.end_lt
  have hlt := h.getSize_lt
  have hc := b.getSize_cases
  obtain ⟨n, hn⟩ : ∃ n, n = min len b.getSize := ⟨_, rfl⟩
  have hmin : (if len < b.getSize then len else b.getSize) = n := by
    rw [hn]
    split <;> omega
  have htake : b.content.take len = arc b.buf b.beginPtr n := by
    rw [← take_arc (n := b.getSize) (by omega), hn, ← content, List.take_eq_take_iff,
      h.length_content]
    omega
  have hdrop : b.content.drop len = b.content.drop n := by
    rw [hn, List.drop_eq_drop_iff, h.length_content]
    omega
  refine ⟨{ b with beginPtr := (b.beginPtr + n) % b.size }, ?_,
    hdrop ▸ h.advance _ (by omega) rfl rfl rfl⟩
  simp only [readBlock, hmin, ← hn, htake]
  split
  · next hw =>
    -- the bytes up to the end of the array, then those from its front
    obtain ⟨k, rfl⟩ : ∃ k, n = b.size - b.beginPtr + k := ⟨n - (b.size - b.beginPtr), by omega⟩
    have hwrap : (b.beginPtr + (b.size - b.beginPtr)) % b.size = 0 := by
      rw [Nat.add_sub_cancel' (Nat.le_of_lt hb), Nat.mod_self]
    rw [load_eq (by omega), load_eq (by omega), Nat.add_sub_cancel_left, arc_add (by
      rw [← size]; omega), ← arc_mod b.buf (b.beginPtr + (b.size - b.beginPtr)), ← size, hwrap,
      wrapIfBufend_eq (by omega), ← Nat.add_assoc, ← Nat.mod_add_mod, hwrap, Nat.zero_add]
    rfl
  · next hw =>
    rw [load_eq (by omega), wrapIfBufend_eq (by omega)]
    rfl

theorem Ok.read_nil (h : b.Ok) (hc : b.content = []) : b.read = some (-1, b) := by
  rw [read, if_pos (h.empty_iff.mpr hc)]

theorem Ok.first (h : b.Ok) {c : UInt8} {cs : List UInt8} (hc : b.content = c :: cs) :
    b.buf[b.beginPtr]? = some c := by
  have hlen := h.length_content
  have hlt := h.getSize_lt
  have hb : b.beginPtr < b.buf.length := h.begin_lt
  have h0 : b.content[0]? = some c := by rw [hc]; rfl
  rwa [content, getElem?_arc (by simp [hc] at hlen; omega) (Nat.le_of_lt hlt), Nat.zero_add,
    Nat.mod_eq_of_lt hb] at h0

theorem Ok.read_cons (h : b.Ok) {c : UInt8} {cs : List UInt8} (hc : b.content = c :: cs) :
    ∃ b', b.read = some ((c.toNat : Int), b') ∧ b'.Ok ∧ b'.size = b.size ∧ b'.content = cs := by
  have hne : b.empty = false := by
    rw [Bool.eq_false_iff]
    exact fun he => by simp [h.empty_iff.mp he] at hc
  have hlen := h.length_content
  have hb := h.begin_lt
  obtain ⟨hok, hs, hd⟩ := h.advance { b with beginPtr := (b.beginPtr + 1) % b.size }
    (n := 1) (by simp [hc] at hlen; omega) rfl rfl rfl
  refine ⟨_, ?_, hok, hs, by simpa [hc] using hd⟩
  rw [read, hne, h.first hc, wrapIfBufend_eq (by omega)]
  rfl

theorem Ok.peek_nil (h : b.Ok) (hc : b.content = []) : b.peek = some (-1) := by
  rw [peek, if_pos (h.empty_iff.mpr hc)]

theorem Ok.peek_cons (h : b.Ok) {c : UInt8} {cs : List UInt8} (hc : b.content = c :: cs) :
    b.peek = some (c.toNat : Int) := by
  have hne : b.empty = false := by
    rw [Bool.eq_false_iff]
    exact fun he => by simp [h.empty_iff.mp he] at hc
  rw [peek, hne, h.first hc]
  rfl

/-- write(src, size) stores the first bytes, as many as there is room for. -/
theorem Ok.writeBlock_eq (h : b.Ok) (src : List UInt8) :
    ∃ b', b.writeBlock src = some (min src.length b.room, b') ∧ b'.Ok ∧ b'.size = b.size ∧
      b'.content = b.content ++ src.take b.room := by
  have hb := h.begin_lt
  have he := h.end_lt
  have hlt := h.getSize_lt
  have hc := b.getSize_cases
  have hroom := h.room_eq
  obtain ⟨n, hn⟩ : ∃ n, n = min src.length b.room := ⟨_, rfl⟩
  have hmin : (if src.length < b.room then src.length else b.room) = n := by
    rw [hn]
    split <;> omega
  have htake : src.take b.room = src.take n := by
    rw [hn, List.take_eq_take_iff]
    omega
  have hlen : (src.take n).length = n := by simp; omega
  simp only [writeBlock, hmin, ← hn, htake]
  split
  · next hw =>
    obtain ⟨top, htop⟩ : ∃ top, top = b.size - b.endPtr := ⟨_, rfl⟩
    have hlen₁ : (src.take top).length = top := by simp; omega
    have hlen₂ : ((src.drop top).take (n - top)).length = n - top := by simp; omega
    obtain ⟨hok₁, hs₁, hc₁⟩ := h.extend (src.take top)
      { b with buf := overwrite b.buf b.endPtr (src.take top), endPtr := 0 }
      (by omega) (by omega) rfl rfl (by
        rw [hlen₁, htop, Nat.add_sub_cancel' (Nat.le_of_lt he), Nat.mod_self])
    obtain ⟨hok₂, hs₂, hc₂⟩ := hok₁.extend ((src.drop top).take (n - top))
      { b with buf := overwrite (overwrite b.buf b.endPtr (src.take top)) 0
                 ((src.drop top).take (n - top))
               endPtr := (0 + ((src.drop top).take (n - top)).length) % b.size }
      (by rw [hs₁, ← hok₁.length_content, hc₁, List.length_append, h.length_content]; omega)
      (by rw [hs₁]; dsimp only; omega) rfl rfl (by rw [hs₁])
    have hs' : (overwrite b.buf b.endPtr (src.take top)).length = b.size := hs₁
    refine ⟨_, ?_, hok₂, hs₂.trans hs₁, ?_⟩
    · rw [← htop, store, if_pos (by omega), Option.bind_eq_bind, Option.bind_some, store,
        if_pos (by rw [size, hs']; omega), wrapIfBufend_eq (by omega), hlen₂,
        Nat.zero_add]
      rfl
    · rw [hc₂, hc₁, List.append_assoc, ← List.take_add, Nat.add_sub_cancel' (by omega)]
  · next hw =>
    obtain ⟨hok, hs, hcont⟩ := h.extend (src.take n)
      { b with buf := overwrite b.buf b.endPtr (src.take n)
               endPtr := (b.endPtr + (src.take n).length) % b.size }
      (by omega) (by omega) rfl rfl rfl
    refine ⟨_, ?_, hok, hs, hcont⟩
    rw [store, if_pos (by omega), wrapIfBufend_eq (by omega), hlen]
    rfl

end Cbuf
end RasPiArduino
