import RasPiArduino.CMemory
import RasPiArduino.Shift

/-! WString.cpp: the class String on the blocks of the allocator. An unsigned int has 32
bits; each allocation of a call has an argument for what comes of it. -/
namespace RasPiArduino
open CMemory Shift

structure WString where
  buffer : Buffer
  capacity : Nat
  len : Nat
  deriving DecidableEq, Repr

/-- The pointer that concat is given: to nothing, to a C string elsewhere, or to the buffer
of the String itself. -/
inductive Pointer where
  | null
  | text (t : List UInt8)
  | own
  deriving DecidableEq, Repr

namespace WString

def init : WString := ⟨.null, 0, 0⟩

def invalidate (s : WString) : Except Fault WString :=
  if s.buffer = .freed then .error .outside else .ok init

def changeBuffer (s : WString) (maxStrLen : Nat) (a : Option Alloc) :
    Except Fault (Bool × WString) := do
  let p ← realloc s.buffer ((maxStrLen + 1) % 2^32) a
  if p.1 ≠ .null then .ok (true, { s with buffer := p.1, capacity := maxStrLen })
  else .ok (false, { s with buffer := p.2 })

def reserve (s : WString) (size : Nat) (a : Option Alloc) : Except Fault (Bool × WString) :=
  if s.buffer ≠ .null ∧ s.capacity ≥ size then .ok (true, s)
  else do
    let (changed, s) ← s.changeBuffer size a
    if changed then
      if s.len = 0 then
        let b ← s.buffer.bytes
        let b ← put b 0 0
        .ok (true, { s with buffer := .block b })
      else .ok (true, s)
    else .ok (false, s)

def copy (s : WString) (cstr : List UInt8) (length : Nat) (a : Option Alloc) :
    Except Fault WString := do
  let (reserved, s) ← s.reserve length a
  if reserved then
    let b ← s.buffer.bytes
    let b ← strcpy b 0 cstr
    .ok { s with buffer := .block b, len := length }
  else s.invalidate

/-- The assignment of a C string; `none` is the null pointer. -/
def assignCstr (s : WString) (cstr : Option (List UInt8)) (a : Option Alloc) :
    Except Fault WString :=
  match cstr with
  | some t => s.copy t (t.length % 2^32) a
  | none => s.invalidate

def assign (s rhs : WString) (a : Option Alloc) : Except Fault WString :=
  if rhs.buffer ≠ .null then do
    let b ← rhs.buffer.bytes
    let t ← cstring b
    s.copy t rhs.len a
  else s.invalidate

def ofCstr (cstr : Option (List UInt8)) (a : Option Alloc) : Except Fault WString :=
  match cstr with
  | some t => init.copy t (t.length % 2^32) a
  | none => .ok init

def ofString (value : WString) (a : Option Alloc) : Except Fault WString := init.assign value a

def charText (c : UInt8) : List UInt8 := if c = 0 then [] else [c]

def ofChar (c : UInt8) (a : Option Alloc) : Except Fault WString :=
  init.assignCstr (some (charText c)) a

/-- The constructors from numbers, given the text of the conversion. -/
def ofNumber (text : List UInt8) (a : Option Alloc) : Except Fault WString :=
  init.assignCstr (some text) a

/-- strcpy to the NUL of the buffer; the pointer to the buffer itself may be one that realloc
has moved the block away from. -/
def strcpyFrom (b : List UInt8) (len : Nat) (dangling : Bool) :
    Pointer → Except Fault (List UInt8)
  | .null => .error .null
  | .text x => strcpy b len x
  | .own => if dangling then .error .outside else strcpyWithin b.length b len 0

def concat (s : WString) (cstr : Pointer) (length : Nat) (a : Option Alloc) :
    Except Fault (Bool × WString) :=
  let newlen := (s.len + length) % 2^32
  if cstr = .null then .ok (false, s)
  else if length = 0 then .ok (true, s)
  else do
    let (reserved, t) ← s.reserve newlen a
    if reserved then
      let b ← t.buffer.bytes
      let b ← strcpyFrom b t.len (decide (s.capacity < newlen) && a.any Alloc.moved) cstr
      let x ← cstring b
      .ok (true, { t with buffer := .block b, len := x.length % 2^32 })
    else .ok (false, t)

def concatCstr (s : WString) (cstr : Option (List UInt8)) (a : Option Alloc) :
    Except Fault (Bool × WString) :=
  match cstr with
  | some t => s.concat (.text t) (t.length % 2^32) a
  | none => .ok (false, s)

def concatString (s rhs : WString) (a : Option Alloc) : Except Fault (Bool × WString) :=
  if rhs.buffer ≠ .null then do
    let b ← rhs.buffer.bytes
    let t ← cstring b
    s.concat (.text t) rhs.len a
  else s.concat .null rhs.len a

def concatSelf (s : WString) (a : Option Alloc) : Except Fault (Bool × WString) :=
  s.concat (if s.buffer ≠ .null then .own else .null) s.len a

def addAssignSelf (s : WString) (a : Option Alloc) : Except Fault WString :=
  (s.concatSelf a).map Prod.snd

def concatChar (s : WString) (c : UInt8) (a : Option Alloc) : Except Fault (Bool × WString) :=
  s.concat (.text (charText c)) 1 a

def concatNumber (s : WString) (text : List UInt8) (a : Option Alloc) :
    Except Fault (Bool × WString) :=
  s.concat (.text text) (text.length % 2^32) a

def sum (r : Except Fault (Bool × WString)) : Except Fault WString := do
  let (done, s) ← r
  if done then .ok s else s.invalidate

def setCharAt (s : WString) (loc : Nat) (c : UInt8) : Except Fault WString :=
  if loc < s.len then do
    let b ← s.buffer.bytes
    let b ← put b loc c
    .ok { s with buffer := .block b }
  else .ok s

def setIndex (s : WString) (index : Nat) (c : UInt8) : Except Fault WString :=
  if index ≥ s.len ∨ s.buffer = .null then .ok s
  else do
    let b ← s.buffer.bytes
    let b ← put b index c
    .ok { s with buffer := .block b }

def mapBuffer (s : WString) (f : UInt8 → UInt8) : Except Fault WString :=
  if s.buffer = .null then .ok s
  else do
    let b ← s.buffer.bytes
    let b ← mapString f b
    .ok { s with buffer := .block b }

def replace (s : WString) (find replace : UInt8) : Except Fault WString :=
  s.mapBuffer fun c => if c = find then replace else c

def toLowerCase (s : WString) : Except Fault WString := s.mapBuffer tolower

def toUpperCase (s : WString) : Except Fault WString := s.mapBuffer toupper

def trimEnd (b : List UInt8) (first : Nat) : Nat → Except Fault Nat
  | 0 => .error .outside
  | e+1 => do
    let c ← get b e
    if isspace c = true ∧ first ≤ e then trimEnd b first e else .ok (e+1)

def memcpyDown (b : List UInt8) (d n : Nat) : Except Fault (List UInt8) :=
  match shiftDown d n b with
  | some b => .ok b
  | none => .error .outside

def trim (s : WString) : Except Fault WString :=
  if s.buffer = .null ∨ s.len = 0 then .ok s
  else do
    let b ← s.buffer.bytes
    let first := (b.takeWhile isspace).length
    let _ ← get b first
    let last ← trimEnd b first s.len
    let len := last - first
    let b ← (if 0 < first then memcpyDown b first len else .ok b)
    let b ← put b len 0
    .ok { s with buffer := .block b, len := len }

def substring (s : WString) (left right : Nat) (a₁ a₂ : Option Alloc) :
    Except Fault (WString × WString) := do
  let (left, right) := if left > right then (right, left) else (left, right)
  let out ← ofCstr (some []) a₁
  if left > s.len then .ok (out, s)
  else
    let right := if right > s.len then s.len else right
    let b ← s.buffer.bytes
    let temp ← get b right
    let b ← put b right 0
    let t ← cstring (b.drop left)
    let out ← out.assignCstr (some t) a₂
    let b ← put b right temp
    .ok (out, { s with buffer := .block b })

/-- The conversion of a pointer difference to int. -/
def position (p : Option Nat) : Int :=
  match p with
  | some i => Int.bmod i (2^32)
  | none => -1

def indexOf (s : WString) (ch : UInt8) (fromIndex : Nat) : Except Fault Int :=
  if fromIndex ≥ s.len then .ok (-1)
  else do
    let b ← s.buffer.bytes
    let t ← cstring (b.drop fromIndex)
    .ok (position ((strchr t ch).map (· + fromIndex)))

def indexOfString (s s2 : WString) (fromIndex : Nat) : Except Fault Int :=
  if fromIndex ≥ s.len then .ok (-1)
  else do
    let b ← s.buffer.bytes
    let t ← cstring (b.drop fromIndex)
    let b2 ← s2.buffer.bytes
    let needle ← cstring b2
    .ok (position ((strstr t needle).map (· + fromIndex)))

/-- The result and the String after the call: the byte behind `fromIndex` is a NUL for a
while. -/
def lastIndexOf (s : WString) (ch : UInt8) (fromIndex : Nat) : Except Fault (Int × WString) :=
  if fromIndex ≥ s.len then .ok (-1, s)
  else do
    let b ← s.buffer.bytes
    let tempchar ← get b (fromIndex + 1)
    let b ← put b (fromIndex + 1) 0
    let t ← cstring b
    let b ← put b (fromIndex + 1) tempchar
    .ok (position (strrchr t ch), { s with buffer := .block b })

def lastIndexLoop (b needle : List UInt8) (fromIndex : Nat) : Nat → Nat → Int → Except Fault Int
  | 0, _, found => .ok found
  | n+1, p, found =>
    if p ≤ fromIndex then do
      let t ← cstring (b.drop p)
      match strstr t needle with
      | none => .ok found
      | some k =>
        let q := p + k
        lastIndexLoop b needle fromIndex n (q + 1) (if q ≤ fromIndex then position (some q) else found)
    else .ok found

def lastIndexOfString (s s2 : WString) (fromIndex : Nat) : Except Fault Int :=
  if s2.len = 0 ∨ s.len = 0 ∨ s2.len > s.len then .ok (-1)
  else do
    let fromIndex := if fromIndex ≥ s.len then s.len - 1 else fromIndex
    let b ← s.buffer.bytes
    let b2 ← s2.buffer.bytes
    let needle ← cstring b2
    lastIndexLoop b needle fromIndex (fromIndex + 1) 0 (-1)

def minus (a b : Nat) : Nat := (a + (2^32 - b)) % 2^32

def startsWithAt (s s2 : WString) (offset : Nat) : Except Fault Bool :=
  if offset > minus s.len s2.len ∨ s.buffer = .null ∨ s2.buffer = .null then .ok false
  else do
    let b ← s.buffer.bytes
    let b2 ← s2.buffer.bytes
    let r ← strncmp s2.len (b.drop offset) b2
    .ok (r == 0)

def startsWith (s s2 : WString) : Except Fault Bool :=
  if s.len < s2.len then .ok false else s.startsWithAt s2 0

def endsWith (s s2 : WString) : Except Fault Bool :=
  if s.len < s2.len ∨ s.buffer = .null ∨ s2.buffer = .null then .ok false
  else do
    let b ← s.buffer.bytes
    let b2 ← s2.buffer.bytes
    let r ← strcmp (b.drop (minus s.len s2.len)) b2
    .ok (r == 0)

def removeCount (s : WString) (index count : Nat) : Except Fault WString :=
  if index ≥ s.len then .ok s
  else if count = 0 then .ok s
  else do
    let count := if (index + count) % 2^32 > s.len then minus s.len index else count
    let len := minus s.len count
    let b ← s.buffer.bytes
    let b ← strncpyWithin (minus len index) b index ((index + count) % 2^32)
    let b ← put b len 0
    .ok { s with buffer := .block b, len := len }

def remove (s : WString) (index : Nat) : Except Fault WString :=
  if index ≥ s.len then .ok s else s.removeCount index (minus s.len index)

end WString
end RasPiArduino
