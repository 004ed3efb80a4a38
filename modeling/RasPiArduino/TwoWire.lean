import RasPiArduino.Machine
import RasPiArduino.Twi

/-! Wire.cpp: the buffers of TwoWire between the sketch and the transfers. `none` is an access
outside a buffer; the indices are uint8_t. -/
namespace RasPiArduino.TwoWire
open Twi Machine

def bufferLength : Nat := 32

structure Wire where
  bsc : Bsc
  rxBuffer : Vector UInt8 bufferLength
  rxBufferIndex : Nat
  rxBufferLength : Nat
  txAddress : UInt8
  txBuffer : Vector UInt8 bufferLength
  txBufferIndex : Nat
  txBufferLength : Nat

def initial (bsc : Bsc) (rxBuffer txBuffer : Vector UInt8 bufferLength) : Wire :=
  ⟨bsc, rxBuffer, 0, 0, 0, txBuffer, 0, 0⟩

def store (buffer : Vector UInt8 bufferLength) (i : Nat) (x : UInt8) :
    Option (Vector UInt8 bufferLength) :=
  if h : i < bufferLength then some (buffer.set i x) else none

def beginTransmission (w : Wire) (address : UInt8) : Wire :=
  { w with txAddress := address, txBufferIndex := 0, txBufferLength := 0 }

def endTransmission (w : Wire) (looks : List (BitVec 32)) : Option (Option UInt8 × Wire) :=
  (twiWriteTo w.bsc w.txAddress w.txBuffer.toList w.txBufferLength looks).map fun (ret, bsc) =>
    match ret with
    | none => (none, { w with bsc := bsc })
    | some ret => (some ret, { w with bsc := bsc, txBufferIndex := 0, txBufferLength := 0 })

def write (w : Wire) (data : UInt8) : Option (Nat × Wire) :=
  if w.txBufferLength ≥ bufferLength then some (0, w)
  else (store w.txBuffer w.txBufferIndex data).map fun txBuffer =>
    let index := (w.txBufferIndex + 1) % 2^8
    (1, { w with txBuffer := txBuffer, txBufferIndex := index, txBufferLength := index })

def writeEach : List UInt8 → Wire → Option (List Nat × Wire)
  | [], w => some ([], w)
  | x :: data, w => do
    let (n, w) ← write w x
    let (ns, w) ← writeEach data w
    some (n :: ns, w)

def writeBlock (w : Wire) (data : List UInt8) : Option (Nat × Wire) :=
  (writeEach data w).map fun (_, w) => (data.length, w)

def requestFrom (w : Wire) (address : UInt8) (quantity : Nat) (looks : List Look) :
    Option (Option Nat × Wire) :=
  let quantity := if quantity > bufferLength then bufferLength else quantity
  let (read, t) := twiReadFrom w.bsc address quantity looks
  (t.stores.foldlM (fun buffer p => store buffer p.1 p.2) w.rxBuffer).map fun rxBuffer =>
    match read with
    | none => (none, { w with bsc := t.bsc, rxBuffer := rxBuffer })
    | some read =>
      let length := if read = 0 then quantity else 0
      (some length, { w with
        bsc := t.bsc
        rxBuffer := rxBuffer
        rxBufferIndex := 0
        rxBufferLength := length })

def available (w : Wire) : Int := w.rxBufferLength - w.rxBufferIndex

def read (w : Wire) : Option (Int × Wire) :=
  if w.rxBufferIndex < w.rxBufferLength then
    (w.rxBuffer[w.rxBufferIndex]?).map fun x =>
      (x.toNat, { w with rxBufferIndex := (w.rxBufferIndex + 1) % 2^8 })
  else some (-1, w)

def peek (w : Wire) : Option Int :=
  if w.rxBufferIndex < w.rxBufferLength then
    (w.rxBuffer[w.rxBufferIndex]?).map fun x => (x.toNat : Int)
  else some (-1)

theorem take_set {buffer : Vector UInt8 bufferLength} {i : Nat} (hi : i < bufferLength)
    (x : UInt8) : (buffer.set i x).toList.take (i + 1) = buffer.toList.take i ++ [x] := by
  have hlen : i < buffer.toList.length := by
    rw [Vector.length_toList]
    exact hi
  rw [Vector.toList_set, List.take_add_one, List.take_set_of_le (Nat.le_refl _),
    List.getElem?_set_self hlen]
  rfl

end RasPiArduino.TwoWire
