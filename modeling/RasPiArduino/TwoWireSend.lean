import RasPiArduino.TwoWire

/-! What TwoWire counts, keeps and sends, over whole runs of its calls. -/
namespace RasPiArduino.TwoWire
open Twi Machine

inductive Op where
  | beginTransmission (address : UInt8)
  | write (data : UInt8)
  | writeBlock (data : List UInt8)
  | endTransmission (looks : List (BitVec 32))
  deriving DecidableEq, Repr

/-- `counted` is the sum of what the writes of this transmission have returned and `accepted` the
bytes that they took; `waiting` says that endTransmission() has not returned. -/
structure Session where
  wire : Wire
  counted : Nat
  accepted : List UInt8
  waiting : Bool

def start (w : Wire) : Session := ⟨w, 0, [], false⟩

def taken (data : List UInt8) (counts : List Nat) : List UInt8 :=
  (data.zip counts).filterMap fun p => if p.2 = 1 then some p.1 else none

def exec (s : Session) (o : Op) : Option (Option Nat × Session) :=
  if s.waiting then some (none, s)
  else match o with
    | .beginTransmission address => some (none, start (TwoWire.beginTransmission s.wire address))
    | .write data => (TwoWire.write s.wire data).map fun (n, w) =>
        (some n, ⟨w, s.counted + n, s.accepted ++ taken [data] [n], false⟩)
    | .writeBlock data => do
        let (n, w) ← TwoWire.writeBlock s.wire data
        let (ns, _) ← writeEach data s.wire
        some (some n, ⟨w, s.counted + n, s.accepted ++ taken data ns, false⟩)
    | .endTransmission looks => (TwoWire.endTransmission s.wire looks).map fun (ret, w) =>
        match ret with
        | none => (none, { s with wire := w, waiting := true })
        | some ret => (some ret.toNat, start w)

def passed (w : Wire) : List UInt8 := w.txBuffer.toList.take w.txBufferLength

/-- An endTransmission() from here passes on as many bytes as were counted, and just those that
were accepted; and when it returns 0, they have all been sent, once each and in order. -/
def Delivers (s : Session) : Prop := s.waiting = false → ∀ looks, ∃ ret w,
  TwoWire.endTransmission s.wire looks = some (ret, w) ∧
    (passed s.wire).length = s.counted ∧ passed s.wire = s.accepted ∧ s.accepted.length ≤ 32 ∧
    (ret = some 0 → pushed w.bsc = pushed s.wire.bsc ++ s.accepted.map word)

/-- No block is written for which there is no room. -/
def Fits (s : Session) : Op → Prop
  | .writeBlock data => s.waiting = false → s.wire.txBufferLength + data.length ≤ 32
  | _ => True

instance (s : Session) : DecidablePred (Fits s)
  | .writeBlock _ => inferInstanceAs (Decidable (_ = false → _ ≤ 32))
  | .beginTransmission _ | .write _ | .endTransmission _ => isTrue trivial

structure Filled (w : Wire) : Prop where
  index : w.txBufferIndex = w.txBufferLength
  le : w.txBufferLength ≤ 32

variable {w w' : Wire} {s : Session} {data : List UInt8}

theorem Filled.length_passed (h : Filled w) : (passed w).length = w.txBufferLength := by
  rw [passed, List.length_take, Vector.length_toList]
  exact Nat.min_eq_left h.le

theorem Filled.write (h : Filled w) (x : UInt8) : ∃ n w', write w x = some (n, w') ∧ Filled w' ∧
    n = ([x].take (32 - w.txBufferLength)).length ∧ taken [x] [n] = [x].take (32 - w.txBufferLength) ∧
    passed w' = passed w ++ [x].take (32 - w.txBufferLength) := by
  have hle := h.le
  by_cases hfull : w.txBufferLength ≥ bufferLength
  · refine ⟨0, w, by rw [TwoWire.write, if_pos hfull], h, ?_⟩
    have hroom : 32 - w.txBufferLength = 0 := Nat.sub_eq_zero_of_le hfull
    rw [hroom, List.take_zero, List.append_nil]
    exact ⟨rfl, rfl, rfl⟩
  · rw [Nat.not_le] at hfull
    have hi : w.txBufferIndex < bufferLength := by
      rw [h.index]
      exact hfull
    have hmod : (w.txBufferIndex + 1) % 2^8 = w.txBufferLength + 1 := by
      rw [h.index]
      simp only [bufferLength] at hfull
      omega
    refine ⟨1, { w with
      txBuffer := w.txBuffer.set w.txBufferIndex x
      txBufferIndex := w.txBufferLength + 1
      txBufferLength := w.txBufferLength + 1 }, ?_, ⟨rfl, hfull⟩, ?_⟩
    · rw [TwoWire.write, if_neg (by omega), store, dif_pos hi, Option.map_some, hmod]
    · have hroom : [x].take (32 - w.txBufferLength) = [x] := by
        simp only [bufferLength] at hfull
        exact List.take_of_length_le (by simp only [List.length_singleton]; omega)
      rw [hroom]
      refine ⟨rfl, rfl, ?_⟩
      simp only [passed, h.index]
      exact take_set hfull x

theorem Filled.writeEach (h : Filled w) (data : List UInt8) : ∃ ns w',
    writeEach data w = some (ns, w') ∧ Filled w' ∧
    taken data ns = data.take (32 - w.txBufferLength) ∧
    passed w' = passed w ++ data.take (32 - w.txBufferLength) := by
  induction data generalizing w with
  | nil => exact ⟨[], w, rfl, h, by simp [taken], by simp⟩
  | cons x data ih =>
    obtain ⟨n, u, hwrite, hu, -, htaken, hpassed⟩ := h.write x
    obtain ⟨ns, v, heach, hv, htaken', hpassed'⟩ := ih hu
    have hsplit : (x :: data).take (32 - w.txBufferLength) =
        [x].take (32 - w.txBufferLength) ++ data.take (32 - u.txBufferLength) := by
      have hlen := hu.length_passed
      rw [hpassed, List.length_append, h.length_passed, List.length_take,
        List.length_singleton] at hlen
      rw [← List.singleton_append, List.take_append, List.length_singleton]
      congr 2
      omega
    refine ⟨n :: ns, v, ?_, hv, ?_, ?_⟩
    · simp [TwoWire.writeEach, hwrite, heach]
    · rw [hsplit, ← htaken, ← htaken', taken, List.zip_cons_cons, ← List.singleton_append,
        List.filterMap_append]
      rfl
    · rw [hsplit, hpassed', hpassed, List.append_assoc]

theorem Filled.writeBlock (h : Filled w) (data : List UInt8) : ∃ ns w',
    TwoWire.writeEach data w = some (ns, w') ∧ TwoWire.writeBlock w data = some (data.length, w') ∧
    Filled w' ∧ taken data ns = data.take (32 - w.txBufferLength) ∧
    passed w' = passed w ++ data.take (32 - w.txBufferLength) := by
  obtain ⟨ns, w', heach, hfilled, htaken, hpassed⟩ := h.writeEach data
  exact ⟨ns, w', heach, by rw [TwoWire.writeBlock, heach]; rfl, hfilled, htaken, hpassed⟩

theorem Filled.endTransmission (h : Filled w) (looks : List (BitVec 32)) : ∃ ret w',
    endTransmission w looks = some (ret, w') ∧
    (ret = some 0 → pushed w'.bsc = pushed w.bsc ++ (passed w).map word) ∧
    (ret ≠ none → w'.txBufferIndex = 0 ∧ w'.txBufferLength = 0) := by
  have hlen : w.txBufferLength ≤ w.txBuffer.toList.length := by
    rw [Vector.length_toList]
    exact h.le
  obtain ⟨ret, bsc, hwrite, k, -, hpushed, hall⟩ :=
    writeTo_spec w.bsc w.txAddress hlen looks
  cases ret with
  | none =>
    refine ⟨none, { w with bsc := bsc }, ?_, nofun, fun h => absurd rfl h⟩
    rw [TwoWire.endTransmission, twiWriteTo, hwrite, Option.map_some]
  | some r =>
    refine ⟨some r, { w with bsc := bsc, txBufferIndex := 0, txBufferLength := 0 }, ?_, ?_, ?_⟩
    · rw [TwoWire.endTransmission, twiWriteTo, hwrite, Option.map_some]
    · intro hr
      rw [hpushed, hall hr, passed]
    · exact fun _ => ⟨rfl, rfl⟩

/-- What was accepted is in the buffer; nothing is said of a call that has not returned. -/
structure Keeping (s : Session) : Prop where
  filled : s.waiting = false → Filled s.wire
  accepted : s.waiting = false → s.accepted = passed s.wire

/-- As many bytes were counted as are in the buffer. -/
def Counts (s : Session) : Prop := s.waiting = false → s.counted = s.wire.txBufferLength

theorem Keeping.delivers_iff (h : Keeping s) : Delivers s ↔ Counts s := by
  constructor
  · intro hd hw
    obtain ⟨ret, w, -, hlen, -⟩ := hd hw []
    rw [← hlen, (h.filled hw).length_passed]
  · intro hc hw looks
    obtain ⟨ret, w, hend, hpushed, -⟩ := (h.filled hw).endTransmission looks
    have hlen := (h.filled hw).length_passed
    refine ⟨ret, w, hend, by rw [hlen, hc hw], (h.accepted hw).symm, ?_, ?_⟩
    · rw [h.accepted hw, hlen]
      exact (h.filled hw).le
    · rw [h.accepted hw]
      exact hpushed

theorem keeping_start (hi : w.txBufferIndex = 0) (hl : w.txBufferLength = 0) :
    Keeping (start w) ∧ Counts (start w) := by
  refine ⟨⟨fun _ => ⟨hi.trans hl.symm, by dsimp only [start]; omega⟩, fun _ => ?_⟩, fun _ => hl.symm⟩
  simp [start, passed, hl]

theorem exec_waiting (hw : s.waiting = true) (o : Op) : exec s o = some (none, s) := by
  simp [exec, hw]

/-- A call keeps the books right, and the count if the block of a write fits. -/
theorem Keeping.exec (h : Keeping s) (hc : Counts s) (o : Op) :
    ∃ r t, exec s o = some (r, t) ∧ Keeping t ∧ (Counts t ↔ Fits s o) := by
  cases hw : s.waiting with
  | true =>
    refine ⟨none, s, exec_waiting hw o, h, iff_of_true hc ?_⟩
    cases o with
    | writeBlock data => exact fun hf => absurd (hw.symm.trans hf) (by decide)
    | _ => exact trivial
  | false =>
    have hfilled := h.filled hw
    have hlen := hfilled.length_passed
    have hcounted := hc hw
    cases o with
    | beginTransmission address =>
      obtain ⟨hk, hcount⟩ := keeping_start (w := TwoWire.beginTransmission s.wire address) rfl rfl
      exact ⟨none, _, by rw [TwoWire.exec, hw]; rfl, hk, iff_of_true hcount trivial⟩
    | write data =>
      obtain ⟨n, w, hwrite, hf, hn, htaken, hpassed⟩ := hfilled.write data
      have hlen' := hf.length_passed
      rw [hpassed, List.length_append, hlen, ← hn] at hlen'
      refine ⟨some n, ⟨w, s.counted + n, s.accepted ++ taken [data] [n], false⟩, ?_,
        ⟨fun _ => hf, fun _ => ?_⟩, iff_of_true (fun _ => ?_) trivial⟩
      · simp [TwoWire.exec, hw, hwrite]
      · dsimp only
        rw [htaken, hpassed, h.accepted hw]
      · dsimp only
        omega
    | writeBlock data =>
      obtain ⟨ns, w, heach, hwrite, hf, htaken, hpassed⟩ := hfilled.writeBlock data
      have hlen' := hf.length_passed
      rw [hpassed, List.length_append, hlen, List.length_take] at hlen'
      refine ⟨some data.length, ⟨w, s.counted + data.length, s.accepted ++ taken data ns, false⟩,
        ?_, ⟨fun _ => hf, fun _ => ?_⟩, ?_⟩
      · simp [TwoWire.exec, hw, hwrite, heach]
      · dsimp only
        rw [htaken, hpassed, h.accepted hw]
      · have hle := hfilled.le
        simp only [Counts, Fits, hw, true_implies]
        omega
    | endTransmission looks =>
      obtain ⟨ret, w, hend, -, hreset⟩ := hfilled.endTransmission looks
      cases ret with
      | none =>
        refine ⟨none, { s with wire := w, waiting := true }, ?_, ⟨nofun, nofun⟩,
          iff_of_true nofun trivial⟩
        simp [TwoWire.exec, hw, hend]
      | some ret =>
        obtain ⟨hi, hl⟩ := hreset (by simp)
        obtain ⟨hk, hcount⟩ := keeping_start hi hl
        refine ⟨some ret.toNat, start w, ?_, hk, iff_of_true hcount trivial⟩
        simp [TwoWire.exec, hw, hend]

/-- Along a run an endTransmission() always delivers what was counted exactly when every block that
is written fits. -/
theorem transmissions_iff (bsc : Bsc) (rxBuffer txBuffer : Vector UInt8 bufferLength)
    (ops : List Op) :
    Keeps exec (fun _ _ _ t => Delivers t) ops (start (initial bsc rxBuffer txBuffer)) ↔
      While exec Fits ops (start (initial bsc rxBuffer txBuffer)) := by
  refine keeps_iff_while (I := fun s => Keeping s ∧ Counts s) (fun s o h => ?_)
    (fun s o r t h hfit hex => ?_) ops (keeping_start rfl rfl)
  · obtain ⟨r, t, hex, hk, hiff⟩ := h.1.exec h.2 o
    constructor
    · intro hfit
      exact ⟨r, t, hex, hk.delivers_iff.mpr (hiff.mpr hfit)⟩
    · rintro ⟨r', t', hex', hd⟩
      obtain ⟨rfl, rfl⟩ := Prod.mk.inj (Option.some.inj (hex.symm.trans hex'))
      exact hiff.mp (hk.delivers_iff.mp hd)
  · obtain ⟨r', t', hex', hk, hiff⟩ := h.1.exec h.2 o
    obtain ⟨rfl, rfl⟩ := Prod.mk.inj (Option.some.inj (hex'.symm.trans hex))
    exact ⟨hk, hiff.mpr hfit⟩

/-- The 33rd byte of a block is counted and dropped. -/
theorem long_block_overcounts : ¬ ∀ bsc rxBuffer txBuffer ops,
    Keeps exec (fun _ _ _ t => Delivers t) ops (start (initial bsc rxBuffer txBuffer)) := by
  intro h
  obtain ⟨r, t, hex, hd, -⟩ := keeps_cons.mp (h ⟨0, []⟩ (Vector.replicate 32 0)
    (Vector.replicate 32 0) [.writeBlock (List.replicate 33 7)])
  have hcount : (exec (start (initial ⟨0, []⟩ (Vector.replicate 32 0) (Vector.replicate 32 0)))
      (.writeBlock (List.replicate 33 7))).map
        (fun p => (p.2.waiting, p.2.counted, (passed p.2.wire).length)) = some (false, 33, 32) := by
    decide
  rw [hex, Option.map_some, Option.some_inj] at hcount
  simp only [Prod.mk.injEq] at hcount
  obtain ⟨hw, hcounted, hpassed⟩ := hcount
  obtain ⟨ret, w, -, hlen, -⟩ := hd hw []
  omega

end RasPiArduino.TwoWire
