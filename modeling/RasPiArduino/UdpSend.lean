import RasPiArduino.UdpModel

/-! What the sending calls of BridgeUDP store: the array has 1460 bytes, it is cleared
and taken to be full at 1500. -/
namespace RasPiArduino.BridgeUdp
open RasPiArduino.Transition
variable {B : Behind}

def Call.sends : Call → Bool
  | .beginPacket | .beginPacketTo _ _ | .beginPacketHost _ _ | .endPacket _ | .write _
  | .writeBlock _ => true
  | _ => false

def Within (s t : State) : Prop := (∀ i ∈ t.stores, i < 1460) ∧ t.rxBuffer = s.rxBuffer

def SendsWithin (s : State) (c : Call) (t : State) : Prop := c.sends = true → Within s t

/-- beginPacket() gives up because there is no peer, or the bytes written fit behind
those of the packet. -/
def Fits (s : State) (c : Call) (_ : State) : Prop :=
  match c with
  | .beginPacket => s.remotePort = 0
  | .beginPacketTo _ port => port = 0
  | .beginPacketHost server port => server = none ∨ port = 0
  | .write _ => s.bufferLen < 1460
  | .writeBlock data => data = [] ∨ s.bufferLen + data.length ≤ 1460
  | _ => True

theorem storeTx_stores (s : State) (i : Nat) (c : UInt8) :
    (storeTx B s i c).stores = s.stores ++ [i] := by
  unfold storeTx
  split <;> rfl

theorem storeTx_inside {s : State} {i : Nat} (c : UInt8) (h : i < 1460) :
    (storeTx B s i c).rxBuffer = s.rxBuffer ∧ (storeTx B s i c).bufferLen = s.bufferLen := by
  simp [storeTx, h]

theorem bzero_stores (s : State) (n : Nat) : (bzero B s n).stores = s.stores ++ List.range n := by
  induction n with
  | zero => simp [bzero]
  | succ n ih =>
    have hs : bzero B s (n+1) = storeTx B (bzero B s n) n 0 := by simp [bzero, List.range_succ]
    rw [hs, storeTx_stores, ih, List.range_succ, List.append_assoc]

theorem bzero_leaves (s : State) : ∃ i ∈ (bzero B s 1500).stores, 1460 ≤ i :=
  ⟨1460, by simp [bzero_stores], Nat.le_refl _⟩

theorem beginPacket_within {r s : State} (hs : s.stores = []) (hr : s.rxBuffer = r.rxBuffer) :
    Within r (beginPacket B s).2 ↔ s.remotePort = 0 := by
  unfold beginPacket
  split
  · next h => simp [Within, hs, hr, h]
  · next h =>
    refine ⟨fun hw => ?_, fun h' => absurd h' h⟩
    obtain ⟨i, hi, hle⟩ := bzero_leaves (B := B) { s with bufferLen := 0 }
    exact absurd (hw.1 i hi) (Nat.not_lt.mpr hle)

theorem write_inside {s : State} (data : UInt8) (h : s.bufferLen < 1460) :
    (write B s data).2.stores = s.stores ++ [s.bufferLen] ∧
      (write B s data).2.rxBuffer = s.rxBuffer ∧
      (write B s data).2.bufferLen = s.bufferLen + 1 := by
  have hfull : flushFull B s = s := if_neg (by omega)
  obtain ⟨hr, hl⟩ := storeTx_inside (B := B)
    (s := { s with bufferLen := (s.bufferLen + 1) % 2^32 }) data h
  simp only [write, hfull]
  refine ⟨storeTx_stores _ _ _, hr, hl.trans (Nat.mod_eq_of_lt (by omega))⟩

theorem write_outside {s : State} (data : UInt8) (h : 1460 ≤ s.bufferLen) :
    ∃ i ∈ (write B s data).2.stores, 1460 ≤ i := by
  simp only [write, storeTx_stores]
  by_cases hfull : s.bufferLen = 1500
  · obtain ⟨i, hi, hle⟩ :=
      bzero_leaves (B := B) { (endPacket B s 0).2 with bufferLen := 0 }
    exact ⟨i, List.mem_append_left _ (by simpa [flushFull, hfull] using hi), hle⟩
  · exact ⟨s.bufferLen, by simp [flushFull, hfull], h⟩

theorem write_stores_mono {s : State} (data : UInt8) {i : Nat} (h : i ∈ s.stores) :
    i ∈ (write B s data).2.stores := by
  simp only [write, storeTx_stores, flushFull]
  split
  · simp [bzero_stores, endPacket, h]
  · simp [h]

theorem writeBlock_stores_mono {s : State} (data : List UInt8) {i : Nat} (h : i ∈ s.stores) :
    i ∈ (writeBlock B s data).2.stores := by
  induction data generalizing s with
  | nil => exact h
  | cons c data ih => exact ih (write_stores_mono c h)

theorem writeBlock_within {s : State} (data : List UInt8) (hs : ∀ i ∈ s.stores, i < 1460) :
    Within s (writeBlock B s data).2 ↔ data = [] ∨ s.bufferLen + data.length ≤ 1460 := by
  induction data generalizing s with
  | nil => simpa [Within, writeBlock] using hs
  | cons c data ih =>
    have hrest : (writeBlock B s (c :: data)).2 = (writeBlock B (write B s c).2 data).2 := rfl
    rcases Nat.lt_or_ge s.bufferLen 1460 with hlt | hge
    · obtain ⟨hst, hrx, hlen⟩ := write_inside (B := B) c hlt
      have hih := ih (s := (write B s c).2) (by
        rw [hst]
        intro i hi
        obtain hi | rfl : i ∈ s.stores ∨ i = s.bufferLen := by simpa using hi
        · exact hs i hi
        · exact hlt)
      rw [hrest, Within, ← hrx, ← Within, hih, hlen]
      simp only [reduceCtorEq, List.length_cons, false_or]
      constructor
      · rintro (rfl | h)
        · exact hlt
        · omega
      · exact fun h => .inr (by omega)
    · obtain ⟨i, hi, hle⟩ := write_outside (B := B) c hge
      constructor
      · intro hw
        exact absurd (hw.1 i (hrest ▸ writeBlock_stores_mono data hi)) (Nat.not_lt.mpr hle)
      · simp only [reduceCtorEq, List.length_cons, false_or]
        omega

theorem sends_iff_fits {s t : State} {c : Call} (h : step B s c = some t) :
    SendsWithin s c t ↔ Fits s c t := by
  have hw : ∀ u : State, Within s u ↔ Within { s with stores := [] } u := fun _ => Iff.rfl
  cases c with
  | beginPacket =>
    obtain rfl := Option.some.inj h
    simpa [SendsWithin, Call.sends, Fits] using
      beginPacket_within (B := B) (r := s) (s := { s with stores := [] }) rfl rfl
  | beginPacketTo ip port =>
    obtain rfl := Option.some.inj h
    have hb := beginPacket_within (B := B) (r := s)
      (s := { s with stores := [], remoteIp := ip, remotePort := port }) rfl rfl
    simpa [SendsWithin, Call.sends, Fits, beginPacketTo] using hb
  | beginPacketHost server port =>
    obtain rfl := Option.some.inj h
    cases server with
    | none => simp [SendsWithin, Call.sends, Fits, beginPacketHost, Within]
    | some ip =>
      have hb := beginPacket_within (B := B) (r := s)
        (s := { s with stores := [], remoteIp := ip, remotePort := port }) rfl rfl
      simpa [SendsWithin, Call.sends, Fits, beginPacketHost, beginPacketTo] using hb
  | endPacket r =>
    obtain rfl := Option.some.inj h
    simp [SendsWithin, Call.sends, Fits, endPacket, Within]
  | write data =>
    obtain rfl := Option.some.inj h
    have hb := writeBlock_within (B := B) (s := { s with stores := [] }) [data] (by simp)
    simpa [SendsWithin, Call.sends, Fits, writeBlock, hw, Nat.add_one_le_iff] using hb
  | writeBlock data =>
    obtain rfl := Option.some.inj h
    simpa [SendsWithin, Call.sends, Fits, hw] using writeBlock_within data (by simp)
  | _ => simp [SendsWithin, Call.sends, Fits]

/-- In every sequence of calls: sending stays inside the array and keeps the pending
datagram exactly when no packet is begun towards a peer and every write fits. -/
theorem sends_within_iff (B : Behind) (mem : Vector UInt8 1460) (cs : List Call) :
    Along (step B) SendsWithin cs (init mem) ↔ Along (step B) Fits cs (init mem) := by
  refine along_iff (I := fun _ => True) (R := fun _ _ _ => True) ?_ trivial
    (along_of_forall (fun _ _ _ => trivial) cs _)
  intro s c t _ hs _
  exact ⟨trivial, sends_iff_fits hs⟩

/-- The first packet to a peer already clears 40 bytes behind the array. -/
theorem beginPacket_clears_behind :
    ¬ ∀ B mem cs, Along (step B) SendsWithin cs (init mem) := by
  intro h
  have hs := h inert (Vector.replicate 1460 0) [.beginPacketTo 0x7f000001 8888]
  obtain ⟨hw, -⟩ := (along_cons_of_step rfl).mp hs
  obtain ⟨hin, -⟩ := hw rfl
  obtain ⟨i, hi, hle⟩ := bzero_leaves (B := inert) { blank with
    remoteIp := 0x7f000001, remotePort := 8888 }
  exact absurd (hin i hi) (Nat.not_lt.mpr hle)

end RasPiArduino.BridgeUdp
