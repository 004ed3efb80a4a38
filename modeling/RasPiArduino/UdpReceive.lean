import RasPiArduino.UdpSend

/-! What the receiving calls of BridgeUDP deliver of a datagram. The cbuf is built with
the length of the datagram, and so has room for all of it but the last byte. -/
namespace RasPiArduino.BridgeUdp
open RasPiArduino.Transition
variable {s t : State} {b : Cbuf} {B : Behind}

/-- The buffers parsePacket() makes: a sound ring, or that of size 0 for an empty datagram. -/
def Sound (b : Cbuf) : Prop := b.Ok ∨ b = Cbuf.new []

theorem Sound.length_content (h : Sound b) : b.content.length = b.getSize := by
  obtain h | rfl := h
  · exact h.length_content
  · rfl

def firstOf (q : List UInt8) : Int :=
  match q with
  | [] => -1
  | c :: _ => c.toNat

theorem Sound.peek_eq (h : Sound b) : b.peek = some (firstOf b.content) := by
  obtain h | rfl := h
  · cases hc : b.content with
    | nil => exact h.peek_nil hc
    | cons c cs => exact h.peek_cons hc
  · rfl

theorem Sound.read_eq (h : Sound b) :
    ∃ b', b.read = some (firstOf b.content, b') ∧ Sound b' ∧ b'.content = b.content.tail := by
  obtain h | rfl := h
  · cases hc : b.content with
    | nil => exact ⟨b, h.read_nil hc, .inl h, hc⟩
    | cons c cs =>
      obtain ⟨b', hr, hok, -, hc'⟩ := h.read_cons hc
      exact ⟨b', hr, .inl hok, hc'⟩
  · exact ⟨_, rfl, .inr rfl, rfl⟩

theorem Sound.readBlock_eq (h : Sound b) (len : Nat) :
    ∃ b', b.readBlock len = some (min len b.content.length, b.content.take len, b') ∧
      Sound b' ∧ b'.content = b.content.drop len := by
  obtain h | rfl := h
  · obtain ⟨b', hr, hok, -, hc⟩ := h.readBlock_eq len
    exact ⟨b', by rw [hr, h.length_content], .inl hok, hc⟩
  · refine ⟨Cbuf.new [], ?_, .inr rfl, by simp [Cbuf.new_content]⟩
    simp [Cbuf.readBlock, Cbuf.new, Cbuf.getSize, Cbuf.load, Cbuf.size, Cbuf.wrapIfBufend,
      Cbuf.content]

theorem received_buffer (d : Received) :
    ∃ n b, (Cbuf.new d.mem).writeBlock d.payload = some (n, b) ∧ Sound b ∧
      b.content = d.payload.dropLast := by
  obtain ⟨ip, port, payload, mem, hle, hmem⟩ := d
  cases payload with
  | nil =>
    obtain rfl : mem = [] := List.eq_nil_of_length_eq_zero hmem
    exact ⟨0, Cbuf.new [], rfl, .inr rfl, rfl⟩
  | cons c cs =>
    have hok : (Cbuf.new mem).Ok := Cbuf.new_ok (by simp [hmem]) (by omega)
    obtain ⟨b, hw, hok', -, hc⟩ := hok.writeBlock_eq (c :: cs)
    refine ⟨_, b, hw, .inl hok', ?_⟩
    have hroom : (Cbuf.new mem).room = (c :: cs).length - 1 := by
      rw [hok.room_eq, ← hmem]
      rfl
    rw [hc, Cbuf.new_content, List.nil_append, hroom, List.dropLast_eq_take]

/-! The pending datagram as a list of bytes. -/

def RxSound (s : State) : Prop := ∀ b, s.rxBuffer = some b → Sound b

def unread (s : State) : List UInt8 := (s.rxBuffer.map Cbuf.content).getD []

theorem keep_cases (b : Cbuf) :
    b.getSize = 0 ∧ keep b = none ∨ b.getSize ≠ 0 ∧ keep b = some b := by
  unfold keep
  split
  · next h => exact .inl ⟨h, rfl⟩
  · next h => exact .inr ⟨h, rfl⟩

theorem rxSound_keep (h : Sound b) : RxSound { s with rxBuffer := keep b } := by
  intro b' hb
  obtain ⟨-, hk⟩ | ⟨-, hk⟩ := keep_cases b <;> simp_all

theorem unread_keep (h : Sound b) : unread { s with rxBuffer := keep b } = b.content := by
  obtain ⟨hz, hk⟩ | ⟨-, hk⟩ := keep_cases b
  · have hc : b.content = [] := List.eq_nil_of_length_eq_zero (h.length_content.trans hz)
    simp [unread, hk, hc]
  · simp [unread, hk]

theorem available_eq (h : RxSound s) : available s = (unread s).length := by
  unfold available unread
  split
  · next hr => simp [hr]
  · next b hr => simp [hr, (h b hr).length_content]

theorem peek_eq (h : RxSound s) : peek s = some (firstOf (unread s)) := by
  unfold peek unread
  split
  · next hr => simp [hr, firstOf]
  · next b hr => simp [hr, (h b hr).peek_eq]

theorem read_eq (h : RxSound s) :
    ∃ t, read s = some (firstOf (unread s), t) ∧ RxSound t ∧ unread t = (unread s).tail := by
  cases hr : s.rxBuffer with
  | none => exact ⟨s, by simp [read, unread, hr, firstOf], h, by simp [unread, hr]⟩
  | some b =>
    obtain ⟨b', hb, hs, hc⟩ := (h b hr).read_eq
    exact ⟨{ s with rxBuffer := keep b' }, by simp [read, unread, hr, hb], rxSound_keep hs,
      by rw [unread_keep hs, hc]; simp [unread, hr]⟩

theorem readBlock_eq (h : RxSound s) (len : Nat) :
    ∃ t, readBlock s len =
        some (((min len (unread s).length : Nat) : Int), (unread s).take len, t) ∧ RxSound t ∧
      unread t = (unread s).drop len := by
  cases hr : s.rxBuffer with
  | none => exact ⟨s, by simp [readBlock, unread, hr], h, by simp [unread, hr]⟩
  | some b =>
    obtain ⟨b', hb, hs, hc⟩ := (h b hr).readBlock_eq len
    exact ⟨{ s with rxBuffer := keep b' }, by simp [readBlock, unread, hr, hb], rxSound_keep hs,
      by rw [unread_keep hs, hc]; simp [unread, hr]⟩

theorem parsePacket_eq (hr : s.rxBuffer = none) (d : Received) :
    ∃ b t, parsePacket s (some d) = some ((d.payload.length : Int), t) ∧ t.rxBuffer = some b ∧
      Sound b ∧ b.content = d.payload.dropLast := by
  obtain ⟨n, b, hw, hs, hc⟩ := received_buffer d
  exact ⟨b, _, by simp [parsePacket, hr, hw]; rfl, rfl, hs, hc⟩

inductive ReadOp where
  | read
  | readBlock (len : Nat)
  | peek

def ReadsAs : List ReadOp → State → List UInt8 → Prop
  | [], s, q => available s = q.length
  | .read :: ops, s, q => available s = q.length ∧
      ∃ t, read s = some (firstOf q, t) ∧ ReadsAs ops t q.tail
  | .readBlock len :: ops, s, q => available s = q.length ∧
      ∃ t, readBlock s len = some (((min len q.length : Nat) : Int), q.take len, t) ∧
        ReadsAs ops t (q.drop len)
  | .peek :: ops, s, q => available s = q.length ∧ peek s = some (firstOf q) ∧ ReadsAs ops s q

theorem reads_unread (h : RxSound s) (ops : List ReadOp) : ReadsAs ops s (unread s) := by
  induction ops generalizing s with
  | nil => exact available_eq h
  | cons op ops ih =>
    cases op with
    | read =>
      obtain ⟨t, ht, hs, hu⟩ := read_eq h
      exact ⟨available_eq h, t, ht, hu ▸ ih hs⟩
    | readBlock len =>
      obtain ⟨t, ht, hs, hu⟩ := readBlock_eq h len
      exact ⟨available_eq h, t, ht, hu ▸ ih hs⟩
    | peek => exact ⟨available_eq h, peek_eq h, ih h⟩

/-- parsePacket() takes the datagram `d` and the calls after it deliver `q`. -/
def Delivers (s : State) (d : Received) (q : List UInt8) : Prop :=
  ∃ t, parsePacket s (some d) = some ((d.payload.length : Int), t) ∧ ∀ ops, ReadsAs ops t q

theorem delivers_dropLast (hr : s.rxBuffer = none) (d : Received) :
    Delivers s d d.payload.dropLast := by
  obtain ⟨b, t, ht, hb, hs, hc⟩ := parsePacket_eq hr d
  refine ⟨t, ht, fun ops => ?_⟩
  have hsound : RxSound t := fun b' hb' => by
    obtain rfl : b = b' := by simpa [hb] using hb'
    exact hs
  have hu : unread t = d.payload.dropLast := by simp [unread, hb, hc]
  exact hu ▸ reads_unread hsound ops

theorem delivers_length {d : Received} {q q' : List UInt8} (h : Delivers s d q)
    (h' : Delivers s d q') : q.length = q'.length := by
  obtain ⟨t, ht, hq⟩ := h
  obtain ⟨t', ht', hq'⟩ := h'
  obtain rfl : t = t' := by simpa [ht] using ht'
  have := (hq []).symm.trans (hq' [])
  omega

/-- Every datagram loses its last byte. -/
theorem parsePacket_drops_last (s : State) (d : Received) (hr : s.rxBuffer = none)
    (hp : d.payload ≠ []) :
    ¬ Delivers s d d.payload ∧ Delivers s d d.payload.dropLast := by
  refine ⟨fun h => ?_, delivers_dropLast hr d⟩
  have hlen := delivers_length h (delivers_dropLast hr d)
  have := List.length_pos_iff.mpr hp
  rw [List.length_dropLast] at hlen
  omega

def hi : Received := ⟨0x7f000001, 8888, [104, 105], [0, 0], by decide, rfl⟩

theorem parsePacket_drops_last_hi :
    ¬ Delivers blank hi [104, 105] ∧ Delivers blank hi [104] :=
  parsePacket_drops_last _ hi rfl (by simp [hi])

theorem datagram_not_delivered :
    ¬ ∀ s d, s.rxBuffer = none → d.payload ≠ [] → Delivers s d d.payload := by
  intro h
  obtain ⟨t, ht, hops⟩ := h blank hi rfl (by simp [hi])
  have hlen := delivers_length ⟨t, ht, hops⟩ (delivers_dropLast rfl hi)
  exact absurd hlen (by decide)

/-! Whether the object listens on. -/

/-- After the call a buffer is pending only with an unread byte in it, and a
parsePacket() that finds nothing available asks the socket. -/
def Listens (s : State) (c : Call) (t : State) : Prop :=
  (∀ b, t.rxBuffer = some b → 0 < b.getSize) ∧
    ∀ r, c = .parsePacket r → available s = 0 → s.rxBuffer = none

def TwoBytes (s : State) (c : Call) (_ : State) : Prop :=
  ∀ d : Received, c = .parsePacket (some d) → s.rxBuffer = none → 2 ≤ d.payload.length

def Receives (_ : State) (c : Call) (_ : State) : Prop := c.sends = false

def Unread (s : State) : Prop := ∀ b, s.rxBuffer = some b → Sound b ∧ 0 < b.getSize

theorem Unread.sound (h : Unread s) : RxSound s := fun b hb => (h b hb).1

theorem Unread.frame (h : Unread s) (hr : t.rxBuffer = s.rxBuffer) : Unread t :=
  fun b hb => h b (hr ▸ hb)

theorem unread_keep_pos (h : Sound b) : Unread { s with rxBuffer := keep b } := by
  intro b' hb
  obtain ⟨-, hk⟩ | ⟨hne, hk⟩ := keep_cases b
  · simp [hk] at hb
  · obtain rfl : b = b' := by simpa [hk] using hb
    exact ⟨h, Nat.pos_of_ne_zero hne⟩

theorem parse_step (hr : s.rxBuffer = none) (d : Received) :
    ∃ t b, step B s (.parsePacket (some d)) = some t ∧ t.rxBuffer = some b ∧ Sound b ∧
      b.getSize = d.payload.length - 1 := by
  obtain ⟨b, t, ht, hb, hs, hc⟩ := parsePacket_eq (s := { s with stores := [] }) hr d
  refine ⟨t, b, by simp [step, call, ht], hb, hs, ?_⟩
  rw [← hs.length_content, hc, List.length_dropLast]

inductive Receive (s : State) (c : Call) (t : State) : Prop where
  | same : t.rxBuffer = s.rxBuffer → Receive s c t
  | flush : t.rxBuffer = none → Receive s c t
  | read (b : Cbuf) : Sound b → t.rxBuffer = keep b → Receive s c t
  | parse (d : Received) (b : Cbuf) : c = .parsePacket (some d) → s.rxBuffer = none →
      t.rxBuffer = some b → Sound b → b.getSize = d.payload.length - 1 → Receive s c t

/-- Every receiving call is defined: no access leaves a cbuf. -/
theorem receive_step {c : Call} (h : RxSound s) (hc : c.sends = false) :
    ∃ t, step B s c = some t ∧ Receive s c t := by
  cases c with
  | beginPacket | beginPacketTo | beginPacketHost | endPacket | write | writeBlock => cases hc
  | begin sock bound => exact ⟨_, rfl, .same (begin_rxBuffer ..)⟩
  | stop => exact ⟨_, rfl, .same (stop_rxBuffer _)⟩
  | available => exact ⟨_, rfl, .same rfl⟩
  | flush => exact ⟨_, rfl, .flush rfl⟩
  | peek =>
    have hp := peek_eq (s := { s with stores := [] }) h
    exact ⟨{ s with stores := [] }, by simp [step, call, hp], .same rfl⟩
  | read =>
    cases hr : s.rxBuffer with
    | none => exact ⟨{ s with stores := [] }, by simp [step, call, read, hr], .same rfl⟩
    | some b =>
      obtain ⟨b', hb, hs, -⟩ := (h b hr).read_eq
      exact ⟨{ s with stores := [], rxBuffer := keep b' }, by simp [step, call, read, hr, hb],
        .read b' hs rfl⟩
  | readBlock len =>
    cases hr : s.rxBuffer with
    | none => exact ⟨{ s with stores := [] }, by simp [step, call, readBlock, hr], .same rfl⟩
    | some b =>
      obtain ⟨b', hb, hs, -⟩ := (h b hr).readBlock_eq len
      exact ⟨{ s with stores := [], rxBuffer := keep b' },
        by simp [step, call, readBlock, hr, hb], .read b' hs rfl⟩
  | parsePacket r =>
    cases hr : s.rxBuffer with
    | some b => exact ⟨{ s with stores := [] }, by simp [step, call, parsePacket, hr], .same rfl⟩
    | none => cases r with
      | none => exact ⟨{ s with stores := [] }, by simp [step, call, parsePacket, hr], .same rfl⟩
      | some d =>
        obtain ⟨t, b, ht, hb, hs, hsize⟩ := parse_step (B := B) hr d
        exact ⟨t, ht, .parse d b rfl hr hb hs hsize⟩

theorem Receive.sound {c : Call} (hm : Receive s c t) (h : RxSound s) : RxSound t := by
  cases hm with
  | same hr => exact fun b hb => h b (hr ▸ hb)
  | flush hr => exact fun b hb => by simp [hr] at hb
  | read b hs hr => exact fun b' hb => rxSound_keep (s := t) hs b' (hr ▸ hb)
  | parse d b _ _ hr hs =>
    intro b' hb
    obtain rfl : b = b' := by simpa [hr] using hb
    exact hs

theorem receiving_defined (B : Behind) {cs : List Call} (hc : ∀ c ∈ cs, c.sends = false)
    (h : RxSound s) : ∃ t, run (step B) cs s = some t ∧ RxSound t := by
  induction cs generalizing s with
  | nil => exact ⟨s, rfl, h⟩
  | cons c cs ih =>
    obtain ⟨hc, hcs⟩ := List.forall_mem_cons.mp hc
    obtain ⟨t, ht, hm⟩ := receive_step (B := B) h hc
    obtain ⟨u, hu, hs⟩ := ih hcs (hm.sound h)
    exact ⟨u, run_cons_some.mpr ⟨t, ht, hu⟩, hs⟩

theorem listens_twoBytes {c : Call} (ht : step B s c = some t) (h : Listens s c t) :
    TwoBytes s c t := by
  rintro d rfl hr
  obtain ⟨t', b, ht', hb, -, hsize⟩ := parse_step (B := B) hr d
  obtain rfl : t' = t := Option.some.inj (ht'.symm.trans ht)
  have := h.1 b hb
  omega

theorem unread_step {c : Call} (h : Unread s) (hm : Receive s c t) (hq : TwoBytes s c t) :
    Unread t := by
  cases hm with
  | same hr => exact h.frame hr
  | flush hr => exact fun b hb => by simp [hr] at hb
  | read b hs hr => exact (unread_keep_pos (s := t) hs).frame hr
  | parse d b hc hnone hr hs hsize =>
    have := hq d hc hnone
    intro b' hb
    obtain rfl : b = b' := by simpa [hr] using hb
    exact ⟨hs, by omega⟩

theorem unread_listens {c : Call} (h : Unread s) (ht : Unread t) : Listens s c t := by
  refine ⟨fun b hb => (ht b hb).2, fun r _ ha => ?_⟩
  cases hr : s.rxBuffer with
  | none => rfl
  | some b =>
    have := (h b hr).2
    simp only [available, hr] at ha
    omega

/-- In every sequence of receiving calls: the object never goes deaf exactly when no
datagram of less than two bytes is taken from the socket. -/
theorem listens_iff (B : Behind) (mem : Vector UInt8 1460) (cs : List Call)
    (h : Along (step B) Receives cs (init mem)) :
    Along (step B) Listens cs (init mem) ↔ Along (step B) TwoBytes cs (init mem) := by
  constructor
  · intro hl
    refine Along.of_invariant (I := fun _ => True) ?_ trivial hl
    intro s c t _ ht hl
    exact ⟨trivial, listens_twoBytes ht hl⟩
  · intro hq
    refine Along.of_invariant (I := Unread) (Q := fun s c t => Receives s c t ∧ TwoBytes s c t)
      ?_ (by simp [Unread, init]) (h.and hq)
    intro s c t hs ht hl
    obtain ⟨t', ht', hm⟩ := receive_step (B := B) hs.sound hl.1
    obtain rfl : t' = t := Option.some.inj (ht'.symm.trans ht)
    have hu := unread_step hs hm hl.2
    exact ⟨hu, unread_listens hs hu⟩

def emptyDatagram : Received := ⟨0x7f000001, 8888, [], [], by decide, rfl⟩

theorem listens_iff_hi :
    Along (step inert) Receives [.parsePacket (some hi)] blank ∧
      Along (step inert) Listens [.parsePacket (some hi)] blank := by
  have hr : Along (step inert) Receives [.parsePacket (some hi)] blank :=
    (along_cons_of_step rfl).mpr ⟨rfl, trivial⟩
  refine ⟨hr, (listens_iff inert _ _ hr).mpr ((along_cons_of_step rfl).mpr ⟨?_, trivial⟩)⟩
  rintro d hd -
  obtain rfl : hi = d := by simpa using hd
  decide

/-- After an empty datagram nothing is available, and the socket is not asked again. -/
theorem empty_datagram_deafens :
    ¬ ∀ B mem cs, Along (step B) Receives cs (init mem) →
      Along (step B) Listens cs (init mem) := by
  intro h
  have hl := h inert (Vector.replicate 1460 0)
    [.parsePacket (some emptyDatagram)] ((along_cons_of_step rfl).mpr ⟨rfl, trivial⟩)
  obtain ⟨⟨hb, -⟩, -⟩ := (along_cons_of_step rfl).mp hl
  exact absurd (hb (Cbuf.new []) rfl) (by decide)

end RasPiArduino.BridgeUdp
