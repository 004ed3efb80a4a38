import RasPiArduino.Idemonitor
import RasPiArduino.Machine

/-! The receive buffer of the IDE monitor as a queue, and the block reads that keep its
order. -/
namespace RasPiArduino.Idemonitor
open RasPiArduino.Machine RasPiArduino.Shift

/-- The monitor, with what it has received and given out since the last flush. -/
structure Session where
  monitor : Idemonitor
  received : List UInt8
  delivered : List UInt8
  deriving DecidableEq, Repr

inductive Op where
  | run (acc : Int) (addr : Nat) (waiting : List UInt8) (closed : Bool)
  | read (len : Nat)
  | readChar
  | peek
  | flush
  deriving DecidableEq, Repr

def start (bound : Bool) : Session := ⟨begin bound, [], []⟩

def exec (s : Session) : Op → Option (Int × Session)
  | .run acc addr waiting closed =>
    let (bytes, m) := s.monitor.run acc addr waiting closed
    some (0, { s with monitor := m, received := s.received ++ bytes })
  | .read len => s.monitor.read len |>.map fun (n, buf, m) =>
    (n, { s with monitor := m, delivered := s.delivered ++ buf })
  | .readChar => s.monitor.readChar |>.map fun (c, m) =>
    (c, { s with
      monitor := m
      delivered := s.delivered ++ if c < 0 then [] else [UInt8.ofNat c.toNat] })
  | .peek => s.monitor.peek |>.map fun c => (c, s)
  | .flush => some (0, ⟨s.monitor.flush, [], []⟩)

def readChars : Nat → Idemonitor → Option (List UInt8 × Idemonitor)
  | 0, m => some ([], m)
  | k+1, m => do
    let (c, m) ← m.readChar
    let (cs, m) ← readChars k m
    some (UInt8.ofNat c.toNat :: cs, m)

def first : List UInt8 → Int
  | [] => -1
  | c :: _ => c.toNat

def Answered (s : Session) (o : Op) (r : Int) (t : Session) : Prop := match o with
  | .run _ _ _ _ | .flush => True
  | .peek | .readChar => r = first (s.received.drop s.delivered.length)
  | .read len => r = min len s.monitor.available ∧ ∃ buf m,
      readChars (min len s.monitor.available) s.monitor = some (buf, m) ∧
        t.delivered = s.delivered ++ buf ∧ t.monitor.content = m.content

/-- The step keeps the buffer a queue: what was received is what was given out and, behind
it, what is buffered. -/
def FifoStep (s : Session) (o : Op) (r : Int) (t : Session) : Prop :=
  Answered s o r t ∧ t.received = t.delivered ++ t.monitor.content ∧
    t.monitor.available + t.delivered.length = t.received.length

/-- A block read that takes `k` bytes needs `2k` places of the buffer, and the bytes that
its loop leaves where they are have to be those `k` places further on. -/
def ReadFits (m : Idemonitor) (len : Nat) : Prop :=
  let k := min len m.available
  k = 0 ∨ 2 * k ≤ rxLen ∧ ∀ j < m.available - k, k ≤ j → m.rxBuffer[j]? = m.rxBuffer[j+k]?

instance (m : Idemonitor) (len : Nat) : Decidable (ReadFits m len) :=
  inferInstanceAs (Decidable (_ ∨ _ ∧ _))

def ReadsFit (s : Session) : Op → Prop
  | .read len => ReadFits s.monitor len
  | _ => True

structure Fifo (s : Session) : Prop where
  ok : s.monitor.Ok
  order : s.received = s.delivered ++ s.monitor.content

variable {m : Idemonitor} {s t : Session}

theorem start_fifo (bound : Bool) : Fifo (start bound) := ⟨begin_ok bound, rfl⟩

theorem Fifo.undelivered (h : Fifo s) : s.received.drop s.delivered.length = s.monitor.content := by
  rw [h.order, List.drop_left]

theorem Fifo.count (h : Fifo s) :
    s.monitor.available + s.delivered.length = s.received.length := by
  rw [h.order, List.length_append, h.ok.length_content, available, Nat.add_comm]

theorem Ok.readChars (h : m.Ok) {k : Nat} (hk : k ≤ m.content.length) :
    ∃ m', readChars k m = some (m.content.take k, m') ∧ m'.Ok ∧
      m'.content = m.content.drop k := by
  induction k generalizing m with
  | zero => exact ⟨m, rfl, h, rfl⟩
  | succ k ih =>
    cases hc : m.content with
    | nil => simp [hc] at hk
    | cons c cs =>
      obtain ⟨m₁, hr, hok, hcs, -⟩ := h.readChar_cons hc
      rw [hc, List.length_cons] at hk
      obtain ⟨m₂, hrs, hok₂, hd⟩ := ih hok (by rw [hcs]; omega)
      refine ⟨m₂, ?_, hok₂, by rw [hd, hcs, List.drop_succ_cons]⟩
      simp [Idemonitor.readChars, hr, hrs, hcs]

theorem read_eq (m : Idemonitor) (len : Nat) :
    m.read len = (shiftDown (min len m.available) (min len m.available) m.rxBuffer).map fun rx =>
      (min len m.available, m.content.take (min len m.available),
        { m with rxBuffer := rx, rxFill := m.rxFill - min len m.available }) := by
  have hmin : (if len > m.rxFill then m.rxFill else len) = min len m.available := by
    unfold available
    split <;> omega
  have htake : m.content.take (min len m.available) = m.rxBuffer.take (min len m.available) := by
    rw [content, List.take_take]
    congr 1
    simp only [available]
    omega
  simp only [read, hmin, readLoop_eq m (Nat.le_refl _), Option.map_map, htake]
  rfl

theorem Ok.read_iff (h : m.Ok) (len : Nat) : ReadFits m len ↔ ∃ n buf m',
    m.read len = some (n, buf, m') ∧ m'.content = m.content.drop (min len m.available) := by
  have hlen := h.length
  have hfill := h.fill_le
  obtain ⟨k, hk⟩ : ∃ k, k = min len m.available := ⟨_, rfl⟩
  have hkf : k ≤ m.rxFill := by simp only [available] at hk; omega
  rw [read_eq, ReadFits, ← hk]
  have hcontent (rx : List UInt8) (hrx : shiftDown k k m.rxBuffer = some rx) :
      rx.take (m.rxFill - k) = m.content.drop k ↔
        ∀ j < m.available - k, k ≤ j → m.rxBuffer[j]? = m.rxBuffer[j+k]? := by
    have htake := take_shiftDown_iff hrx (m.rxFill - k)
    rw [Nat.sub_add_cancel hkf] at htake
    exact htake.trans ⟨fun h j h₁ h₂ => h j h₂ h₁, fun h j h₁ h₂ => h j h₂ h₁⟩
  constructor
  · intro hfit
    obtain ⟨rx, hrx⟩ : ∃ rx, shiftDown k k m.rxBuffer = some rx :=
      shiftDown_some_iff.mpr (by omega)
    have hd := (hcontent rx hrx).mpr <| by
      obtain rfl | ⟨-, hall⟩ := hfit
      · exact fun j hj hkj => rfl
      · exact hall
    exact ⟨_, _, { m with rxBuffer := rx, rxFill := m.rxFill - k }, by rw [hrx]; rfl, hd⟩
  · rintro ⟨n, buf, m', hread, hd⟩
    obtain ⟨rx, hrx, he⟩ := Option.map_eq_some_iff.mp hread
    obtain ⟨-, -, rfl⟩ : k = n ∧ m.content.take k = buf ∧ _ = m' := by simpa using he
    have hbound := shiftDown_some_iff.mp ⟨rx, hrx⟩
    refine or_iff_not_imp_left.mpr fun hk0 => ⟨by omega, (hcontent rx hrx).mp hd⟩

theorem Fifo.step (h : Fifo s) {o : Op} (hfit : ReadsFit s o) :
    ∃ r t, exec s o = some (r, t) ∧ Fifo t ∧ Answered s o r t := by
  have hund := h.undelivered
  cases o with
  | run acc addr waiting closed =>
    obtain ⟨hok, hc⟩ := h.ok.run acc addr waiting closed
    obtain ⟨⟨bytes, m⟩, hm⟩ : ∃ a, a = s.monitor.run acc addr waiting closed := ⟨_, rfl⟩
    rw [← hm] at hok hc
    refine ⟨0, ⟨m, s.received ++ bytes, s.delivered⟩, by rw [exec, ← hm], ⟨hok, ?_⟩, trivial⟩
    rw [hc, h.order, List.append_assoc]
  | read len =>
    obtain ⟨n, buf, m', hread, hd⟩ := (h.ok.read_iff len).mp hfit
    obtain ⟨m, hchars, hm, hmc⟩ := h.ok.readChars (k := min len s.monitor.available) (by
      rw [h.ok.length_content]
      exact Nat.min_le_right _ _)
    obtain ⟨rx, hrx, he⟩ := Option.map_eq_some_iff.mp ((read_eq s.monitor len).symm.trans hread)
    obtain ⟨rfl, rfl, rfl⟩ : _ = n ∧ _ = buf ∧ _ = m' := by simpa using he
    refine ⟨_, _, by rw [exec, hread]; rfl, ⟨⟨?_, ?_⟩, ?_⟩, rfl, _, m, hchars, rfl, ?_⟩
    · exact (shiftDown_spec hrx).1.trans h.ok.length
    · exact Nat.le_trans (Nat.sub_le _ _) h.ok.fill_le
    · dsimp only
      rw [hd, h.order, List.append_assoc, List.take_append_drop]
    · exact hd.trans hmc.symm
  | readChar =>
    cases hc : s.monitor.content with
    | nil =>
      rw [hc] at hund
      exact ⟨-1, s, by simp [exec, h.ok.readChar_nil hc], h, by rw [Answered, hund]; rfl⟩
    | cons c cs =>
      rw [hc] at hund
      obtain ⟨m', hr, hok, hcs, -⟩ := h.ok.readChar_cons hc
      refine ⟨c.toNat, ⟨m', s.received, s.delivered ++ [c]⟩, by simp [exec, hr], ⟨hok, ?_⟩, ?_⟩
      · rw [h.order, hc, hcs, List.append_assoc]
        rfl
      · rw [Answered, hund]
        rfl
  | peek =>
    cases hc : s.monitor.content with
    | nil =>
      rw [hc] at hund
      exact ⟨-1, s, by simp [exec, h.ok.peek_nil hc], h, by rw [Answered, hund]; rfl⟩
    | cons c cs =>
      rw [hc] at hund
      exact ⟨c.toNat, s, by simp [exec, h.ok.peek_cons hc], h, by rw [Answered, hund]; rfl⟩
  | flush => exact ⟨_, _, rfl, ⟨h.ok.flush.1, h.ok.flush.2.symm⟩, trivial⟩

theorem Fifo.readsFit (h : Fifo s) {o : Op} {r : Int} (hex : exec s o = some (r, t))
    (ht : Answered s o r t) : ReadsFit s o := by
  cases o with
  | read len =>
    obtain ⟨-, buf, m, hchars, -, hcont⟩ := ht
    obtain ⟨m', hchars', -, hmc⟩ := h.ok.readChars (k := min len s.monitor.available) (by
      rw [h.ok.length_content]
      exact Nat.min_le_right _ _)
    obtain ⟨-, rfl⟩ := Prod.mk.inj (Option.some.inj (hchars.symm.trans hchars'))
    obtain ⟨⟨n, buf', m''⟩, hread, he⟩ := Option.map_eq_some_iff.mp hex
    obtain ⟨rfl, rfl⟩ := Prod.mk.inj he
    exact (h.ok.read_iff len).mpr ⟨n, buf', m'', hread, hcont.trans hmc⟩
  | _ => trivial

/-- Over every run the buffer is a queue, read inside its 1024 bytes, exactly if every
block read in it fits. -/
theorem monitor_fifo_iff_reads_fit (bound : Bool) (ops : List Op) :
    Keeps exec FifoStep ops (start bound) ↔ While exec ReadsFit ops (start bound) := by
  refine keeps_iff_while (fun s o h => ⟨fun hfit => ?_, ?_⟩) (fun s o r t h hfit hex => ?_)
    ops (start_fifo bound)
  · obtain ⟨r, t, hex, ht, ha⟩ := h.step hfit
    exact ⟨r, t, hex, ha, ht.order, ht.count⟩
  · rintro ⟨r, t, hex, ha, -, -⟩
    exact h.readsFit hex ha
  · obtain ⟨r', t', hex', ht, -⟩ := h.step hfit
    obtain ⟨-, rfl⟩ := Prod.mk.inj (Option.some.inj (hex.symm.trans hex'))
    exact ht

/-- Of three bytes a read takes the first: the second is then there twice, the third gone. -/
theorem block_read_loses_byte : ¬ ∀ bound ops, Keeps exec FifoStep ops (start bound) := by
  intro h
  obtain ⟨r₁, s₁, e₁, -, h₁⟩ := keeps_cons.mp <| h true
    [.run 5 localhost [] false, .run (-1) 0 [97, 98, 99] false, .read 1]
  obtain ⟨r₂, s₂, e₂, -, h₂⟩ := keeps_cons.mp h₁
  obtain ⟨r₃, s₃, e₃, ⟨-, horder, -⟩, -⟩ := keeps_cons.mp h₂
  cases e₁
  cases e₂
  cases e₃
  revert horder
  decide

end RasPiArduino.Idemonitor
