import Mathlib

/-! DS3231.cpp: the registers of the clock chip behind the I2C bus, and the functions that read
and change a register. What becomes of each transaction on the bus is given. -/
namespace RasPiArduino.Ds3231

def rtca1 : UInt8 := 0x07

def rtca2 : UInt8 := 0x0B

def rtccr : UInt8 := 0x0E

def rtcsr : UInt8 := 0x0F

/-- The bits of the control register, and the flags of the status register. -/
def rtca2ie : UInt8 := (1 : UInt8) <<< 1

def rtca1ie : UInt8 := (1 : UInt8) <<< 0

def rtca2f : UInt8 := (1 : UInt8) <<< 1

def rtca1f : UInt8 := (1 : UInt8) <<< 0

/-- The registers of the chip, and the address that the next byte is for. -/
structure Clock where
  regs : UInt8 → UInt8
  pointer : UInt8

/-- The address is counted up to the last register, and goes on from the first. -/
def Clock.advance (c : Clock) : Clock :=
  { c with pointer := if c.pointer = 0x12 then 0 else c.pointer + 1 }

def Clock.store (c : Clock) (x : UInt8) : Clock :=
  { c with regs := Function.update c.regs c.pointer x }.advance

def Clock.take (c : Clock) : List UInt8 → Clock
  | [] => c
  | reg :: values => values.foldl Clock.store { c with pointer := reg }

/-- What the transfer of twi.c returns, and how many bytes come through before it fails. -/
structure Outcome where
  ret : UInt8
  through : ℕ
  deriving DecidableEq, Repr

/-- The chip on the bus, and the messages sent so far; `count` transactions are over. -/
structure Bus where
  clock : Clock
  sent : List (List UInt8)
  count : ℕ

def transmit (o : ℕ → Outcome) (b : Bus) (message : List UInt8) : UInt8 × Bus :=
  let x := o b.count
  let taken := if x.ret = 0 then message else message.take x.through
  (x.ret, ⟨b.clock.take taken, b.sent ++ [message], b.count + 1⟩)

def requestByte (o : ℕ → Outcome) (b : Bus) : ℕ × UInt8 × Bus :=
  let x := o b.count
  let b := { b with count := b.count + 1 }
  if x.ret = 0 then (1, b.clock.regs b.clock.pointer, { b with clock := b.clock.advance })
  else (0, 0, if x.through = 0 then b else { b with clock := b.clock.advance })

/-- The conversion of an int to uint8_t. -/
def byte (x : Int32) : UInt8 := ⟨x.toBitVec.setWidth 8⟩

def int (x : UInt8) : Int32 := ⟨⟨x.toBitVec.setWidth 32⟩⟩

def getReg (o : ℕ → Outcome) (b : Bus) (reg : UInt8) : Int32 × Bus :=
  let (ret, b) := transmit o b [reg]
  if ret ≠ 0 then (-1, b)
  else
    let (n, x, b) := requestByte o b
    if n = 0 then (-1, b) else (int x, b)

def setReg (o : ℕ → Outcome) (b : Bus) (reg value : UInt8) : Bool × Bus :=
  let (ret, b) := transmit o b [reg, value]
  (ret == 0, b)

def updateReg (o : ℕ → Outcome) (b : Bus) (reg value mask : UInt8) : Bool × Bus :=
  let (regval, b) := getReg o b reg
  if regval = -1 then (false, b)
  else setReg o b reg (byte (regval &&& ~~~int mask ||| int value))

def write (o : ℕ → Outcome) (b : Bus) (reg : UInt8) (buf : List UInt8) : Bool × Bus :=
  let (ret, b) := transmit o b (reg :: buf)
  (ret == 0, b)

/-! The functions of the two alarms, by their flag or their bit. -/

def hasAlarm (o : ℕ → Outcome) (b : Bus) (flag : UInt8) : Bool × Bus :=
  let (regval, b) := getReg o b rtcsr
  let reg := byte regval
  let b := if reg &&& flag ≠ 0 then (setReg o b rtcsr (reg &&& ~~~flag)).2 else b
  (reg &&& flag != 0, b)

def enableAlarm (o : ℕ → Outcome) (b : Bus) (bit : UInt8) : Bool × Bus :=
  let (regval, b) := getReg o b rtccr
  setReg o b rtccr (byte (regval ||| int bit))

def disableAlarm (o : ℕ → Outcome) (b : Bus) (bit : UInt8) : Bool × Bus :=
  let (regval, b) := getReg o b rtccr
  setReg o b rtccr (byte (regval &&& ~~~int bit))

def isAlarmEnabled (o : ℕ → Outcome) (b : Bus) (bit : UInt8) : Bool × Bus :=
  let (regval, b) := getReg o b rtccr
  (regval &&& int bit != 0, b)

def hasAlarm1 (o : ℕ → Outcome) (b : Bus) : Bool × Bus := hasAlarm o b rtca1f

def enableAlarm1 (o : ℕ → Outcome) (b : Bus) : Bool × Bus := enableAlarm o b rtca1ie

def disableAlarm1 (o : ℕ → Outcome) (b : Bus) : Bool × Bus := disableAlarm o b rtca1ie

def isAlarm1Enabled (o : ℕ → Outcome) (b : Bus) : Bool × Bus := isAlarmEnabled o b rtca1ie

def hasAlarm2 (o : ℕ → Outcome) (b : Bus) : Bool × Bus := hasAlarm o b rtca2f

def enableAlarm2 (o : ℕ → Outcome) (b : Bus) : Bool × Bus := enableAlarm o b rtca2ie

def disableAlarm2 (o : ℕ → Outcome) (b : Bus) : Bool × Bus := disableAlarm o b rtca2ie

def isAlarm2Enabled (o : ℕ → Outcome) (b : Bus) : Bool × Bus := isAlarmEnabled o b rtca2ie

/-- The functions that change one register, after they have read it. -/
inductive Op where
  | updateReg (reg value mask : UInt8)
  | hasAlarm1
  | enableAlarm1
  | disableAlarm1
  | hasAlarm2
  | enableAlarm2
  | disableAlarm2
  deriving DecidableEq, Repr

def Op.run (o : ℕ → Outcome) (b : Bus) : Op → Bool × Bus
  | .updateReg reg value mask => Ds3231.updateReg o b reg value mask
  | .hasAlarm1 => Ds3231.hasAlarm1 o b
  | .enableAlarm1 => Ds3231.enableAlarm1 o b
  | .disableAlarm1 => Ds3231.disableAlarm1 o b
  | .hasAlarm2 => Ds3231.hasAlarm2 o b
  | .enableAlarm2 => Ds3231.enableAlarm2 o b
  | .disableAlarm2 => Ds3231.disableAlarm2 o b

def Op.reg : Op → UInt8
  | .updateReg reg _ _ => reg
  | .hasAlarm1 | .hasAlarm2 => rtcsr
  | .enableAlarm1 | .disableAlarm1 | .enableAlarm2 | .disableAlarm2 => rtccr

/-- The bits that are named: those of updateReg() are the ones to clear and the ones to set. -/
def Op.bits : Op → UInt8
  | .updateReg _ value mask => mask ||| value
  | .hasAlarm1 => rtca1f
  | .enableAlarm1 | .disableAlarm1 => rtca1ie
  | .hasAlarm2 => rtca2f
  | .enableAlarm2 | .disableAlarm2 => rtca2ie

def Op.value : Op → UInt8
  | .updateReg _ value _ => value
  | .enableAlarm1 => rtca1ie
  | .enableAlarm2 => rtca2ie
  | .hasAlarm1 | .hasAlarm2 | .disableAlarm1 | .disableAlarm2 => 0

/-- Both transactions of a read succeed. -/
def Reads (o : ℕ → Outcome) (b : Bus) : Prop := (o b.count).ret = 0 ∧ (o (b.count + 1)).ret = 0

instance (o : ℕ → Outcome) (b : Bus) : Decidable (Reads o b) :=
  inferInstanceAs (Decidable ((o b.count).ret = 0 ∧ (o (b.count + 1)).ret = 0))

/-- The call changes the bits it is named for or nothing. When it cannot read the register, it
sends no message but the address and returns false. -/
structure Careful (o : ℕ → Outcome) (b : Bus) (op : Op) : Prop where
  bits : (op.run o b).2.clock.regs op.reg = b.clock.regs op.reg ∨
    (op.run o b).2.clock.regs op.reg = b.clock.regs op.reg &&& ~~~op.bits ||| op.value
  others : ∀ reg ≠ op.reg, (op.run o b).2.clock.regs reg = b.clock.regs reg
  unread : ¬ Reads o b → (op.run o b).1 = false ∧ (op.run o b).2.sent = b.sent ++ [[op.reg]]

variable {o : ℕ → Outcome} {b : Bus} {reg value : UInt8}

/-! The conversions between int and uint8_t. -/

theorem toBitVec_byte (x : Int32) : (byte x).toBitVec = x.toBitVec.setWidth 8 := rfl

theorem toBitVec_int (x : UInt8) : (int x).toBitVec = x.toBitVec.setWidth 32 := rfl

theorem byte_int (x : UInt8) : byte (int x) = x := by
  rw [← UInt8.toBitVec_inj, toBitVec_byte, toBitVec_int,
    BitVec.setWidth_setWidth_of_le _ (by decide), BitVec.setWidth_eq]

theorem byte_or (x y : Int32) : byte (x ||| y) = byte x ||| byte y := by
  rw [← UInt8.toBitVec_inj, toBitVec_byte, Int32.toBitVec_or, BitVec.setWidth_or]
  rfl

theorem byte_and (x y : Int32) : byte (x &&& y) = byte x &&& byte y := by
  rw [← UInt8.toBitVec_inj, toBitVec_byte, Int32.toBitVec_and, BitVec.setWidth_and]
  rfl

theorem byte_not (x : Int32) : byte (~~~x) = ~~~byte x := by
  rw [← UInt8.toBitVec_inj, toBitVec_byte, Int32.toBitVec_not, BitVec.setWidth_not (by decide)]
  rfl

theorem int_ne_neg_one (x : UInt8) : int x ≠ -1 := by
  intro h
  have hx := x.toNat_lt
  have hnat := congrArg (fun y : Int32 => y.toBitVec.toNat) h
  simp only [toBitVec_int, BitVec.toNat_setWidth, UInt8.toNat_toBitVec] at hnat
  have hone : (-1 : Int32).toBitVec.toNat = 2^32 - 1 := by decide
  omega

/-! What the transactions do. -/

theorem take_address (c : Clock) (n : ℕ) : (c.take ([reg].take n)).regs = c.regs := by
  cases n with
  | zero => rfl
  | succ n => simp [Clock.take]

theorem take_value (c : Clock) (n : ℕ) :
    (c.take ([reg, value].take n)).regs = c.regs ∨
      (c.take ([reg, value].take n)).regs = Function.update c.regs reg value := by
  match n with
  | 0 => exact .inl rfl
  | 1 => exact .inl rfl
  | n + 2 => simp [Clock.take, Clock.store, Clock.advance]

theorem getReg_regs : (getReg o b reg).2.clock.regs = b.clock.regs := by
  have haddress : (transmit o b [reg]).2.clock.regs = b.clock.regs := by
    simp only [transmit]
    split
    · rfl
    · exact take_address _ _
  rw [← haddress]
  simp only [getReg, requestByte]
  split
  · rfl
  · split
    · rfl
    · split <;> rfl

theorem getReg_sent : (getReg o b reg).2.sent = b.sent ++ [[reg]] := by
  simp only [getReg, requestByte]
  split
  · rfl
  · split
    · rfl
    · split <;> rfl

theorem getReg_of_reads (h : Reads o b) : (getReg o b reg).1 = int (b.clock.regs reg) := by
  simp [getReg, transmit, requestByte, h.1, h.2, Clock.take]

theorem getReg_of_not_reads (h : ¬ Reads o b) : (getReg o b reg).1 = -1 := by
  rw [Reads, not_and_or] at h
  by_cases haddress : (o b.count).ret = 0
  · have hbyte : (o (b.count + 1)).ret ≠ 0 := h.resolve_left fun h => h haddress
    simp [getReg, transmit, requestByte, haddress, hbyte]
  · simp [getReg, transmit, haddress]

theorem setReg_regs : (setReg o b reg value).2.clock.regs = b.clock.regs ∨
    (setReg o b reg value).2.clock.regs = Function.update b.clock.regs reg value := by
  simp only [setReg, transmit]
  split
  · exact take_value b.clock 2
  · exact take_value b.clock _

theorem setReg_sent : (setReg o b reg value).2.sent = b.sent ++ [[reg, value]] := rfl

/-! The calls that change a register. -/

theorem clear_then_set (x m v : UInt8) : x &&& ~~~m ||| v = x &&& ~~~(m ||| v) ||| v := by
  rw [← UInt8.toBitVec_inj]
  ext i hi
  simp only [UInt8.toBitVec_or, UInt8.toBitVec_and, UInt8.toBitVec_not, BitVec.getElem_or,
    BitVec.getElem_and, BitVec.getElem_not]
  cases v.toBitVec[i] <;> simp

theorem set_bits (x v : UInt8) : x ||| v = x &&& ~~~v ||| v := by
  have h := clear_then_set x 0 v
  simpa using h

theorem setReg_of_getReg {reg reg' : UInt8} {x : UInt8} :
    (setReg o (getReg o b reg').2 reg x).2.clock.regs = b.clock.regs ∨
      (setReg o (getReg o b reg').2 reg x).2.clock.regs = Function.update b.clock.regs reg x := by
  rw [← (getReg_regs : (getReg o b reg').2.clock.regs = b.clock.regs)]
  exact setReg_regs

theorem hasAlarm_regs (h : Reads o b) (flag : UInt8) :
    (hasAlarm o b flag).2.clock.regs = b.clock.regs ∨
      (hasAlarm o b flag).2.clock.regs =
        Function.update b.clock.regs rtcsr (b.clock.regs rtcsr &&& ~~~flag) := by
  simp only [hasAlarm, getReg_of_reads h, byte_int]
  split
  · exact setReg_of_getReg
  · exact .inl getReg_regs

theorem enableAlarm_regs (h : Reads o b) (bit : UInt8) :
    (enableAlarm o b bit).2.clock.regs = b.clock.regs ∨
      (enableAlarm o b bit).2.clock.regs =
        Function.update b.clock.regs rtccr (b.clock.regs rtccr ||| bit) := by
  simp only [enableAlarm, getReg_of_reads h, byte_or, byte_int]
  exact setReg_of_getReg

theorem disableAlarm_regs (h : Reads o b) (bit : UInt8) :
    (disableAlarm o b bit).2.clock.regs = b.clock.regs ∨
      (disableAlarm o b bit).2.clock.regs =
        Function.update b.clock.regs rtccr (b.clock.regs rtccr &&& ~~~bit) := by
  simp only [disableAlarm, getReg_of_reads h, byte_and, byte_not, byte_int]
  exact setReg_of_getReg

theorem updateReg_regs (h : Reads o b) (reg value mask : UInt8) :
    (updateReg o b reg value mask).2.clock.regs = b.clock.regs ∨
      (updateReg o b reg value mask).2.clock.regs =
        Function.update b.clock.regs reg (b.clock.regs reg &&& ~~~mask ||| value) := by
  simp only [updateReg, getReg_of_reads h, if_neg (int_ne_neg_one _), byte_or, byte_and, byte_not,
    byte_int]
  exact setReg_of_getReg

theorem updateReg_of_not_reads (h : ¬ Reads o b) (reg value mask : UInt8) :
    updateReg o b reg value mask = (false, (getReg o b reg).2) := by
  simp only [updateReg, getReg_of_not_reads h, if_true]

theorem isAlarmEnabled_spec (bit : UInt8) :
    (isAlarmEnabled o b bit).2.clock.regs = b.clock.regs ∧
      (Reads o b → (isAlarmEnabled o b bit).1 = (b.clock.regs rtccr &&& bit != 0)) := by
  refine ⟨getReg_regs, fun h => ?_⟩
  have hand : int (b.clock.regs rtccr) &&& int bit = int (b.clock.regs rtccr &&& bit) := by
    rw [← Int32.toBitVec_inj, Int32.toBitVec_and, toBitVec_int, toBitVec_int, toBitVec_int,
      UInt8.toBitVec_and, BitVec.setWidth_and]
  have hzero : ∀ x : UInt8, int x = 0 ↔ x = 0 := by
    intro x
    constructor
    · intro hx
      rw [← byte_int x, hx]
      rfl
    · rintro rfl
      rfl
  simp only [isAlarmEnabled, getReg_of_reads h, hand]
  rw [Bool.eq_iff_iff]
  simp [hzero]

theorem Op.run_regs (h : Reads o b) (op : Op) :
    (op.run o b).2.clock.regs = b.clock.regs ∨
      (op.run o b).2.clock.regs =
        Function.update b.clock.regs op.reg (b.clock.regs op.reg &&& ~~~op.bits ||| op.value) := by
  cases op with
  | updateReg reg value mask =>
    rw [Op.bits, Op.value, ← clear_then_set]
    exact updateReg_regs h reg value mask
  | hasAlarm1 =>
    rw [Op.value, UInt8.or_zero]
    exact hasAlarm_regs h rtca1f
  | enableAlarm1 =>
    rw [Op.bits, Op.value, ← set_bits]
    exact enableAlarm_regs h rtca1ie
  | disableAlarm1 =>
    rw [Op.value, UInt8.or_zero]
    exact disableAlarm_regs h rtca1ie
  | hasAlarm2 =>
    rw [Op.value, UInt8.or_zero]
    exact hasAlarm_regs h rtca2f
  | enableAlarm2 =>
    rw [Op.bits, Op.value, ← set_bits]
    exact enableAlarm_regs h rtca2ie
  | disableAlarm2 =>
    rw [Op.value, UInt8.or_zero]
    exact disableAlarm_regs h rtca2ie

theorem careful_of_regs {op : Op}
    (hregs : (op.run o b).2.clock.regs = b.clock.regs ∨ (op.run o b).2.clock.regs =
      Function.update b.clock.regs op.reg (b.clock.regs op.reg &&& ~~~op.bits ||| op.value))
    (hunread : ¬ Reads o b →
      (op.run o b).1 = false ∧ (op.run o b).2.sent = b.sent ++ [[op.reg]]) : Careful o b op := by
  refine ⟨?_, fun reg hreg => ?_, hunread⟩
  · exact hregs.imp (fun h => congrFun h op.reg) fun h => by rw [h, Function.update_self]
  · cases hregs with
    | inl h => rw [h]
    | inr h => rw [h, Function.update_of_ne hreg]

def Op.Checks : Op → Prop
  | .updateReg _ _ _ => True
  | _ => False

/-- Without the read all bits are taken for set: a flag is reported. -/
theorem hasAlarm_of_not_reads (h : ¬ Reads o b) {flag : UInt8} (hflag : flag ≠ 0) :
    (hasAlarm o b flag).1 = true := by
  have hbyte : byte (-1) = 0xFF := by decide
  have hand : (0xFF : UInt8) &&& flag = flag := UInt8.neg_one_and
  simp [hasAlarm, getReg_of_not_reads h, hbyte, hand, hflag]

theorem setReg_sent_ne (reg value : UInt8) :
    (setReg o (getReg o b reg).2 reg value).2.sent ≠ b.sent ++ [[reg]] := by
  intro h
  rw [setReg_sent, getReg_sent] at h
  have hlength := congrArg List.length h
  simp at hlength

theorem careful_iff (o : ℕ → Outcome) (b : Bus) (op : Op) :
    Careful o b op ↔ op.Checks ∨ Reads o b := by
  by_cases h : Reads o b
  · exact iff_of_true (careful_of_regs (op.run_regs h) fun hno => absurd h hno) (.inr h)
  · rw [or_iff_left h]
    cases op with
    | updateReg reg value mask =>
      refine iff_of_true (careful_of_regs (.inl ?_) fun _ => ?_) trivial
      · rw [Op.run, updateReg_of_not_reads h]
        exact getReg_regs
      · rw [Op.run, updateReg_of_not_reads h]
        exact ⟨rfl, getReg_sent⟩
    | hasAlarm1 =>
      refine iff_of_false (fun hc => ?_) id
      exact Bool.false_ne_true ((hc.unread h).1.symm.trans (hasAlarm_of_not_reads h (by decide)))
    | enableAlarm1 => exact iff_of_false (fun hc => setReg_sent_ne _ _ (hc.unread h).2) id
    | disableAlarm1 => exact iff_of_false (fun hc => setReg_sent_ne _ _ (hc.unread h).2) id
    | hasAlarm2 =>
      refine iff_of_false (fun hc => ?_) id
      exact Bool.false_ne_true ((hc.unread h).1.symm.trans (hasAlarm_of_not_reads h (by decide)))
    | enableAlarm2 => exact iff_of_false (fun hc => setReg_sent_ne _ _ (hc.unread h).2) id
    | disableAlarm2 => exact iff_of_false (fun hc => setReg_sent_ne _ _ (hc.unread h).2) id

/-- The read of the control register fails and the write does not: all bits are set, the one
that stops the oscillator among them. -/
theorem glitch_stops_oscillator : ¬ ∀ o b op, Careful o b op := by
  intro h
  have hbits := (h (fun n => if n = 0 then ⟨2, 0⟩ else ⟨0, 0⟩) ⟨⟨fun _ => 0, 0⟩, [], 0⟩
    .enableAlarm1).bits
  revert hbits
  decide

end RasPiArduino.Ds3231
