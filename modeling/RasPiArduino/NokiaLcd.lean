import Mathlib

/-! NOKIA_LCD.cpp: the driver of the display, down to the lines that it shifts its bytes out on,
and the controller at the other end of them. -/
namespace RasPiArduino.NokiaLcd

/-! The controller. -/

/-- The address counters, the instruction set chosen, and what is shown. -/
structure Controller where
  x : Fin 84
  y : Fin 6
  extended : Bool
  ram : Fin 6 → Fin 84 → UInt8

/-- The counters after a byte of data: on in the bank, and from its end to the next one. -/
def Controller.advance (c : Controller) : Controller :=
  if c.x = 83 then { c with x := 0, y := c.y + 1 } else { c with x := c.x + 1 }

def Controller.data (c : Controller) (d : UInt8) : Controller :=
  { c with ram := Function.update c.ram c.y (Function.update (c.ram c.y) c.x d) }.advance

/-- The counters after an address that the display does not have. -/
abbrev Odd := Controller → UInt8 → Fin 84 × Fin 6

/-- A command; the larger ones are no addresses in the extended instruction set. -/
def Controller.command (odd : Odd) (c : Controller) (d : UInt8) : Controller :=
  if 0x40 ≤ d ∧ c.extended then c
  else if 0x80 ≤ d then
    if h : d.toNat - 0x80 < 84 then { c with x := ⟨d.toNat - 0x80, h⟩ }
    else { c with x := (odd c d).1, y := (odd c d).2 }
  else if 0x40 ≤ d then
    if h : d.toNat - 0x40 < 6 then { c with y := ⟨d.toNat - 0x40, h⟩ }
    else { c with x := (odd c d).1, y := (odd c d).2 }
  else if 0x20 ≤ d ∧ d < 0x28 then { c with extended := d &&& 1 ≠ 0 }
  else c

/-! The lines. -/

inductive Line where
  | mosi
  | sck
  | ss
  | dc
  | rst
  deriving DecidableEq, Repr

/-- The levels of the lines, and the bits of the byte that is coming in. -/
structure Panel where
  mosi : Bool
  sck : Bool
  ss : Bool
  dc : Bool
  bits : List Bool
  chip : Controller

def byteOf (bits : List Bool) : UInt8 :=
  bits.foldl (fun n b => 2 * n + if b then 1 else 0) 0

/-- The level of dc at the last bit says what the byte is. -/
def Panel.receive (odd : Odd) (p : Panel) (d : UInt8) : Panel :=
  { p with bits := [], chip := if p.dc then p.chip.data d else p.chip.command odd d }

/-- Bits are taken at the rising edge of sck, as long as ss is low. -/
def digitalWrite (odd : Odd) (p : Panel) (line : Line) (level : Bool) : Panel :=
  match line with
  | .mosi => { p with mosi := level }
  | .dc => { p with dc := level }
  | .ss => { p with ss := level, bits := [] }
  | .rst =>
    if level then p
    else { p with bits := [], chip := { p.chip with x := 0, y := 0, extended := false } }
  | .sck =>
    if level && !p.sck && !p.ss then
      let p := { p with sck := level, bits := p.bits ++ [p.mosi] }
      if p.bits.length = 8 then p.receive odd (byteOf p.bits) else p
    else { p with sck := level }

/-! The driver. -/

abbrev Glyph := Vector UInt8 5

def charset : List Glyph :=
  [#v[0x00, 0x00, 0x00, 0x00, 0x00], #v[0x00, 0x00, 0x5f, 0x00, 0x00],
    #v[0x00, 0x07, 0x00, 0x07, 0x00], #v[0x14, 0x7f, 0x14, 0x7f, 0x14],
    #v[0x24, 0x2a, 0x7f, 0x2a, 0x12], #v[0x23, 0x13, 0x08, 0x64, 0x62],
    #v[0x36, 0x49, 0x55, 0x22, 0x50], #v[0x00, 0x05, 0x03, 0x00, 0x00],
    #v[0x00, 0x1c, 0x22, 0x41, 0x00], #v[0x00, 0x41, 0x22, 0x1c, 0x00],
    #v[0x14, 0x08, 0x3e, 0x08, 0x14], #v[0x08, 0x08, 0x3e, 0x08, 0x08],
    #v[0x00, 0x50, 0x30, 0x00, 0x00], #v[0x08, 0x08, 0x08, 0x08, 0x08],
    #v[0x00, 0x60, 0x60, 0x00, 0x00], #v[0x20, 0x10, 0x08, 0x04, 0x02],
    #v[0x3e, 0x51, 0x49, 0x45, 0x3e], #v[0x00, 0x42, 0x7f, 0x40, 0x00],
    #v[0x42, 0x61, 0x51, 0x49, 0x46], #v[0x21, 0x41, 0x45, 0x4b, 0x31],
    #v[0x18, 0x14, 0x12, 0x7f, 0x10], #v[0x27, 0x45, 0x45, 0x45, 0x39],
    #v[0x3c, 0x4a, 0x49, 0x49, 0x30], #v[0x01, 0x71, 0x09, 0x05, 0x03],
    #v[0x36, 0x49, 0x49, 0x49, 0x36], #v[0x06, 0x49, 0x49, 0x29, 0x1e],
    #v[0x00, 0x36, 0x36, 0x00, 0x00], #v[0x00, 0x56, 0x36, 0x00, 0x00],
    #v[0x08, 0x14, 0x22, 0x41, 0x00], #v[0x14, 0x14, 0x14, 0x14, 0x14],
    #v[0x00, 0x41, 0x22, 0x14, 0x08], #v[0x02, 0x01, 0x51, 0x09, 0x06],
    #v[0x32, 0x49, 0x79, 0x41, 0x3e], #v[0x7e, 0x11, 0x11, 0x11, 0x7e],
    #v[0x7f, 0x49, 0x49, 0x49, 0x36], #v[0x3e, 0x41, 0x41, 0x41, 0x22],
    #v[0x7f, 0x41, 0x41, 0x22, 0x1c], #v[0x7f, 0x49, 0x49, 0x49, 0x41],
    #v[0x7f, 0x09, 0x09, 0x09, 0x01], #v[0x3e, 0x41, 0x49, 0x49, 0x7a],
    #v[0x7f, 0x08, 0x08, 0x08, 0x7f], #v[0x00, 0x41, 0x7f, 0x41, 0x00],
    #v[0x20, 0x40, 0x41, 0x3f, 0x01], #v[0x7f, 0x08, 0x14, 0x22, 0x41],
    #v[0x7f, 0x40, 0x40, 0x40, 0x40], #v[0x7f, 0x02, 0x0c, 0x02, 0x7f],
    #v[0x7f, 0x04, 0x08, 0x10, 0x7f], #v[0x3e, 0x41, 0x41, 0x41, 0x3e],
    #v[0x7f, 0x09, 0x09, 0x09, 0x06], #v[0x3e, 0x41, 0x51, 0x21, 0x5e],
    #v[0x7f, 0x09, 0x19, 0x29, 0x46], #v[0x46, 0x49, 0x49, 0x49, 0x31],
    #v[0x01, 0x01, 0x7f, 0x01, 0x01], #v[0x3f, 0x40, 0x40, 0x40, 0x3f],
    #v[0x1f, 0x20, 0x40, 0x20, 0x1f], #v[0x3f, 0x40, 0x38, 0x40, 0x3f],
    #v[0x63, 0x14, 0x08, 0x14, 0x63], #v[0x07, 0x08, 0x70, 0x08, 0x07],
    #v[0x61, 0x51, 0x49, 0x45, 0x43], #v[0x00, 0x7f, 0x41, 0x41, 0x00],
    #v[0x02, 0x04, 0x08, 0x10, 0x20], #v[0x00, 0x41, 0x41, 0x7f, 0x00],
    #v[0x04, 0x02, 0x01, 0x02, 0x04], #v[0x40, 0x40, 0x40, 0x40, 0x40],
    #v[0x00, 0x01, 0x02, 0x04, 0x00], #v[0x20, 0x54, 0x54, 0x54, 0x78],
    #v[0x7f, 0x48, 0x44, 0x44, 0x38], #v[0x38, 0x44, 0x44, 0x44, 0x20],
    #v[0x38, 0x44, 0x44, 0x48, 0x7f], #v[0x38, 0x54, 0x54, 0x54, 0x18],
    #v[0x08, 0x7e, 0x09, 0x01, 0x02], #v[0x0c, 0x52, 0x52, 0x52, 0x3e],
    #v[0x7f, 0x08, 0x04, 0x04, 0x78], #v[0x00, 0x44, 0x7d, 0x40, 0x00],
    #v[0x20, 0x40, 0x44, 0x3d, 0x00], #v[0x7f, 0x10, 0x28, 0x44, 0x00],
    #v[0x00, 0x41, 0x7f, 0x40, 0x00], #v[0x7c, 0x04, 0x18, 0x04, 0x78],
    #v[0x7c, 0x08, 0x04, 0x04, 0x78], #v[0x38, 0x44, 0x44, 0x44, 0x38],
    #v[0x7c, 0x14, 0x14, 0x14, 0x08], #v[0x08, 0x14, 0x14, 0x18, 0x7c],
    #v[0x7c, 0x08, 0x04, 0x04, 0x08], #v[0x48, 0x54, 0x54, 0x54, 0x20],
    #v[0x04, 0x3f, 0x44, 0x40, 0x20], #v[0x3c, 0x40, 0x40, 0x20, 0x7c],
    #v[0x1c, 0x20, 0x40, 0x20, 0x1c], #v[0x3c, 0x40, 0x30, 0x40, 0x3c],
    #v[0x44, 0x28, 0x10, 0x28, 0x44], #v[0x0c, 0x50, 0x50, 0x50, 0x3c],
    #v[0x44, 0x64, 0x54, 0x4c, 0x44], #v[0x00, 0x08, 0x36, 0x41, 0x00],
    #v[0x00, 0x00, 0x7f, 0x00, 0x00], #v[0x00, 0x41, 0x36, 0x08, 0x00],
    #v[0x10, 0x08, 0x08, 0x10, 0x08], #v[0x00, 0x00, 0x00, 0x00, 0x00]]

def width : ℕ := 84

def height : ℕ := 48

structure Lcd where
  column : ℕ
  line : ℕ
  custom : ℕ → Option Glyph
  lcdBuffer : ℕ → UInt8
  panel : Panel

def sendBit (odd : Odd) (data : UInt8) (p : Panel) (i : ℕ) : Panel :=
  let p :=
    if data.toNat &&& 1 <<< i ≠ 0 then digitalWrite odd p .mosi true
    else digitalWrite odd p .mosi false
  let p := digitalWrite odd p .sck true
  let p := digitalWrite odd p .sck true
  let p := digitalWrite odd p .sck false
  digitalWrite odd p .sck false

def send (odd : Odd) (p : Panel) (data : UInt8) : Panel :=
  [7, 6, 5, 4, 3, 2, 1, 0].foldl (sendBit odd data) p

def sendAll (odd : Odd) (p : Panel) (data : List UInt8) : Panel := data.foldl (send odd) p

def arg (n : ℕ) : UInt8 := UInt8.ofNat n

def sendCmd (odd : Odd) (p : Panel) (data : UInt8) : Panel :=
  let p := digitalWrite odd p .ss false
  let p := digitalWrite odd p .dc false
  let p := send odd p data
  digitalWrite odd p .ss true

def address (odd : Odd) (p : Panel) (column line : ℕ) : Panel :=
  let p := digitalWrite odd p .ss false
  let p := digitalWrite odd p .dc false
  let p := send odd p (arg (0x80 ||| column))
  send odd p (arg (0x40 ||| line))

def writeByte (odd : Odd) (p : Panel) (column line : ℕ) (data : UInt8) : Panel :=
  let p := address odd p (column % width) (line % (height >>> 3))
  let p := digitalWrite odd p .dc true
  let p := send odd p data
  digitalWrite odd p .ss true

def writeBuf (odd : Odd) (p : Panel) (data : ℕ → UInt8) : Panel :=
  let len := width * (height / 8)
  let p := address odd p 0 0
  let p := digitalWrite odd p .dc true
  let p := sendAll odd p ((List.range len).map data)
  digitalWrite odd p .ss true

/-- The parameters have the names of the members, and hide them. -/
def setCursor (odd : Odd) (s : Lcd) (column line : ℕ) : Lcd :=
  let column := column % width
  let line := line % (height / 8)
  let p := address odd s.panel column line
  { s with panel := digitalWrite odd p .ss true }

/-- What clearLine() and clear() have in common: zeros from the left end of a line on, and the
counters back there. -/
def blank (odd : Odd) (p : Panel) (line chars : ℕ) : Panel :=
  let p := address odd p 0 line
  let p := digitalWrite odd p .dc true
  let p := sendAll odd p (List.replicate chars 0x00)
  let p := digitalWrite odd p .dc false
  let p := send odd p 0x80
  let p := send odd p (arg (0x40 ||| line))
  digitalWrite odd p .ss true

def clearLine (odd : Odd) (s : Lcd) : Lcd :=
  { s with column := 0, panel := blank odd s.panel s.line width }

def clear (odd : Odd) (s : Lcd) : Lcd :=
  { s with column := 0, line := 0, panel := blank odd s.panel 0 (width * (height >>> 3)) }

def createChar (s : Lcd) (chr : UInt8) (glyph : Option Glyph) : Lcd :=
  if chr.toNat > 31 then s
  else { s with custom := Function.update s.custom chr.toNat glyph }

def space : Glyph := #v[0x00, 0x00, 0x00, 0x00, 0x00]

def glyphOf (s : Lcd) (chr : UInt8) : Glyph :=
  if chr ≥ 0x20 then charset.getD (chr.toNat - 0x20) space
  else match s.custom chr.toNat with
    | some glyph => glyph
    | none => charset.headD space

def write (odd : Odd) (s : Lcd) (chr : UInt8) : Lcd :=
  if chr ≥ 0x80 then s
  else
    let p := digitalWrite odd s.panel .ss false
    let p := digitalWrite odd p .dc true
    let p := sendAll odd p (glyphOf s chr).toList
    let p := send odd p 0x00
    let p := digitalWrite odd p .ss true
    let column := (s.column + 6) % width
    { s with
      panel := p
      column := column
      line := if column = 0 then (s.line + 1) % (height / 8) else s.line }

/-- write() of a C string, which ends at the first NUL. -/
def writeStr (odd : Odd) (s : Lcd) (str : List UInt8) : Lcd :=
  (str.takeWhile (· ≠ 0)).foldl (write odd) s

def drawRow (odd : Odd) (data : ℕ → UInt8) (columns scolumn sline mx : ℕ) (p : Panel) (y : ℕ) :
    Panel :=
  let p := digitalWrite odd p .dc false
  let p := send odd p (arg (0x80 ||| scolumn))
  let p := send odd p (arg (0x40 ||| (sline + y)))
  let p := digitalWrite odd p .dc true
  sendAll odd p ((List.range mx).map fun x => data (y * columns + x))

def drawBitmap (odd : Odd) (s : Lcd) (data : ℕ → UInt8) (columns lines : UInt8) : Lcd :=
  let columns := columns.toNat
  let lines := lines.toNat
  let scolumn := s.column
  let sline := s.line
  let mx := if scolumn + columns > width then (width + 2^8 - scolumn) % 2^8 else columns
  let my := if sline + lines > height / 8 then (height / 8 + 2^8 - sline) % 2^8 else lines
  let p := digitalWrite odd s.panel .ss false
  let p := (List.range my).foldl (drawRow odd data columns scolumn sline mx) p
  let p := digitalWrite odd p .dc false
  let p := send odd p (arg (0x80 ||| (scolumn + columns)))
  let p := send odd p (arg (0x40 ||| sline))
  { s with
    panel := digitalWrite odd p .ss true
    column := (scolumn + columns) % 2^8
    line := sline }

def setPixel (odd : Odd) (s : Lcd) (x y : UInt8) (value writeIt : Bool) : Lcd :=
  let column := x.toNat % width
  let line := (y.toNat >>> 3) % (height >>> 3)
  let i := column + line * width
  let bit := arg (1 <<< (y.toNat % 8))
  let old := s.lcdBuffer i
  let new := if value then old ||| bit else old &&& ~~~bit
  { s with
    lcdBuffer := Function.update s.lcdBuffer i new
    panel := if writeIt then writeByte odd s.panel column line new else s.panel }

def draw (odd : Odd) (s : Lcd) : Lcd := { s with panel := writeBuf odd s.panel s.lcdBuffer }

def display (odd : Odd) (s : Lcd) : Lcd := { s with panel := sendCmd odd s.panel 0x20 }

def noDisplay (odd : Odd) (s : Lcd) : Lcd := { s with panel := sendCmd odd s.panel 0x24 }

def setPower (odd : Odd) (s : Lcd) (on : Bool) : Lcd :=
  { s with panel := sendCmd odd s.panel (if on then 0x20 else 0x24) }

def setInverse (odd : Odd) (s : Lcd) (inverse : Bool) : Lcd :=
  { s with panel := sendCmd odd s.panel (if inverse then 0x0d else 0x0c) }

def home (odd : Odd) (s : Lcd) : Lcd := setCursor odd s 0 s.line

def stop (odd : Odd) (s : Lcd) : Lcd := noDisplay odd (clear odd s)

/-- The constructor, over memory that it does not set; the lines are low before begin(). -/
def construct (custom : ℕ → Option Glyph) (lcdBuffer : ℕ → UInt8) (chip : Controller) : Lcd :=
  ⟨0, 0, custom, lcdBuffer, ⟨false, false, false, false, [], chip⟩⟩

inductive Model where
  | pcd8544
  | st7576
  deriving DecidableEq, Repr

def activate (odd : Odd) (p : Panel) : Panel :=
  let p := send odd p 0x20
  let p := send odd p 0x09
  let p := digitalWrite odd p .dc true
  let p := sendAll odd p (List.replicate (width * (height >>> 3)) 0x00)
  let p := digitalWrite odd p .dc false
  let p := send odd p 0x08
  let p := send odd p 0x0c
  let p := send odd p 0x80
  let p := send odd p 0x40
  digitalWrite odd p .ss true

def begin (odd : Odd) (s : Lcd) (model : Model) : Lcd :=
  let p := digitalWrite odd s.panel .rst true
  let p := digitalWrite odd p .ss true
  let p := digitalWrite odd p .rst false
  let p := digitalWrite odd p .rst true
  let p := digitalWrite odd p .ss false
  let p := digitalWrite odd p .dc false
  let p := send odd p 0x21
  let p := send odd p 0x13
  let p := match model with
    | .st7576 => send odd (send odd p 0xe0) 0x05
    | .pcd8544 => send odd p 0xc2
  { s with panel := activate odd p }

/-! What the calls of the driver do to the lines and to the controller. -/

structure Idle (p : Panel) (c : Controller) : Prop where
  sck : p.sck = false
  bits : p.bits = []
  chip : p.chip = c

/-- The display listens for a byte that is data or a command as `dc` says. -/
structure Ready (p : Panel) (dc : Bool) (c : Controller) : Prop where
  ss : p.ss = false
  sck : p.sck = false
  bits : p.bits = []
  dc : p.dc = dc
  chip : p.chip = c

variable {odd : Odd} {p : Panel} {c : Controller} {dc level : Bool} {d : UInt8} {n : ℕ}

theorem Idle.listen (odd : Odd) (h : Idle p c) (level : Bool) :
    Ready (digitalWrite odd (digitalWrite odd p .ss false) .dc level) level c :=
  ⟨rfl, h.sck, rfl, rfl, h.chip⟩

theorem Ready.select (odd : Odd) (h : Ready p dc c) (level : Bool) :
    Ready (digitalWrite odd p .dc level) level c :=
  ⟨h.ss, h.sck, h.bits, rfl, h.chip⟩

theorem Ready.release (odd : Odd) (h : Ready p dc c) : Idle (digitalWrite odd p .ss true) c :=
  ⟨h.sck, rfl, h.chip⟩

def bitOf (d : UInt8) (i : ℕ) : Bool := decide (d.toNat &&& 1 <<< i ≠ 0)

theorem byteOf_bits (d : UInt8) :
    byteOf [bitOf d 7, bitOf d 6, bitOf d 5, bitOf d 4, bitOf d 3, bitOf d 2, bitOf d 1,
      bitOf d 0] = d := by
  revert d
  decide +kernel

theorem sendBit_eq (hss : p.ss = false) (hsck : p.sck = false) (i : ℕ) :
    sendBit odd d p i =
      if p.bits.length = 7 then
        { { p with mosi := bitOf d i }.receive odd (byteOf (p.bits ++ [bitOf d i])) with
          sck := false }
      else { p with mosi := bitOf d i, sck := false, bits := p.bits ++ [bitOf d i] } := by
  have hmosi : (if d.toNat &&& 1 <<< i ≠ 0 then digitalWrite odd p .mosi true
      else digitalWrite odd p .mosi false) = { p with mosi := bitOf d i } := by
    by_cases hbit : d.toNat &&& 1 <<< i ≠ 0 <;> simp [digitalWrite, bitOf, hbit]
  simp only [sendBit, hmosi]
  by_cases hlength : p.bits.length = 7 <;>
    simp [digitalWrite, Panel.receive, hss, hsck, hlength]

theorem send_eq (odd : Odd) (h : Ready p dc c) (d : UInt8) : ∃ m, send odd p d =
    ⟨m, false, false, dc, [], if dc then c.data d else c.command odd d⟩ := by
  obtain ⟨mosi, sck, ss, dc', bits, chip⟩ := p
  obtain ⟨rfl, rfl, rfl, rfl, rfl⟩ := h
  refine ⟨bitOf d 0, ?_⟩
  simp [send, sendBit_eq, Panel.receive, byteOf_bits]

theorem Ready.data (odd : Odd) (h : Ready p true c) (d : UInt8) :
    Ready (send odd p d) true (c.data d) := by
  obtain ⟨m, hm⟩ := send_eq odd h d
  rw [hm]
  exact ⟨rfl, rfl, rfl, rfl, rfl⟩

theorem Ready.command (odd : Odd) (h : Ready p false c) (d : UInt8) :
    Ready (send odd p d) false (c.command odd d) := by
  obtain ⟨m, hm⟩ := send_eq odd h d
  rw [hm]
  exact ⟨rfl, rfl, rfl, rfl, rfl⟩

theorem Ready.all (odd : Odd) (h : Ready p true c) (ds : List UInt8) :
    Ready (sendAll odd p ds) true (ds.foldl Controller.data c) := by
  induction ds generalizing p c with
  | nil => exact h
  | cons d ds ih => exact ih (h.data odd d)

end RasPiArduino.NokiaLcd
