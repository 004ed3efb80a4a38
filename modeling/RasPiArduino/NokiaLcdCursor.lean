import RasPiArduino.Machine
import RasPiArduino.NokiaLcd

/-! Whether the members column and line are the address counters of the display, over all
sequences of calls. -/
namespace RasPiArduino.NokiaLcd
open Machine

inductive Op where
  | write (chr : UInt8)
  | writeStr (str : List UInt8)
  | setCursor (column line : UInt8)
  | home
  | clear
  | clearLine
  | drawBitmap (data : ℕ → UInt8) (columns lines : UInt8)
  | setPixel (x y : UInt8) (value writeIt : Bool)
  | draw
  | createChar (chr : UInt8) (glyph : Option Glyph)
  | display
  | noDisplay
  | setPower (on : Bool)
  | setInverse (inverse : Bool)
  | stop

def Op.run (odd : Odd) (s : Lcd) : Op → Lcd
  | .write chr => NokiaLcd.write odd s chr
  | .writeStr str => NokiaLcd.writeStr odd s str
  | .setCursor column line => NokiaLcd.setCursor odd s column.toNat line.toNat
  | .home => NokiaLcd.home odd s
  | .clear => NokiaLcd.clear odd s
  | .clearLine => NokiaLcd.clearLine odd s
  | .drawBitmap data columns lines => NokiaLcd.drawBitmap odd s data columns lines
  | .setPixel x y value writeIt => NokiaLcd.setPixel odd s x y value writeIt
  | .draw => NokiaLcd.draw odd s
  | .createChar chr glyph => NokiaLcd.createChar s chr glyph
  | .display => NokiaLcd.display odd s
  | .noDisplay => NokiaLcd.noDisplay odd s
  | .setPower on => NokiaLcd.setPower odd s on
  | .setInverse inverse => NokiaLcd.setInverse odd s inverse
  | .stop => NokiaLcd.stop odd s

def step (odd : Odd) (s : Lcd) (op : Op) : Option (Unit × Lcd) := some ((), op.run odd s)

/-- The members are the counters. -/
def InStep (s : Lcd) : Prop := s.column = s.panel.chip.x ∧ s.line = s.panel.chip.y

instance (s : Lcd) : Decidable (InStep s) :=
  inferInstanceAs (Decidable (s.column = s.panel.chip.x ∧ s.line = s.panel.chip.y))

def Controller.pos (c : Controller) : ℕ := c.y * 84 + c.x

/-- The chars from this column on end at a glyph, or have passed as many line ends as there are
lines, or none. -/
def Fits (column chars : ℕ) : Prop := column % 6 = 0 ∨ (column + 6 * chars) / 84 % 6 = 0

instance (column chars : ℕ) : Decidable (Fits column chars) :=
  inferInstanceAs (Decidable (column % 6 = 0 ∨ (column + 6 * chars) / 84 % 6 = 0))

def printed (str : List UInt8) : ℕ := ((str.takeWhile (· ≠ 0)).filter (· < 0x80)).length

/-- The members follow the counters in a call. What only moves the counters must bring them back
to where they are: a cursor that is set to itself, a bitmap from the first column, one pixel in
front of the cursor, a display that is drawn with the cursor at its origin. -/
def Follows (s : Lcd) : Op → Prop
  | .write chr => Fits s.column (if chr < 0x80 then 1 else 0)
  | .writeStr str => Fits s.column (printed str)
  | .setCursor column line => column.toNat % 84 = s.column ∧ line.toNat % 6 = s.line
  | .home => s.column = 0
  | .drawBitmap _ columns _ => s.column + columns.toNat < 84 ∨ 256 ≤ s.column + columns.toNat
  | .setPixel x y _ writeIt => writeIt = true →
    (y.toNat / 8 % 6 * 84 + x.toNat % 84 + 1) % 504 = s.line * 84 + s.column
  | .draw => s.column = 0 ∧ s.line = 0
  | .clear | .clearLine | .createChar _ _ | .display | .noDisplay | .setPower _ | .setInverse _
  | .stop => True

instance (s : Lcd) (op : Op) : Decidable (Follows s op) := by
  cases op <;> unfold Follows <;> infer_instance

variable {odd : Odd} {c c' : Controller} {p : Panel} {s : Lcd} {d : UInt8} {n column line : ℕ}

/-! The counters. -/

theorem Controller.pos_lt (c : Controller) : c.pos < 504 := by
  have hx := c.x.isLt
  have hy := c.y.isLt
  rw [Controller.pos]
  omega

theorem Controller.pos_advance (c : Controller) : c.advance.pos = (c.pos + 1) % 504 := by
  have hx := c.x.isLt
  have hy := c.y.isLt
  rw [Controller.advance]
  split
  · next h =>
    have hx : (c.x : ℕ) = 83 := by rw [h]; rfl
    simp only [Controller.pos, Fin.val_zero, Fin.val_add, Fin.val_one, hx]
    omega
  · next h =>
    have hne : (c.x : ℕ) ≠ 83 := fun hx => h (Fin.ext hx)
    simp only [Controller.pos, Fin.val_add, Fin.val_one]
    omega

theorem Controller.extended_advance (c : Controller) : c.advance.extended = c.extended := by
  rw [Controller.advance]
  split <;> rfl

theorem pos_data (ds : List UInt8) (c : Controller) :
    (ds.foldl Controller.data c).pos = (c.pos + ds.length) % 504 ∧
      (ds.foldl Controller.data c).extended = c.extended := by
  induction ds generalizing c with
  | nil => exact ⟨(Nat.mod_eq_of_lt c.pos_lt).symm, rfl⟩
  | cons d ds ih =>
    obtain ⟨hpos, hext⟩ := ih (c.data d)
    have hdata : (c.data d).pos = (c.pos + 1) % 504 := Controller.pos_advance _
    refine ⟨?_, hext.trans (Controller.extended_advance _)⟩
    rw [List.foldl_cons, hpos, hdata, List.length_cons]
    omega

theorem pos_inj (h : c.pos = line * 84 + column) (hcolumn : column < 84) :
    (c.x : ℕ) = column ∧ (c.y : ℕ) = line := by
  have hx := c.x.isLt
  rw [Controller.pos] at h
  omega

/-! The addresses. -/

theorem toNat_arg_x (n : ℕ) : (arg (0x80 ||| n)).toNat = 0x80 + n % 0x80 := by
  have h : ∀ m : Fin 256, 0x80 ||| (m : ℕ) = 0x80 + m % 0x80 := by decide +kernel
  have hor : (0x80 ||| n) % 2^8 = 0x80 ||| n % 2^8 := Nat.or_mod_two_pow
  have hm : 0x80 ||| n % 2^8 = 0x80 + n % 2^8 % 0x80 := h ⟨n % 2^8, Nat.mod_lt n (by decide)⟩
  rw [arg, UInt8.toNat_ofNat', hor, hm]
  omega

theorem toNat_arg_y (hn : n < 6) : (arg (0x40 ||| n)).toNat = 0x40 + n := by
  have h : ∀ m : Fin 6, (arg (0x40 ||| (m : ℕ))).toNat = 0x40 + m := by decide
  exact h ⟨n, hn⟩

theorem command_x (odd : Odd) (h : c.extended = false) (hn : n % 0x80 < 84) :
    c.command odd (arg (0x80 ||| n)) = { c with x := ⟨n % 0x80, hn⟩ } := by
  have hnat := toNat_arg_x n
  have hx : 0x80 ≤ arg (0x80 ||| n) := UInt8.le_iff_toNat_le.mpr (by
    rw [hnat]
    exact Nat.le_add_right _ _)
  simp [Controller.command, h, hx, hnat, hn]

theorem extended_command_x (odd : Odd) (h : c.extended = false) (n : ℕ) :
    (c.command odd (arg (0x80 ||| n))).extended = false := by
  have hx : 0x80 ≤ arg (0x80 ||| n) := UInt8.le_iff_toNat_le.mpr (by
    rw [toNat_arg_x]
    exact Nat.le_add_right _ _)
  rw [Controller.command, if_neg (by simp [h]), if_pos hx]
  split
  · exact h
  · exact h

theorem command_y (odd : Odd) (h : c.extended = false) (hn : n < 6) :
    c.command odd (arg (0x40 ||| n)) = { c with y := ⟨n, hn⟩ } := by
  have hnat := toNat_arg_y hn
  have hlt : ¬ 0x80 ≤ arg (0x40 ||| n) := fun hle => by
    have := UInt8.le_iff_toNat_le.mp hle
    rw [hnat] at this
    have : (0x80 : UInt8).toNat = 0x80 := rfl
    omega
  have hy : 0x40 ≤ arg (0x40 ||| n) := UInt8.le_iff_toNat_le.mpr (by
    rw [hnat]
    exact Nat.le_add_right _ _)
  simp [Controller.command, h, hlt, hy, hnat, hn]

theorem Idle.address (odd : Odd) (h : Idle p c) (hext : c.extended = false) (hx : column < 84)
    (hy : line < 6) : ∃ c', Ready (address odd p column line) false c' ∧
      c'.pos = line * 84 + column ∧ c'.extended = false := by
  have hmod : column % 0x80 = column := Nat.mod_eq_of_lt (by omega)
  have hready := ((h.listen odd false).command odd
    (arg (0x80 ||| column))).command odd (arg (0x40 ||| line))
  rw [command_x odd hext (by omega : column % 0x80 < 84),
    command_y odd (by exact hext) hy] at hready
  refine ⟨_, hready, ?_, hext⟩
  simp only [Controller.pos, hmod]

/-! What the calls do to an idle display. -/

theorem setCursor_idle (odd : Odd) (h : Idle s.panel c) (hext : c.extended = false)
    (column line : ℕ) :
    ∃ c', Idle (setCursor odd s column line).panel c' ∧
      c'.pos = line % 6 * 84 + column % 84 ∧ c'.extended = false := by
  obtain ⟨c', hready, hpos, hext⟩ := h.address odd hext
    (Nat.mod_lt column (by decide : 0 < 84)) (Nat.mod_lt line (by decide : 0 < 6))
  exact ⟨c', hready.release odd, hpos, hext⟩

theorem writeByte_idle (odd : Odd) (h : Idle p c) (hext : c.extended = false) (column line : ℕ)
    (d : UInt8) :
    ∃ c', Idle (writeByte odd p column line d) c' ∧
      c'.pos = (line % 6 * 84 + column % 84 + 1) % 504 ∧ c'.extended = false := by
  obtain ⟨c', hready, hpos, hext⟩ := h.address odd hext
    (Nat.mod_lt column (by decide : 0 < 84)) (Nat.mod_lt line (by decide : 0 < 6))
  obtain ⟨hpos', hext'⟩ := pos_data [d] c'
  refine ⟨c'.data d, ((hready.select odd true).data odd d).release odd, ?_, hext'.trans hext⟩
  rw [← hpos]
  exact hpos'

theorem writeBuf_idle (odd : Odd) (h : Idle p c) (hext : c.extended = false) (data : ℕ → UInt8) :
    ∃ c', Idle (writeBuf odd p data) c' ∧ c'.pos = 0 ∧ c'.extended = false := by
  obtain ⟨c', hready, hpos, hext⟩ := h.address odd hext (by decide : 0 < 84)
    (by decide : 0 < 6)
  obtain ⟨hpos', hext'⟩ := pos_data ((List.range (width * (height / 8))).map data) c'
  refine ⟨_, ((hready.select odd true).all odd _).release odd, ?_, hext'.trans hext⟩
  rw [hpos', hpos, List.length_map, List.length_range]
  rfl

theorem blank_idle (odd : Odd) (h : Idle p c) (hext : c.extended = false) (hline : line < 6)
    (chars : ℕ) :
    ∃ c', Idle (blank odd p line chars) c' ∧ c'.pos = line * 84 ∧ c'.extended = false := by
  obtain ⟨c', hready, hpos, hext⟩ := h.address odd hext (by decide : 0 < 84) hline
  have hext' := (pos_data (List.replicate chars 0x00) c').2.trans hext
  have hsent := (hready.select odd true).all odd (List.replicate chars 0x00)
  have hend := (((hsent.select odd false).command odd 0x80).command odd
    (arg (0x40 ||| line))).release odd
  have hx := command_x odd (n := 0) hext' (by decide)
  have harg : arg (0x80 ||| 0) = 0x80 := rfl
  rw [harg] at hx
  rw [hx, command_y odd (by exact hext') hline] at hend
  exact ⟨_, hend, rfl, hext'⟩

theorem sendCmd_idle (h : Idle p c) {d : UInt8} (hd : c.command odd d = c) :
    Idle (sendCmd odd p d) c := by
  have hend := ((h.listen odd false).command odd d).release odd
  rwa [hd] at hend

theorem write_idle (odd : Odd) (h : Idle s.panel c) (hext : c.extended = false) {chr : UInt8}
    (hchr : chr < 0x80) :
    ∃ c', Idle (write odd s chr).panel c' ∧ c'.pos = (c.pos + 6) % 504 ∧ c'.extended = false := by
  have hnot : ¬ chr ≥ 0x80 := UInt8.not_le.mpr hchr
  obtain ⟨hpos, hext'⟩ := pos_data ((glyphOf s chr).toList ++ [0x00]) c
  have hend := (((h.listen odd true).all odd (glyphOf s chr).toList).data odd 0x00).release odd
  rw [List.foldl_append] at hpos hext'
  refine ⟨_, ?_, hpos.trans ?_, hext'.trans hext⟩
  · rw [write, if_neg hnot]
    exact hend
  · rw [List.length_append, Vector.length_toList]
    rfl

theorem write_members (odd : Odd) (s : Lcd) {chr : UInt8} (hchr : chr < 0x80) :
    (write odd s chr).column = (s.column + 6) % 84 ∧
      (write odd s chr).line = if (s.column + 6) % 84 = 0 then (s.line + 1) % 6 else s.line := by
  rw [write, if_neg (UInt8.not_le.mpr hchr)]
  exact ⟨rfl, rfl⟩

/-- The members after chars: the line is counted only from a column where glyphs end at the line
end. -/
theorem writeEach_idle (odd : Odd) (cs : List UInt8) (h : Idle s.panel c)
    (hext : c.extended = false) (hcolumn : s.column < 84) (hline : s.line < 6) :
    ∃ c', Idle (cs.foldl (write odd) s).panel c' ∧
      c'.pos = (c.pos + 6 * (cs.filter (· < 0x80)).length) % 504 ∧ c'.extended = false ∧
      (cs.foldl (write odd) s).column = (s.column + 6 * (cs.filter (· < 0x80)).length) % 84 ∧
      (cs.foldl (write odd) s).line =
        if s.column % 6 = 0 then (s.line + (s.column + 6 * (cs.filter (· < 0x80)).length) / 84) % 6
        else s.line := by
  induction cs generalizing s c with
  | nil =>
    have hpos := c.pos_lt
    refine ⟨c, h, ?_, hext, ?_, ?_⟩
    · simp [Nat.mod_eq_of_lt hpos]
    · simp [Nat.mod_eq_of_lt hcolumn]
    · simp [Nat.div_eq_of_lt hcolumn, Nat.mod_eq_of_lt hline]
  | cons chr cs ih =>
    by_cases hchr : chr < 0x80
    · obtain ⟨c₁, h₁, hpos₁, hext₁⟩ := write_idle odd h hext hchr
      obtain ⟨hcolumn₁, hline₁⟩ := write_members odd s hchr
      obtain ⟨c', h', hpos', hext', hcolumn', hline'⟩ := ih h₁ hext₁
        (by rw [hcolumn₁]; exact Nat.mod_lt _ (by decide))
        (by rw [hline₁]; split <;> omega)
      have hlength : ((chr :: cs).filter (· < 0x80)).length =
          (cs.filter (· < 0x80)).length + 1 := by
        rw [List.filter_cons_of_pos (by simpa using hchr), List.length_cons]
      generalize (cs.filter (· < 0x80)).length = k at *
      refine ⟨c', h', ?_, hext', ?_, ?_⟩
      · rw [hlength, hpos', hpos₁]
        omega
      · rw [hlength, List.foldl_cons, hcolumn', hcolumn₁]
        omega
      · rw [hlength, List.foldl_cons, hline', hcolumn₁, hline₁]
        split_ifs <;> omega
    · have hsame : write odd s chr = s := if_pos (UInt8.not_lt.mp hchr)
      rw [List.foldl_cons, hsame, List.filter_cons_of_neg (by simpa using hchr)]
      exact ih h hext hcolumn hline

theorem drawRow_ready (odd : Odd) (data : ℕ → UInt8) (columns mx : ℕ) {dc : Bool} {y : ℕ}
    (h : Ready p dc c) (hext : c.extended = false) (hx : column < 84) (hy : line + y < 6) :
    ∃ c', Ready (drawRow odd data columns column line mx p y) true c' ∧ c'.extended = false := by
  have hready := ((h.select odd false).command odd (arg (0x80 ||| column))).command odd
    (arg (0x40 ||| (line + y)))
  rw [command_x odd hext (by omega : column % 0x80 < 84), command_y odd (by exact hext) hy]
    at hready
  have hrow :=
    (hready.select odd true).all odd ((List.range mx).map fun x => data (y * columns + x))
  exact ⟨_, hrow, (pos_data _ _).2.trans hext⟩

theorem drawRows_ready (odd : Odd) (data : ℕ → UInt8) (columns mx : ℕ) {dc : Bool}
    (ys : List ℕ) (h : Ready p dc c) (hext : c.extended = false) (hx : column < 84)
    (hy : ∀ y ∈ ys, line + y < 6) :
    ∃ dc c', Ready (ys.foldl (drawRow odd data columns column line mx) p) dc c' ∧
      c'.extended = false := by
  induction ys generalizing p c dc with
  | nil => exact ⟨dc, c, h, hext⟩
  | cons y ys ih =>
    obtain ⟨hy, hys⟩ := List.forall_mem_cons.mp hy
    obtain ⟨c', h', hext'⟩ := drawRow_ready odd data columns mx h hext hx hy
    exact ih h' hext' hys

theorem drawBitmap_idle (odd : Odd) (data : ℕ → UInt8) (columns lines : UInt8)
    (h : Idle s.panel c) (hext : c.extended = false) (hcolumn : s.column < 84)
    (hline : s.line < 6) :
    ∃ c', Idle (drawBitmap odd s data columns lines).panel c' ∧ c'.extended = false ∧
      (c'.y : ℕ) = s.line ∧ ((s.column + columns.toNat) % 0x80 < 84 →
        (c'.x : ℕ) = (s.column + columns.toNat) % 0x80) := by
  have hlisten : Ready (digitalWrite odd s.panel .ss false) s.panel.dc c :=
    ⟨rfl, h.sck, rfl, rfl, h.chip⟩
  have hrows : ∀ y ∈ List.range (if s.line + lines.toNat > height / 8 then
      (height / 8 + 2^8 - s.line) % 2^8 else lines.toNat), s.line + y < 6 := by
    intro y hy
    have hheight : height / 8 = 6 := rfl
    rw [List.mem_range, hheight] at hy
    split at hy <;> omega
  obtain ⟨dc, c', hready, hext'⟩ := drawRows_ready odd data columns.toNat
    (if s.column + columns.toNat > width then (width + 2^8 - s.column) % 2^8 else columns.toNat)
    _ hlisten hext hcolumn hrows
  have hext'' := extended_command_x odd hext' (s.column + columns.toNat)
  have hend := (((hready.select odd false).command odd
    (arg (0x80 ||| (s.column + columns.toNat)))).command odd (arg (0x40 ||| s.line))).release odd
  rw [command_y odd hext'' hline] at hend
  refine ⟨_, hend, hext'', rfl, fun hx => ?_⟩
  rw [command_x odd hext' hx]

/-! The calls. -/

structure Sound (s : Lcd) : Prop where
  idle : Idle s.panel s.panel.chip
  plain : s.panel.chip.extended = false

theorem Sound.of_idle (h : Idle s.panel c) (hext : c.extended = false) : Sound s := by
  obtain ⟨hsck, hbits, rfl⟩ := h
  exact ⟨⟨hsck, hbits, rfl⟩, hext⟩

theorem inStep_iff_pos (h : Idle s.panel c) (hcolumn : s.column < 84) :
    InStep s ↔ c.pos = s.line * 84 + s.column := by
  obtain ⟨-, -, rfl⟩ := h
  constructor
  · rintro ⟨hx, hy⟩
    rw [hx, hy]
    rfl
  · intro hpos
    obtain ⟨hx, hy⟩ := pos_inj hpos hcolumn
    exact ⟨hx.symm, hy.symm⟩

theorem InStep.column_lt (h : InStep s) : s.column < 84 := h.1 ▸ s.panel.chip.x.isLt

theorem InStep.line_lt (h : InStep s) : s.line < 6 := h.2 ▸ s.panel.chip.y.isLt

theorem InStep.pos (h : InStep s) : s.panel.chip.pos = s.line * 84 + s.column := by
  rw [h.1, h.2]
  rfl

theorem writeEach_follows (odd : Odd) (cs : List UInt8) (h : Sound s) (hs : InStep s) :
    Sound (cs.foldl (write odd) s) ∧
      (InStep (cs.foldl (write odd) s) ↔ Fits s.column (cs.filter (· < 0x80)).length) := by
  have hc := hs.column_lt
  have hl := hs.line_lt
  obtain ⟨c', h', hpos, hext, hcolumn, hline⟩ := writeEach_idle odd cs h.idle h.plain hc hl
  refine ⟨.of_idle h' hext, ?_⟩
  rw [inStep_iff_pos h' (by omega), hpos, hs.pos, hcolumn, hline, Fits]
  generalize (cs.filter (· < 0x80)).length = k
  split <;> omega

theorem setCursor_follows (odd : Odd) (h : Sound s) (hs : InStep s) (column line : ℕ) :
    Sound (setCursor odd s column line) ∧
      (InStep (setCursor odd s column line) ↔ column % 84 = s.column ∧ line % 6 = s.line) := by
  have hc := hs.column_lt
  have hl := hs.line_lt
  obtain ⟨c', h', hpos, hext⟩ := setCursor_idle odd h.idle h.plain column line
  have hmembers : (setCursor odd s column line).column = s.column ∧
    (setCursor odd s column line).line = s.line := ⟨rfl, rfl⟩
  refine ⟨.of_idle h' hext, ?_⟩
  rw [inStep_iff_pos h' (by omega), hpos, hmembers.1, hmembers.2]
  omega

theorem drawBitmap_follows (odd : Odd) (data : ℕ → UInt8) (columns lines : UInt8) (h : Sound s)
    (hs : InStep s) : Sound (drawBitmap odd s data columns lines) ∧
      (InStep (drawBitmap odd s data columns lines) ↔
        s.column + columns.toNat < 84 ∨ 256 ≤ s.column + columns.toNat) := by
  have hc := hs.column_lt
  have hcolumns : columns.toNat < 256 := columns.toNat_lt
  obtain ⟨c', h', hext, hy, hx⟩ := drawBitmap_idle odd data columns lines h.idle h.plain
    hc hs.line_lt
  have hmembers : (drawBitmap odd s data columns lines).column =
    (s.column + columns.toNat) % 2^8 ∧ (drawBitmap odd s data columns lines).line = s.line :=
    ⟨rfl, rfl⟩
  have hlt := c'.x.isLt
  refine ⟨.of_idle h' hext, ?_⟩
  rw [InStep, h'.chip, hmembers.1, hmembers.2, hy]
  omega

theorem blank_follows (odd : Odd) {t : Lcd} {chars : ℕ} (h : Sound s) (hline : t.line < 6)
    (hcolumn : t.column = 0) (hpanel : t.panel = blank odd s.panel t.line chars) :
    Sound t ∧ InStep t := by
  obtain ⟨c', h', hpos, hext⟩ := blank_idle odd h.idle h.plain hline chars
  rw [← hpanel] at h'
  refine ⟨.of_idle h' hext, (inStep_iff_pos h' (by omega)).mpr ?_⟩
  rw [hpos, hcolumn, Nat.add_zero]

theorem setPixel_follows (odd : Odd) (x y : UInt8) (value writeIt : Bool) (h : Sound s)
    (hs : InStep s) : Sound (setPixel odd s x y value writeIt) ∧
      (InStep (setPixel odd s x y value writeIt) ↔ Follows s (.setPixel x y value writeIt)) := by
  cases writeIt with
  | false => exact ⟨⟨h.idle, h.plain⟩, iff_of_true hs nofun⟩
  | true =>
    have hc := hs.column_lt
    have hl := hs.line_lt
    have hline : (y.toNat >>> 3) % (height >>> 3) = y.toNat / 8 % 6 := by
      rw [Nat.shiftRight_eq_div_pow]
      rfl
    have hidle : ∀ d, ∃ c', Idle (writeByte odd s.panel (x.toNat % width)
        ((y.toNat >>> 3) % (height >>> 3)) d) c' ∧
        c'.pos = (y.toNat / 8 % 6 * 84 + x.toNat % 84 + 1) % 504 ∧ c'.extended = false := by
      intro d
      obtain ⟨c', h', hpos, hext⟩ := writeByte_idle odd h.idle h.plain
        (x.toNat % width) ((y.toNat >>> 3) % (height >>> 3)) d
      rw [hline, Nat.mod_mod, width, Nat.mod_mod] at hpos
      exact ⟨c', h', hpos, hext⟩
    obtain ⟨c', h', hpos, hext⟩ : ∃ c', Idle (setPixel odd s x y value true).panel c' ∧ _ := hidle _
    have hmembers : (setPixel odd s x y value true).column = s.column ∧
      (setPixel odd s x y value true).line = s.line := ⟨rfl, rfl⟩
    refine ⟨.of_idle h' hext, ?_⟩
    rw [inStep_iff_pos h' hc, hpos, hmembers.1, hmembers.2, Follows]
    exact ⟨fun h _ => h, fun h => h rfl⟩

theorem draw_follows (odd : Odd) (h : Sound s) (hs : InStep s) :
    Sound (draw odd s) ∧ (InStep (draw odd s) ↔ s.column = 0 ∧ s.line = 0) := by
  obtain ⟨c', h', hpos, hext⟩ := writeBuf_idle odd h.idle h.plain s.lcdBuffer
  have hpanel : writeBuf odd s.panel s.lcdBuffer = (draw odd s).panel := by rw [draw]
  have hcolumn : (draw odd s).column = s.column := by rw [draw]
  have hline : (draw odd s).line = s.line := by rw [draw]
  rw [hpanel] at h'
  refine ⟨.of_idle h' hext, ?_⟩
  rw [inStep_iff_pos h' (hcolumn.trans_lt hs.column_lt), hpos, hcolumn, hline]
  omega

theorem sendCmd_follows (odd : Odd) {t : Lcd} {d : UInt8} (h : Sound s) (hs : InStep s)
    (hd : s.panel.chip.command odd d = s.panel.chip) (hcolumn : t.column = s.column)
    (hline : t.line = s.line) (hpanel : t.panel = sendCmd odd s.panel d) : Sound t ∧ InStep t := by
  have hidle := sendCmd_idle h.idle hd
  rw [← hpanel] at hidle
  refine ⟨.of_idle hidle h.plain, ?_⟩
  rw [InStep, hidle.chip, hcolumn, hline]
  exact hs

theorem command_low (odd : Odd) (c : Controller) (hd : d < 0x20) : c.command odd d = c := by
  have hlt : d.toNat < 0x20 := UInt8.lt_iff_toNat_lt.mp hd
  have hnot (k : UInt8) (hk : 0x20 ≤ k.toNat) : ¬ k ≤ d := fun h => by
    have := UInt8.le_iff_toNat_le.mp h
    omega
  rw [Controller.command, if_neg (fun h => hnot 0x40 (by decide) h.1),
    if_neg (hnot 0x80 (by decide)), if_neg (hnot 0x40 (by decide)),
    if_neg (fun h => hnot 0x20 (by decide) h.1)]

theorem command_power (odd : Odd) (h : c.extended = false) (on : Bool) :
    c.command odd (if on then 0x20 else 0x24) = c := by
  obtain ⟨x, y, extended, ram⟩ := c
  obtain rfl : extended = false := h
  cases on <;> rfl

theorem command_inverse (odd : Odd) (c : Controller) (inverse : Bool) :
    c.command odd (if inverse then 0x0d else 0x0c) = c := by
  cases inverse <;> exact command_low odd c (by decide)

theorem createChar_follows (chr : UInt8) (glyph : Option Glyph) (h : Sound s) (hs : InStep s) :
    Sound (createChar s chr glyph) ∧ InStep (createChar s chr glyph) := by
  rw [createChar]
  split
  · exact ⟨h, hs⟩
  · exact ⟨⟨h.idle, h.plain⟩, hs⟩

theorem follows_always {t : Lcd} {op : Op} (h : Sound t ∧ InStep t) (hop : Follows s op) :
    Sound t ∧ (InStep t ↔ Follows s op) := ⟨h.1, iff_of_true h.2 hop⟩

/-- After a call the members are the counters exactly when it meets the condition. -/
theorem run_follows (odd : Odd) (op : Op) (h : Sound s) (hs : InStep s) :
    Sound (op.run odd s) ∧ (InStep (op.run odd s) ↔ Follows s op) := by
  have hl := hs.line_lt
  have hpower := command_power odd h.plain
  cases op with
  | write chr =>
    obtain ⟨hsound, hiff⟩ := writeEach_follows odd [chr] h hs
    refine ⟨hsound, hiff.trans ?_⟩
    by_cases hchr : chr < 0x80 <;> simp [Follows, hchr]
  | writeStr str => exact writeEach_follows odd (str.takeWhile (· ≠ 0)) h hs
  | setCursor column line => exact setCursor_follows odd h hs column.toNat line.toNat
  | home =>
    obtain ⟨hsound, hiff⟩ := setCursor_follows odd h hs 0 s.line
    refine ⟨hsound, hiff.trans ?_⟩
    rw [Follows]
    omega
  | clear =>
    exact follows_always (blank_follows odd (t := clear odd s) h (by decide : 0 < 6) rfl rfl)
      trivial
  | clearLine =>
    exact follows_always (blank_follows odd (t := clearLine odd s) h hl rfl rfl) trivial
  | drawBitmap data columns lines => exact drawBitmap_follows odd data columns lines h hs
  | setPixel x y value writeIt => exact setPixel_follows odd x y value writeIt h hs
  | draw => exact draw_follows odd h hs
  | createChar chr glyph => exact follows_always (createChar_follows chr glyph h hs) trivial
  | display =>
    exact follows_always (sendCmd_follows odd (t := display odd s) h hs (hpower true) rfl rfl rfl)
      trivial
  | noDisplay =>
    exact follows_always
      (sendCmd_follows odd (t := noDisplay odd s) h hs (hpower false) rfl rfl rfl) trivial
  | setPower on =>
    exact follows_always (sendCmd_follows odd (t := setPower odd s on) h hs (hpower on) rfl rfl rfl)
      trivial
  | setInverse inverse =>
    exact follows_always (sendCmd_follows odd (t := setInverse odd s inverse) h hs
      (command_inverse odd _ inverse) rfl rfl rfl) trivial
  | stop =>
    obtain ⟨hclear, hs'⟩ := blank_follows odd (t := clear odd s) h (by decide : 0 < 6) rfl rfl
    exact follows_always (sendCmd_follows odd (t := stop odd s) hclear hs'
      (command_power odd hclear.plain false) rfl rfl rfl) trivial

/-! From begin() on. -/

theorem activate_idle (odd : Odd) (h : Ready p false c) :
    ∃ c', Idle (activate odd p) c' ∧ c'.pos = 0 ∧ c'.extended = false := by
  have hbasic : ((c.command odd 0x20).command odd 0x09).extended = false := by
    have hbit : (0x20 : UInt8) &&& 1 = 0 := rfl
    simp [Controller.command, hbit]
  have hzeros := (((h.command odd 0x20).command odd 0x09).select odd true).all odd
    (List.replicate (width * (height >>> 3)) 0x00)
  have hext := (pos_data (List.replicate (width * (height >>> 3)) 0x00)
    ((c.command odd 0x20).command odd 0x09)).2.trans hbasic
  generalize List.foldl _ _ _ = c' at hzeros hext
  have hend := (((((hzeros.select odd false).command odd 0x08).command odd 0x0c).command odd
    (arg (0x80 ||| 0))).command odd (arg (0x40 ||| 0))).release odd
  rw [command_low odd c' (by decide), command_low odd c' (by decide),
    command_x odd hext (by decide), command_y odd (by exact hext) (by decide)] at hend
  exact ⟨_, hend, rfl, hext⟩

theorem begin_sound (odd : Odd) (custom : ℕ → Option Glyph) (lcdBuffer : ℕ → UInt8)
    (chip : Controller) (model : Model) :
    Sound (begin odd (construct custom lcdBuffer chip) model) ∧
      InStep (begin odd (construct custom lcdBuffer chip) model) := by
  have hreset : Ready (digitalWrite odd (digitalWrite odd (digitalWrite odd (digitalWrite odd
      (digitalWrite odd (digitalWrite odd (construct custom lcdBuffer chip).panel .rst true) .ss
      true) .rst false) .rst true) .ss false) .dc false) false
      { chip with x := 0, y := 0, extended := false } := ⟨rfl, rfl, rfl, rfl, rfl⟩
  have hsetup := (hreset.command odd 0x21).command odd 0x13
  obtain ⟨c', h', hpos, hext⟩ : ∃ c', Idle (begin odd (construct custom lcdBuffer chip) model).panel
      c' ∧ c'.pos = 0 ∧ c'.extended = false := by
    cases model with
    | pcd8544 => exact activate_idle odd (hsetup.command odd 0xc2)
    | st7576 => exact activate_idle odd ((hsetup.command odd 0xe0).command odd 0x05)
  exact ⟨.of_idle h' hext, (inStep_iff_pos h' (by decide : 0 < 84)).mpr hpos⟩

/-- Over a run the members are the counters after each call exactly when every call meets its
condition. -/
theorem keeps_inStep_iff (odd : Odd) (custom : ℕ → Option Glyph) (lcdBuffer : ℕ → UInt8)
    (chip : Controller) (model : Model) (ops : List Op) :
    Keeps (step odd) (fun _ _ _ t => InStep t) ops
        (begin odd (construct custom lcdBuffer chip) model) ↔
      While (step odd) Follows ops (begin odd (construct custom lcdBuffer chip) model) := by
  refine keeps_iff_while (I := fun s => Sound s ∧ InStep s) ?_ ?_ ops
    (begin_sound odd custom lcdBuffer chip model)
  · intro s op hs
    rw [← (run_follows odd op hs.1 hs.2).2]
    simp [step]
  · intro s op r t hs hfollows hstep
    obtain rfl : op.run odd s = t := by simpa [step] using hstep
    obtain ⟨hsound, hiff⟩ := run_follows odd op hs.1 hs.2
    exact ⟨hsound, hiff.mpr hfollows⟩

/-- The first setCursor() moves the counters and not the members. -/
theorem setCursor_out_of_step : ¬ ∀ odd custom lcdBuffer chip model ops,
    Keeps (step odd) (fun _ _ _ t => InStep t) ops
      (begin odd (construct custom lcdBuffer chip) model) := by
  intro h
  have hkeeps := h (fun _ _ => (0, 0)) (fun _ => none) (fun _ => 0) ⟨0, 0, false, fun _ _ => 0⟩
    .pcd8544 [.setCursor 10 2]
  obtain ⟨hsound, hstep⟩ := begin_sound (fun _ _ => (0, 0)) (fun _ => none) (fun _ => 0)
    ⟨0, 0, false, fun _ _ => 0⟩ .pcd8544
  obtain ⟨_, t, ht, hafter, -⟩ := keeps_cons.mp hkeeps
  obtain rfl := congrArg Prod.snd (Option.some.inj ht)
  obtain ⟨hcolumn, -⟩ := (run_follows _ (.setCursor 10 2) hsound hstep).2.mp hafter
  exact absurd hcolumn (by decide)

end RasPiArduino.NokiaLcd
