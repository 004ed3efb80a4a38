import Mathlib

/-! FileIO.cpp: the File class of the Bridge library over the stdio of the C library. A long has 32
bits, and files and positions are kept within it. -/
namespace RasPiArduino.BridgeFile

/-- An open regular file. The mode FILE_APPEND does not let it be read; `room` is how many bytes
more it can be given, none in the mode FILE_READ. -/
structure OpenFile where
  contents : List UInt8
  pos : Nat
  readable : Bool
  append : Bool
  room : Nat
  fits_contents : contents.length < 2^31
  fits_pos : pos < 2^31

/-- `_file`, which is null without an open file. -/
abbrev File := Option OpenFile

/-! The C library. -/

def getc (f : OpenFile) : Int × OpenFile :=
  if h : f.readable ∧ f.pos < f.contents.length then
    (f.contents[f.pos].toNat, { f with
      pos := f.pos + 1
      fits_pos := by
        have := f.fits_contents
        have := h.2
        omega })
  else (-1, f)

def ftell (f : OpenFile) : Nat := f.pos

def origin (f : OpenFile) : Nat → Option Nat
  | 0 => some 0
  | 1 => some f.pos
  | 2 => some f.contents.length
  | _ => none

def fseek (f : OpenFile) (offset whence : Nat) : Bool × OpenFile :=
  match origin f whence with
  | none => (false, f)
  | some base =>
    if h : base + offset < 2^31 then (true, { f with pos := base + offset, fits_pos := h })
    else (false, f)

def OpenFile.left (f : OpenFile) : List UInt8 := f.contents.drop f.pos

def OpenFile.readableLeft (f : OpenFile) : List UInt8 := if f.readable then f.left else []

theorem OpenFile.length_readableLeft_le (f : OpenFile) :
    f.readableLeft.length ≤ f.contents.length - f.pos := by
  rw [OpenFile.readableLeft]
  split
  · rw [OpenFile.left, List.length_drop]
  · exact Nat.zero_le _

def fread (f : OpenFile) (size nmemb : Nat) : List UInt8 × Nat × OpenFile :=
  let placed := f.readableLeft.take (size * nmemb)
  (placed, placed.length / size, { f with
    pos := f.pos + placed.length
    fits_pos := by
      have hplaced : placed.length ≤ f.contents.length - f.pos :=
        (List.length_take_le' _ _).trans f.length_readableLeft_le
      have := f.fits_contents
      have := f.fits_pos
      omega })

def OpenFile.begins (f : OpenFile) : Nat := if f.append then f.contents.length else f.pos

/-- How many bytes a write can be rid of. -/
def OpenFile.accepts (f : OpenFile) : Nat := min f.room (2^31 - 1 - f.begins)

theorem OpenFile.begins_add_lt {f : OpenFile} {data : List UInt8} (h : data.length ≤ f.accepts)
    (hdata : data ≠ []) : f.begins + data.length < 2^31 := by
  have hpos := List.length_pos_iff.mpr hdata
  rw [OpenFile.accepts] at h
  omega

/-- The file with these bytes from its place of writing on, and with zeros in a gap before it. -/
def OpenFile.put (f : OpenFile) (data : List UInt8) (h : data.length ≤ f.accepts) : OpenFile :=
  if hdata : data = [] then f
  else
    { f with
      contents := f.contents.take f.begins ++
        List.replicate (f.begins - f.contents.length) 0 ++ data ++
        f.contents.drop (f.begins + data.length)
      pos := f.begins + data.length
      room := f.room - data.length
      fits_contents := by
        have hlt := OpenFile.begins_add_lt h hdata
        have hfits := f.fits_contents
        simp only [List.length_append, List.length_take, List.length_replicate, List.length_drop]
        omega
      fits_pos := OpenFile.begins_add_lt h hdata }

def fwrite (f : OpenFile) (buf : List UInt8) (size nmemb : Nat) : Nat × OpenFile :=
  let data := (buf.take (size * nmemb)).take f.accepts
  (data.length / size, f.put data (List.length_take_le _ _))

/-! The class. -/

def read (f : File) : Int × File :=
  match f with
  | none => (-1, none)
  | some f => ((getc f).1, some (getc f).2)

def position (f : File) : Nat :=
  match f with
  | none => 0
  | some f => ftell f

def peek (f : File) : Int × File :=
  match f with
  | none => (-1, none)
  | some f =>
    let pos := position (some f)
    let (c, f) := getc f
    if c ≥ 0 then (c, some (fseek f pos (ftell f)).2) else (c, some f)

def seek (f : File) (position : Nat) : Bool × File :=
  match f with
  | none => (false, none)
  | some f => ((fseek f position 0).1, some (fseek f position 0).2)

def readBlock (f : File) (nbyte : Nat) : List UInt8 × Int × File :=
  match f with
  | none => ([], -1, none)
  | some f =>
    let (buf, n, f) := fread f nbyte 1
    (buf, n, some f)

def writeBlock (f : File) (buf : List UInt8) : Nat × File :=
  match f with
  | none => (0, none)
  | some f => ((fwrite f buf buf.length 1).1, some (fwrite f buf buf.length 1).2)

def write (f : File) (c : UInt8) : Nat × File := writeBlock f [c]

def print (f : File) (text : List UInt8) : Nat × File := writeBlock f text

variable {f : OpenFile} {n : Nat}

/-! Positions. -/

theorem getc_left (hread : f.readable) (h : f.pos < f.contents.length) :
    (getc f).1 = f.contents[f.pos].toNat ∧ (getc f).2.pos = f.pos + 1 ∧
      (getc f).2.contents = f.contents := by
  rw [getc, dif_pos ⟨hread, h⟩]
  exact ⟨rfl, rfl, rfl⟩

theorem getc_end (h : f.contents.length ≤ f.pos ∨ f.readable = false) : getc f = (-1, f) := by
  rw [getc, dif_neg]
  rintro ⟨hread, hlt⟩
  obtain hend | hno := h
  · omega
  · exact absurd (hread.symm.trans hno) (by decide)

theorem position_seek {position : Nat} (h : position < 2^31) :
    (seek (some f) position).1 = true ∧
      BridgeFile.position (seek (some f) position).2 = position := by
  have horigin : origin f 0 = some 0 := rfl
  simp only [seek, fseek, horigin, Nat.zero_add, dif_pos h]
  exact ⟨trivial, rfl⟩

/-- A seek that has the new position for its whence does nothing from the beginning, goes behind
the end from the second byte, and fails from anywhere else. -/
theorem pos_fseek_back {pos : Nat} (hpos : f.pos = pos + 1) :
    (fseek f pos (pos + 1)).2.pos =
      if pos = 1 ∧ f.contents.length + 1 < 2^31 then f.contents.length + 1 else pos + 1 := by
  match pos with
  | 0 =>
    have horigin : origin f 1 = some f.pos := rfl
    have hfits : f.pos + 0 < 2^31 := f.fits_pos
    rw [if_neg fun h => absurd h.1 (by decide)]
    simp only [fseek, Nat.zero_add, horigin, dif_pos hfits]
    omega
  | 1 =>
    have horigin : origin f 2 = some f.contents.length := rfl
    simp only [fseek, Nat.reduceAdd, horigin, true_and]
    split
    · rfl
    · exact hpos
  | pos + 2 =>
    have horigin : origin f (pos + 2 + 1) = none := rfl
    rw [if_neg fun h => absurd h.1 (by omega)]
    simp only [fseek, horigin, hpos]

theorem position_peek (hread : f.readable) (h : f.pos < f.contents.length) :
    position (peek (some f)).2 = if f.pos = 1 ∧ f.contents.length + 1 < 2^31 then
      f.contents.length + 1 else f.pos + 1 := by
  obtain ⟨hc, hpos, hcontents⟩ := getc_left hread h
  have hbyte : (getc f).1 ≥ 0 := by
    rw [hc]
    exact Int.natCast_nonneg _
  rw [← hcontents, ← pos_fseek_back hpos]
  simp only [peek, if_pos hbyte, position, ftell, hpos]

/-- Each of any number of looks ahead tells what the next read gives, and leaves the position as it
was. -/
def Steady (f : File) : Prop := ∀ n,
  (peek ((fun f => (peek f).2)^[n] f)).1 = (read (peek ((fun f => (peek f).2)^[n] f)).2).1 ∧
    position (peek ((fun f => (peek f).2)^[n] f)).2 = position f

/-- A look ahead does no harm exactly where there is nothing that can be read. -/
theorem steady_iff (f : OpenFile) :
    Steady (some f) ↔ f.contents.length ≤ f.pos ∨ f.readable = false := by
  constructor
  · intro h
    by_contra hno
    rw [not_or, Nat.not_le, Bool.not_eq_false] at hno
    have hposition := (h 0).2
    rw [Function.iterate_zero, id, position_peek hno.2 hno.1] at hposition
    have hpos : position (some f) = f.pos := rfl
    rw [hpos] at hposition
    split at hposition
    · omega
    · omega
  · intro h n
    have hpeek : peek (some f) = (-1, some f) := by
      simp [peek, getc_end h]
    have hsame : (fun f => (peek f).2)^[n] (some f) = some f :=
      Function.iterate_fixed (by rw [hpeek]) n
    rw [hsame, hpeek, read, getc_end h]
    exact ⟨rfl, rfl⟩

/-- A look at the first byte is as good as a read. -/
theorem peek_moves : ¬ ∀ f, Steady (some f) := by
  intro h
  have hposition := (h ⟨[65, 66], 0, true, false, 0, by decide, by decide⟩ 0).2
  revert hposition
  decide

end RasPiArduino.BridgeFile
