import RasPiArduino.SdVolume

/-! Files on a FAT volume: reading, writing, seeking, truncating and bringing the directory entry
up to date. -/
namespace RasPiArduino.Sd
open LittleEndian

inductive FileType where
  | closed
  | normal
  | root16
  | root32
  | subdir
  deriving DecidableEq

/-- The bits of `flags_` are fields of their own. -/
structure SdFile where
  type : FileType
  forRead : Bool
  forWrite : Bool
  append : Bool
  syncAlways : Bool
  unbufferedRead : Bool
  dirDirty : Bool
  curCluster : Nat
  curPosition : Nat
  dirBlock : Nat
  dirIndex : Nat
  fileSize : Nat
  firstCluster : Nat
  writeError : Bool

def SdFile.isOpen (f : SdFile) : Bool := f.type ≠ .closed

def SdFile.isFile (f : SdFile) : Bool := f.type = .normal

def SdFile.isDir (f : SdFile) : Bool := f.type ≠ .closed ∧ f.type ≠ .normal

structure Handle where
  file : SdFile
  volume : State

abbrev FileAttempt := EStateM Stop Handle

def onVolume {α : Type} (m : Attempt α) : FileAttempt α := fun h =>
  match m h.volume with
  | .ok a v => .ok a { h with volume := v }
  | .error e v => .error e { h with volume := v }

def onFile (g : SdFile → SdFile) : FileAttempt Unit := modify fun h => { h with file := g h.file }

def getFile : FileAttempt SdFile := do return (← get).file

/-- A write error is noted before the function fails. -/
def noteError {α : Type} (m : FileAttempt α) : FileAttempt α :=
  tryCatch m fun e => do
    onFile fun f => { f with writeError := true }
    throw e

def int16 (n : Nat) : Int := if n % 2^16 < 2^15 then n % 2^16 else (n % 2^16 : Nat) - 2^16

section
variable (vol : SdVolume)

def blockToRead : FileAttempt Nat := do
  let f ← getFile
  if f.type = .root16 then return vol.rootDirStart + f.curPosition / 512
  let blockOfCluster := vol.blockOfCluster f.curPosition
  if f.curPosition % 512 = 0 ∧ blockOfCluster = 0 then
    -- start of a new cluster
    if f.curPosition = 0 then onFile fun f => { f with curCluster := f.firstCluster }
    else
      let next ← onVolume (fatGet vol f.curCluster)
      onFile fun f => { f with curCluster := next }
  let f ← getFile
  return vol.clusterStartBlock f.curCluster + blockOfCluster

def readLoop : Nat → Nat → FileAttempt (List UInt8)
  | 0, _ => return []
  | fuel + 1, toRead => do
    if toRead = 0 then return []
    let f ← getFile
    let offset := f.curPosition % 512
    let block ← blockToRead vol
    let n := min toRead (512 - offset)
    let xs ← onVolume (readPart block offset n f.unbufferedRead)
    onFile fun f => { f with curPosition := (f.curPosition + n) % 2^32 }
    let ys ← readLoop fuel (toRead - n)
    return xs ++ ys

/-- What is returned and the bytes that are read. A failure returns -1. -/
def read (nbyte : Nat) : FileAttempt (Int × List UInt8) := do
  let f ← getFile
  if ¬ f.isOpen ∨ ¬ f.forRead then throw .failed
  let left := (f.fileSize + 2^32 - f.curPosition) % 2^32
  let nbyte := min nbyte left
  let xs ← readLoop vol nbyte nbyte
  return (int16 nbyte, xs)

def follow : Nat → FileAttempt Unit
  | 0 => return
  | n + 1 => do
    let f ← getFile
    let next ← onVolume (fatGet vol f.curCluster)
    onFile fun f => { f with curCluster := next }
    follow n

def seekSet (pos : Nat) : FileAttempt Unit := do
  let f ← getFile
  if ¬ f.isOpen ∨ pos > f.fileSize then throw .failed
  if f.type = .root16 then onFile fun f => { f with curPosition := pos }
  else if pos = 0 then onFile fun f => { f with curCluster := 0, curPosition := 0 }
  else
    let nCur := (f.curPosition - 1) / (512 * 2^vol.clusterSizeShift)
    let nNew := (pos - 1) / (512 * 2^vol.clusterSizeShift)
    if nNew < nCur ∨ f.curPosition = 0 then
      onFile fun f => { f with curCluster := f.firstCluster }
      follow vol nNew
    else follow vol (nNew - nCur)
    onFile fun f => { f with curPosition := pos }

def seekEnd : FileAttempt Unit := do
  let f ← getFile
  seekSet vol f.fileSize

def addCluster : FileAttempt Unit := do
  let f ← getFile
  let cluster ← onVolume (allocContiguous vol 1 f.curCluster)
  onFile fun f => { f with curCluster := cluster }
  if f.firstCluster = 0 then onFile fun f => { f with firstCluster := cluster, dirDirty := true }

/-- The fields of the directory entry that a file keeps, and with `dateTime`, which is what the
callback of the user answers, the date and the time. -/
def updateEntry (f : SdFile) (dateTime : Option (Nat × Nat)) (v : State) : State :=
  let p := 32 * f.dirIndex
  let v := if f.isDir then v else v.edit (p + 28) (bytesOf 4 f.fileSize)
  let v := v.edit (p + 26) (bytesOf 2 f.firstCluster)
  let v := v.edit (p + 20) (bytesOf 2 (f.firstCluster / 2^16))
  match dateTime with
  | none => v
  | some (date, time) =>
    ((v.edit (p + 24) (bytesOf 2 date)).edit (p + 22) (bytesOf 2 time)).edit (p + 18)
      (bytesOf 2 date)

def sync (dateTime : Option (Nat × Nat)) : FileAttempt Unit := do
  let f ← getFile
  if ¬ f.isOpen then throw .failed
  if f.dirDirty then
    onVolume (cacheRawBlock f.dirBlock true)
    onVolume (modify (updateEntry f dateTime))
    onFile fun f => { f with dirDirty := false }
  onVolume cacheFlush

/-- Frees the clusters behind the first `length` bytes, the last of which is in the current
cluster. -/
def cutChain (length : Nat) : FileAttempt Unit := do
  let f ← getFile
  if length = 0 then
    onVolume (freeChain vol f.firstCluster)
    onFile fun f => { f with firstCluster := 0 }
  else
    let toFree ← onVolume (fatGet vol f.curCluster)
    if ¬ vol.isEOC toFree then
      onVolume (freeChain vol toFree)
      onVolume (fatPutEOC vol f.curCluster)

def truncate (length : Nat) (dateTime : Option (Nat × Nat)) : FileAttempt Unit := do
  let f ← getFile
  if ¬ f.isFile ∨ ¬ f.forWrite then throw .failed
  if length > f.fileSize then throw .failed
  if f.fileSize = 0 then return
  let newPos := if f.curPosition > length then length else f.curPosition
  seekSet vol length
  cutChain vol length
  onFile fun f => { f with fileSize := length, dirDirty := true }
  sync dateTime
  seekSet vol newPos

def remove (dateTime : Option (Nat × Nat)) : FileAttempt Unit := do
  truncate vol 0 dateTime
  let f ← getFile
  onVolume (cacheRawBlock f.dirBlock true)
  onVolume (modify fun v => v.edit (32 * f.dirIndex) [0xE5])
  onFile fun f => { f with type := .closed }
  onVolume cacheFlush

structure OpenMode where
  read : Bool
  write : Bool
  append : Bool
  sync : Bool
  trunc : Bool

def openCachedEntry (dirIndex : Nat) (oflag : OpenMode) (dateTime : Option (Nat × Nat)) :
    FileAttempt Unit := do
  let v := (← get).volume
  let p := 32 * dirIndex
  let attributes := field v.cacheBuffer (p + 11) 1
  -- a directory and what is read-only is not opened to be written
  if attributes &&& 0x11 ≠ 0 ∧ (oflag.write ∨ oflag.trunc) then throw .failed
  let firstCluster := field v.cacheBuffer (p + 20) 2 * 2^16 + field v.cacheBuffer (p + 26) 2
  onFile fun f => { f with dirIndex, dirBlock := v.cacheBlockNumber, firstCluster }
  if attributes &&& 0x18 = 0 then
    onFile fun f => { f with fileSize := field v.cacheBuffer (p + 28) 4, type := .normal }
  else if attributes &&& 0x18 = 0x10 then
    let fileSize ← onVolume (chainSize vol firstCluster)
    onFile fun f => { f with fileSize, type := .subdir }
  else throw .failed
  onFile fun f => { f with
    forRead := oflag.read
    forWrite := oflag.write
    append := oflag.append
    syncAlways := oflag.sync
    unbufferedRead := false
    dirDirty := false
    curCluster := 0
    curPosition := 0 }
  if oflag.trunc then truncate vol 0 dateTime

def clusterToWrite : FileAttempt Unit := do
  let f ← getFile
  if vol.blockOfCluster f.curPosition = 0 ∧ f.curPosition % 512 = 0 then
    if f.curCluster = 0 then
      if f.firstCluster = 0 then noteError (addCluster vol)
      else onFile fun f => { f with curCluster := f.firstCluster }
    else
      let next ← onVolume (fatGet vol f.curCluster)
      if vol.isEOC next then noteError (addCluster vol)
      else onFile fun f => { f with curCluster := next }

def writeLoop : Nat → List UInt8 → FileAttempt Unit
  | 0, _ => return
  | fuel + 1, data => do
    if data = [] then return
    clusterToWrite vol
    let f ← getFile
    let blockOffset := f.curPosition % 512
    let n := min data.length (512 - blockOffset)
    let block := vol.clusterStartBlock f.curCluster + vol.blockOfCluster f.curPosition
    let fresh := blockOffset = 0 ∧ f.curPosition ≥ f.fileSize
    noteError (onVolume (writePart block blockOffset (data.take n) fresh))
    onFile fun f => { f with curPosition := (f.curPosition + n) % 2^32 }
    writeLoop fuel (data.drop n)

/-- What is left to do when `nbyte` bytes are written: the size of the file is noted, and if it is
to be kept up to date its directory entry is. -/
def endWrite (nbyte : Nat) (dateTime : Option (Nat × Nat)) : FileAttempt Unit := do
  let f ← getFile
  if f.curPosition > f.fileSize then
    onFile fun f => { f with fileSize := f.curPosition, dirDirty := true }
  else if dateTime.isSome ∧ nbyte ≠ 0 then onFile fun f => { f with dirDirty := true }
  if f.syncAlways then noteError (sync dateTime)

/-- Returns how many bytes there are in `buf`. A failure returns zero. -/
def write (buf : List UInt8) (dateTime : Option (Nat × Nat)) : FileAttempt Nat := do
  let f ← getFile
  if ¬ f.isFile ∨ ¬ f.forWrite then noteError (throw .failed)
  if f.append ∧ f.curPosition ≠ f.fileSize then noteError (seekEnd vol)
  writeLoop vol buf.length buf
  endWrite buf.length dateTime
  return buf.length

end
end RasPiArduino.Sd
