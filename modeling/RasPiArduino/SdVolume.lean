import Mathlib.Logic.Function.Basic
import RasPiArduino.LittleEndian

/-! A FAT volume on a memory card, behind a cache of one block. A function that returns false
leaves the state as it is at that point. -/
namespace RasPiArduino.Sd
open LittleEndian

abbrev Block := Bytes 512

instance neZero_blockBytes : NeZero 512 := ⟨by decide⟩

/-- What becomes of an access to the card. A write that fails may leave anything in its block. -/
inductive Access where
  | succeeds
  | fails (left : Block)

/-- A card of `size` blocks. The accesses behind the list succeed. -/
structure Card where
  blocks : Nat → Block
  size : Nat
  accesses : List Access

def noBlock : Nat := 2^32 - 1

structure SdVolume where
  blocksPerCluster : Nat
  blocksPerFat : Nat
  clusterCount : Nat
  clusterSizeShift : Nat
  dataStartBlock : Nat
  fatCount : Nat
  fatStartBlock : Nat
  fatType : Nat
  rootDirEntryCount : Nat
  rootDirStart : Nat

/-- The card and the cache, which the volumes share, and the cluster where the search for a free
one begins. -/
structure State where
  sdCard : Card
  cacheBuffer : Block := fun _ => 0
  cacheBlockNumber : Nat := noBlock
  cacheDirty : Bool := false
  cacheMirrorBlock : Nat := 0
  allocSearchStart : Nat := 2

/-- Why there is no result: the function returned false, or a loop did not come to its end. -/
inductive Stop where
  | failed
  | unfinished
  deriving DecidableEq

abbrev Attempt := EStateM Stop State

def access : Attempt (Option Block) := do
  let v ← get
  match v.sdCard.accesses with
  | [] => return none
  | a :: l =>
    set { v with sdCard.accesses := l }
    return match a with
      | .succeeds => none
      | .fails left => some left

def State.store (v : State) (b : Nat) (data : Block) : State :=
  { v with sdCard.blocks := Function.update v.sdCard.blocks b data }

/-- The card answers an address behind its end with an error. What fails does so before the
first byte is transferred. -/
def readBlock (block : Nat) : Attempt Block := do
  let v ← get
  if v.sdCard.size ≤ block then throw .failed
  match ← access with
  | none => return v.sdCard.blocks block
  | some _ => throw .failed

/-- The first block of a card is not written. -/
def writeBlock (blockNumber : Nat) (src : Block) : Attempt Unit := do
  let v ← get
  if blockNumber = 0 ∨ v.sdCard.size ≤ blockNumber then throw .failed
  match ← access with
  | none => modify fun v => v.store blockNumber src
  | some left =>
    modify fun v => v.store blockNumber left
    throw .failed

def cacheSetDirty : Attempt Unit := modify fun v => { v with cacheDirty := true }

def cacheFlush : Attempt Unit := do
  let v ← get
  if v.cacheDirty then
    writeBlock v.cacheBlockNumber v.cacheBuffer
    if v.cacheMirrorBlock ≠ 0 then
      writeBlock v.cacheMirrorBlock v.cacheBuffer
      modify fun v => { v with cacheMirrorBlock := 0 }
    modify fun v => { v with cacheDirty := false }

/-- The block is in the cache afterwards; `forWrite` says that it is about to be changed there. -/
def cacheRawBlock (blockNumber : Nat) (forWrite : Bool) : Attempt Unit := do
  let v ← get
  if v.cacheBlockNumber ≠ blockNumber then
    cacheFlush
    let data ← readBlock blockNumber
    modify fun v => { v with cacheBuffer := data, cacheBlockNumber := blockNumber }
  modify fun v => { v with cacheDirty := v.cacheDirty || forWrite }

def cacheZeroBlock (blockNumber : Nat) : Attempt Unit := do
  cacheFlush
  modify fun v => { v with cacheBuffer := fun _ => 0, cacheBlockNumber := blockNumber }
  cacheSetDirty

def State.edit (v : State) (i : Nat) (xs : List UInt8) : State :=
  { v with cacheBuffer := splice v.cacheBuffer i xs }

/-- `n` bytes of a block from `offset` on, straight from the card. -/
def readData (block offset n : Nat) : Attempt (List UInt8) := do
  if n = 0 then return []
  if n + offset > 512 then throw .failed
  let data ← readBlock block
  return slice data offset n

/-- Part of a block for a reader: a whole block, or any part if `unbuffered`, does not go through
the cache unless it is there. -/
def readPart (block offset n : Nat) (unbuffered : Bool) : Attempt (List UInt8) := do
  let v ← get
  if (unbuffered ∨ n = 512) ∧ block ≠ v.cacheBlockNumber then readData block offset n
  else
    cacheRawBlock block false
    let v ← get
    return slice v.cacheBuffer offset n

/-- Part of a block from a writer: a whole block does not go through the cache. Nothing is read for
a `fresh` block; what is not written of it is what the cache held. -/
def writePart (block offset : Nat) (data : List UInt8) (fresh : Bool) : Attempt Unit := do
  if data.length = 512 then
    modify fun v =>
      if v.cacheBlockNumber = block then { v with cacheBlockNumber := noBlock } else v
    writeBlock block (splice (fun _ => 0) 0 data)
  else
    if fresh then
      cacheFlush
      modify fun v => { v with cacheBlockNumber := block }
      cacheSetDirty
    else cacheRawBlock block true
    modify fun v => v.edit offset data

def fat16 (b : Block) (i : Nat) : Nat := number (slice b (2 * i) 2)

def fat32 (b : Block) (i : Nat) : Nat := number (slice b (4 * i) 4)

def SdVolume.fatBlock (vol : SdVolume) (cluster : Nat) : Nat :=
  vol.fatStartBlock + if vol.fatType = 16 then cluster / 256 else cluster / 128

def SdVolume.isEOC (vol : SdVolume) (cluster : Nat) : Bool :=
  cluster ≥ if vol.fatType = 16 then 0xFFF8 else 0x0FFFFFF8

def SdVolume.entryIn (vol : SdVolume) (b : Block) (cluster : Nat) : Nat :=
  if vol.fatType = 16 then fat16 b (cluster % 256) else fat32 b (cluster % 128) % 2^28

def SdVolume.blockOfCluster (vol : SdVolume) (position : Nat) : Nat :=
  position / 512 &&& (vol.blocksPerCluster - 1)

/-- In 32 bits. -/
def SdVolume.clusterStartBlock (vol : SdVolume) (cluster : Nat) : Nat :=
  (vol.dataStartBlock + (cluster + 2^32 - 2) % 2^32 * 2^vol.clusterSizeShift) % 2^32

section
variable (vol : SdVolume)

def fatGet (cluster : Nat) : Attempt Nat := do
  if cluster > vol.clusterCount + 1 then throw .failed
  let lba := vol.fatBlock cluster
  let v ← get
  if lba ≠ v.cacheBlockNumber then cacheRawBlock lba false
  let v ← get
  return vol.entryIn v.cacheBuffer cluster

def fatPut (cluster value : Nat) : Attempt Unit := do
  if cluster < 2 then throw .failed
  if cluster > vol.clusterCount + 1 then throw .failed
  let lba := vol.fatBlock cluster
  let v ← get
  if lba ≠ v.cacheBlockNumber then cacheRawBlock lba false
  if vol.fatType = 16 then modify fun v => v.edit (2 * (cluster % 256)) (bytesOf 2 value)
  else modify fun v => v.edit (4 * (cluster % 128)) (bytesOf 4 value)
  cacheSetDirty
  if vol.fatCount > 1 then modify fun v => { v with cacheMirrorBlock := lba + vol.blocksPerFat }

def fatPutEOC (cluster : Nat) : Attempt Unit := fatPut vol cluster 0x0FFFFFFF

/-- Finds `count` free clusters in a row; those from `bgnCluster` to before `endCluster` are
free. The second number counts the clusters still to be looked at. -/
def search (count : Nat) : Nat → Nat → Nat → Attempt (Nat × Nat)
  | 0, _, _ => throw .failed
  | n + 1, bgnCluster, endCluster => do
    -- past the end the search goes on at the beginning of the table
    let past := endCluster > vol.clusterCount + 1
    let bgnCluster := if past then 2 else bgnCluster
    let endCluster := if past then 2 else endCluster
    let f ← fatGet vol endCluster
    if f ≠ 0 then search count n (endCluster + 1) (endCluster + 1)
    else if endCluster - bgnCluster + 1 = count then return (bgnCluster, endCluster)
    else search count n bgnCluster (endCluster + 1)

def link (bgnCluster : Nat) : Nat → Attempt Unit
  | 0 => return
  | k + 1 => do
    fatPut vol (bgnCluster + k) (bgnCluster + k + 1)
    link bgnCluster k

/-- The first of `count` new clusters, which continue the chain that ends with `curCluster`
unless that is zero. -/
def allocContiguous (count curCluster : Nat) : Attempt Nat := do
  let v ← get
  let start := if curCluster ≠ 0 then curCluster + 1 else v.allocSearchStart
  let (bgnCluster, endCluster) ← search vol count vol.clusterCount start start
  fatPutEOC vol endCluster
  link vol bgnCluster (endCluster - bgnCluster)
  if curCluster ≠ 0 then fatPut vol curCluster bgnCluster
  else if count = 1 then modify fun v => { v with allocSearchStart := bgnCluster + 1 }
  return bgnCluster

def freeFrom : Nat → Nat → Attempt Unit
  | 0, _ => throw .unfinished
  | fuel + 1, cluster => do
    let next ← fatGet vol cluster
    fatPut vol cluster 0
    if vol.isEOC next then return
    freeFrom fuel next

def freeChain (cluster : Nat) : Attempt Unit := do
  modify fun v => { v with allocSearchStart := 2 }
  freeFrom vol (vol.clusterCount + 2) cluster

def sizeFrom : Nat → Nat → Nat → Attempt Nat
  | 0, _, _ => throw .unfinished
  | fuel + 1, cluster, s => do
    let next ← fatGet vol cluster
    let s := (s + 512 * 2^vol.clusterSizeShift) % 2^32
    if vol.isEOC next then return s
    sizeFrom fuel next s

def chainSize (cluster : Nat) : Attempt Nat := sizeFrom vol (vol.clusterCount + 2) cluster 0

end

def field (b : Block) (i n : Nat) : Nat := number (slice b i n)

def partitionStart (b : Block) (part : Nat) : Option Nat :=
  let p := 446 + 16 * (part - 1)
  if field b p 1 % 128 ≠ 0 ∨ field b (p + 12) 4 < 100 ∨ field b (p + 8) 4 = 0 then none
  else some (field b (p + 8) 4)

/-- The volume that the boot sector at `volumeStartBlock` describes, in 32 bits. -/
def bootSector (bpb : Block) (volumeStartBlock : Nat) : Option SdVolume :=
  if field bpb 11 2 ≠ 512 ∨ field bpb 16 1 = 0 ∨ field bpb 14 2 = 0 ∨ field bpb 13 1 = 0 then none
  else match (List.range 9).find? fun s => field bpb 13 1 = 2^s with
    | none => none
    | some shift =>
      let blocksPerFat := if field bpb 22 2 ≠ 0 then field bpb 22 2 else field bpb 36 4
      let fatStartBlock := (volumeStartBlock + field bpb 14 2) % 2^32
      let rootDirStart := (fatStartBlock + field bpb 16 1 * blocksPerFat) % 2^32
      let dataStartBlock := (rootDirStart + (32 * field bpb 17 2 + 511) / 512) % 2^32
      let totalBlocks := if field bpb 19 2 ≠ 0 then field bpb 19 2 else field bpb 32 4
      let dataBlocks := (totalBlocks + volumeStartBlock + 2^32 - dataStartBlock) % 2^32
      let clusterCount := dataBlocks / 2^shift
      let fatType := if clusterCount < 4085 then 12 else if clusterCount < 65525 then 16 else 32
      some {
        blocksPerCluster := field bpb 13 1
        blocksPerFat, clusterCount
        clusterSizeShift := shift
        dataStartBlock
        fatCount := field bpb 16 1
        fatStartBlock, fatType
        rootDirEntryCount := field bpb 17 2
        rootDirStart := if fatType = 32 then field bpb 44 4 else rootDirStart }

/-- Partition zero is the whole card. -/
def initPartition (part : Nat) : Attempt SdVolume := do
  let mut volumeStartBlock := 0
  if part ≠ 0 then
    if part > 4 then throw .failed
    cacheRawBlock 0 false
    match partitionStart (← get).cacheBuffer part with
    | none => throw .failed
    | some b => volumeStartBlock := b
  cacheRawBlock volumeStartBlock false
  match bootSector (← get).cacheBuffer volumeStartBlock with
  | none => throw .failed
  | some vol => return vol

def init : Attempt SdVolume := tryCatch (initPartition 1) fun _ => initPartition 0

end RasPiArduino.Sd
