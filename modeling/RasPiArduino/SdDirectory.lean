import RasPiArduino.Machine
import RasPiArduino.SdFileRead
import RasPiArduino.SdNames

/-! Files are opened and made by name: the entries of the directory are looked through one after
the other. -/
namespace RasPiArduino.Sd
open LittleEndian Outcome Machine

structure DirAndFile where
  dirFile : SdFile
  file : SdFile
  volume : State

abbrev DirAttempt := EStateM Stop DirAndFile

def onDirFile {α : Type} (m : FileAttempt α) : DirAttempt α := fun s =>
  match m ⟨s.dirFile, s.volume⟩ with
  | .ok a h => .ok a { s with dirFile := h.file, volume := h.volume }
  | .error e h => .error e { s with dirFile := h.file, volume := h.volume }

def onOpened {α : Type} (m : FileAttempt α) : DirAttempt α := fun s =>
  match m ⟨s.file, s.volume⟩ with
  | .ok a h => .ok a { s with file := h.file, volume := h.volume }
  | .error e h => .error e { s with file := h.file, volume := h.volume }

def rewind : FileAttempt Unit := onFile fun f => { f with curCluster := 0, curPosition := 0 }

def newEntry (dname : List UInt8) (dateTime : Option (Nat × Nat)) : List UInt8 :=
  -- the first of January 2000, one o'clock
  let date := (dateTime.getD (20 * 2^9 + 2^5 + 1, 2^11)).1
  let time := (dateTime.getD (20 * 2^9 + 2^5 + 1, 2^11)).2
  dname ++ [0, 0, 0] ++ bytesOf 2 time ++ bytesOf 2 date ++ bytesOf 2 date ++ [0, 0] ++
    bytesOf 2 time ++ bytesOf 2 date ++ List.replicate 6 0

section
variable (vol : SdVolume)

def openRoot : FileAttempt Unit := do
  let f ← getFile
  if f.isOpen then throw .failed
  if vol.fatType = 16 then
    onFile fun f => { f with
      type := .root16, firstCluster := 0, fileSize := 32 * vol.rootDirEntryCount }
  else if vol.fatType = 32 then
    onFile fun f => { f with type := .root32, firstCluster := vol.rootDirStart }
    let fileSize ← onVolume (chainSize vol vol.rootDirStart)
    onFile fun f => { f with fileSize }
  else throw .failed
  onFile fun f => { f with
    forRead := true
    forWrite := false
    append := false
    syncAlways := false
    unbufferedRead := false
    dirDirty := false
    curCluster := 0
    curPosition := 0
    dirBlock := 0
    dirIndex := 0 }

def readDirCache : FileAttempt Nat := do
  let f ← getFile
  if ¬ f.isDir then throw .failed
  let i := f.curPosition / 32 % 16
  -- `read` of one byte locates the block
  let r ← read vol 1
  if r.1 ≠ 1 then throw .failed
  onFile fun f => { f with curPosition := (f.curPosition + 31) % 2^32 }
  return i

def zeroBlocks (block : Nat) : Nat → Attempt Unit
  | 0 => return
  | i + 1 => do
    cacheZeroBlock ((block + i) % 2^32)
    zeroBlocks block i

def addDirCluster : FileAttempt Unit := do
  addCluster vol
  let f ← getFile
  onVolume (zeroBlocks (vol.clusterStartBlock f.curCluster) vol.blocksPerCluster)
  onFile fun f => { f with fileSize := (f.fileSize + 512 * 2^vol.clusterSizeShift) % 2^32 }

/-- The loop of `open`: the index of the entry with the name, and if there is an empty one. -/
def searchName (dname : List UInt8) : Nat → Bool → DirAttempt (Option Nat × Bool)
  | 0, _ => throw .unfinished
  | fuel + 1, emptyFound => do
    let s ← get
    if ¬ s.dirFile.curPosition < s.dirFile.fileSize then return (none, emptyFound)
    let index := s.dirFile.curPosition / 32 % 16
    let i ← onDirFile (readDirCache vol)
    let s ← get
    let name := slice s.volume.cacheBuffer (32 * i) 11
    if name.head? = some 0 ∨ name.head? = some 0xE5 then
      -- remember first empty slot
      if ¬ emptyFound then
        set { s with file.dirIndex := index, file.dirBlock := s.volume.cacheBlockNumber }
      -- done if no entries follow
      if name.head? = some 0 then return (none, true)
      searchName dname fuel true
    else if name = dname then return (some index, emptyFound)
    else searchName dname fuel emptyFound

/-- The part of `open` before `openCachedEntry`: the entry with the name, or a new one, comes into
the cache. -/
def locate (dname : List UInt8) (oflag : OpenMode) (creat excl : Bool)
    (dateTime : Option (Nat × Nat)) : DirAttempt Nat := do
  onDirFile rewind
  let s ← get
  let (found, emptyFound) ← searchName vol dname (s.dirFile.fileSize / 32 + 1) false
  match found with
  | some index =>
    -- don't open existing file if F_CREAT and F_EXCL
    if creat ∧ excl then throw .failed
    return index
  | none =>
    -- only create file if F_CREAT and F_WRITE
    if ¬ (creat ∧ oflag.write) then throw .failed
    let s ← get
    if emptyFound then onOpened (onVolume (cacheRawBlock s.file.dirBlock true))
    else
      if s.dirFile.type = .root16 then throw .failed
      onDirFile (addDirCluster vol)
      onOpened (onFile fun f => { f with dirIndex := 0 })
    let s ← get
    onOpened (onVolume (modify fun v => v.edit (32 * s.file.dirIndex) (newEntry dname dateTime)))
    onOpened (onVolume cacheFlush)
    return s.file.dirIndex

def openName (fileName : List UInt8) (oflag : OpenMode) (creat excl : Bool)
    (dateTime : Option (Nat × Nat)) : DirAttempt Unit := do
  let s ← get
  if s.file.isOpen then throw .failed
  match make83Name fileName with
  | none => throw .failed
  | some dname =>
    let index ← locate vol dname oflag creat excl dateTime
    onOpened (openCachedEntry vol index oflag dateTime)

end

/-- The names in the root directory of a FAT16 volume. -/
def SdVolume.rootName (vol : SdVolume) (B : Nat → Block) (k : Nat) : List UInt8 :=
  slice (B (vol.rootDirStart + k / 16)) (32 * (k % 16)) 11

/-- The entry is that of a file or of a directory. -/
def Taken (name : List UInt8) : Prop := name.head? ≠ some 0 ∧ name.head? ≠ some 0xE5

instance : DecidablePred Taken := fun _ => inferInstanceAs (Decidable (_ ∧ _))

/-- No two entries have the same name, and none follows the first that was never used. -/
structure Listed (vol : SdVolume) (B : Nat → Block) : Prop where
  closed : ∀ j k, j < k → k < vol.rootDirEntryCount →
    (vol.rootName B j).head? = some 0 → (vol.rootName B k).head? = some 0
  distinct : ∀ j k, j < vol.rootDirEntryCount → k < vol.rootDirEntryCount →
    Taken (vol.rootName B j) → vol.rootName B j = vol.rootName B k → j = k

/-- The root directory lies between the tables and the clusters. -/
structure SdVolume.Rooted (vol : SdVolume) : Prop where
  start : vol.fatStartBlock + vol.fatCount * vol.blocksPerFat ≤ vol.rootDirStart
  finish : vol.rootDirStart + (32 * vol.rootDirEntryCount + 511) / 512 ≤ vol.dataStartBlock
  count : vol.rootDirEntryCount < 2^16

structure SdVolume.IsRoot (vol : SdVolume) (f : SdFile) : Prop where
  type : f.type = .root16
  forRead : f.forRead = true
  buffered : f.unbufferedRead = false
  fileSize : f.fileSize = 32 * vol.rootDirEntryCount

/-- What `open` has noted of the first `k` entries: the first that is not taken, if there is one. -/
def Marked (vol : SdVolume) (B : Nat → Block) (f : SdFile) (e : Bool) (k : Nat) : Prop :=
  if e then ∃ j, j < k ∧ ¬ Taken (vol.rootName B j) ∧ (∀ i, i < j → Taken (vol.rootName B i)) ∧
    f.dirIndex = j % 16 ∧ f.dirBlock = vol.rootDirStart + j / 16
  else ∀ j, j < k → Taken (vol.rootName B j)

variable {vol : SdVolume} {D D' : Disk} {v : State} {h : Handle} {s : DirAndFile} {f : SdFile}
  {b i j k n : Nat} {dname entry : List UInt8} {e : Bool} {B : Nat → Block}

section
variable {α : Type} {m : FileAttempt α} {Q : α → DirAndFile → Prop} {R : Stop → DirAndFile → Prop}

@[simp] theorem yields_onDirFile : Yields (onDirFile m) s Q R ↔
    Yields m ⟨s.dirFile, s.volume⟩
      (fun a h => Q a { s with dirFile := h.file, volume := h.volume })
      fun e h => R e { s with dirFile := h.file, volume := h.volume } := by
  unfold Yields onDirFile
  cases m ⟨s.dirFile, s.volume⟩ <;> rfl

@[simp] theorem yields_onOpened : Yields (onOpened m) s Q R ↔
    Yields m ⟨s.file, s.volume⟩
      (fun a h => Q a { s with file := h.file, volume := h.volume })
      fun e h => R e { s with file := h.file, volume := h.volume } := by
  unfold Yields onOpened
  cases m ⟨s.file, s.volume⟩ <;> rfl

end

theorem Laid.plain_root (hl : Laid vol D) (hr : vol.Rooted) (hk : k < vol.rootDirEntryCount) :
    D.Plain (vol.rootDirStart + k / 16) := by
  have hstart := hr.start
  have hfinish := hr.finish
  have hsize := hl.size
  exact hl.plain (by omega) (by omega)

theorem readPart_cached (hD : Holds D v) (hb : D.Plain b) (hn : n ≠ 512) :
    Yields (readPart b i n false) v
      (fun _ w => Holds D w ∧ w.cacheBlockNumber = b ∧ w.cacheBuffer = D.blocks b)
      (fun _ _ => ¬ D.reliable) := by
  unfold readPart
  simp only [yields_bind, yields_get, yields_ite, yields_pure]
  refine ⟨fun hdirect => absurd hdirect.1 (by simp [hn]), fun _ => ?_⟩
  exact (cacheRawBlock_yields hD ⟨hb.pos, hb.lt⟩ false).mono
    (fun _ w hw => ⟨hw.1, hw.2.1, hw.2.2.1⟩) fun _ w hw => hw.2

theorem readLoop_root (hl : Laid vol D) (hr : vol.Rooted) (hD : Holds D h.volume)
    (hf : vol.IsRoot h.file) (hp : h.file.curPosition = 32 * k) (hk : k < vol.rootDirEntryCount) :
    Yields (readLoop vol 1 1) h
      (fun _ t => Holds D t.volume ∧ t.volume.cacheBlockNumber = vol.rootDirStart + k / 16 ∧
        t.volume.cacheBuffer = D.blocks (vol.rootDirStart + k / 16) ∧
        t.file = { h.file with curPosition := 32 * k + 1 })
      (fun _ _ => ¬ D.reliable) := by
  have hcount := hr.count
  have hblock : h.file.curPosition / 512 = k / 16 := by omega
  have hn : min 1 (512 - h.file.curPosition % 512) = 1 := by omega
  have hnext : (h.file.curPosition + 1) % 2^32 = 32 * k + 1 := by omega
  unfold readLoop blockToRead
  simp only [yields_bind, yields_getFile, yields_ite, yields_pure, yields_onFile, yields_onVolume,
    hblock, hn, hf.buffered, hnext]
  refine ⟨fun h0 => absurd h0 (by decide), fun _ => ⟨fun _ => ?_, fun h16 => absurd hf.type h16⟩⟩
  refine (readPart_cached hD (hl.plain_root hr hk) (by decide)).mono (fun _ v hv => ?_)
    fun _ _ hv => hv
  unfold readLoop
  exact ⟨hv.1, hv.2.1, hv.2.2, rfl⟩

theorem readDirCache_yields (hl : Laid vol D) (hr : vol.Rooted) (hD : Holds D h.volume)
    (hf : vol.IsRoot h.file) (hp : h.file.curPosition = 32 * k) (hk : k < vol.rootDirEntryCount) :
    Yields (readDirCache vol) h
      (fun i t => i = k % 16 ∧ Holds D t.volume ∧
        t.volume.cacheBlockNumber = vol.rootDirStart + k / 16 ∧
        t.volume.cacheBuffer = D.blocks (vol.rootDirStart + k / 16) ∧
        t.file = { h.file with curPosition := 32 * (k + 1) })
      (fun _ _ => ¬ D.reliable) := by
  have hcount := hr.count
  have hopen : ¬ (¬ h.file.isOpen = true ∨ ¬ h.file.forRead = true) := by
    simp [SdFile.isOpen, hf.type, hf.forRead]
  have hdir : h.file.isDir = true := by simp [SdFile.isDir, hf.type]
  have hleft : min 1 ((h.file.fileSize + 2^32 - h.file.curPosition) % 2^32) = 1 := by
    rw [hf.fileSize, hp]
    omega
  have hindex : h.file.curPosition / 32 % 16 = k % 16 := by omega
  unfold readDirCache read
  simp only [yields_bind, yields_getFile, yields_ite, yields_throw, yields_pure, yields_onFile,
    hleft]
  refine ⟨fun hno => absurd hdir hno, fun _ => ⟨fun hno => absurd hno hopen, fun _ => ?_⟩⟩
  refine (readLoop_root hl hr hD hf hp hk).mono (fun _ t ht => ?_) fun _ _ ht => ht
  obtain ⟨ht, hnum, hbuf, hfile⟩ := ht
  refine ⟨fun hno => absurd (by decide) hno, fun _ => ⟨hindex, ht, hnum, hbuf, ?_⟩⟩
  have hnext : (32 * k + 1 + 31) % 2^32 = 32 * (k + 1) := by omega
  simp only [hfile, hnext]

theorem Marked.succ_of_found (hm : Marked vol B f true k) : Marked vol B f true (k + 1) := by
  obtain ⟨j, hj, hrest⟩ := hm
  exact ⟨j, by omega, hrest⟩

theorem Marked.succ_of_taken (hm : Marked vol B f e k) (ht : Taken (vol.rootName B k)) :
    Marked vol B f e (k + 1) := by
  cases e with
  | true => exact hm.succ_of_found
  | false =>
    intro j hj
    obtain hlt | rfl : j < k ∨ j = k := by omega
    · exact hm j hlt
    · exact ht

theorem Marked.mono (hm : Marked vol B f true k) (hn : k ≤ n) : Marked vol B f true n := by
  obtain ⟨j, hj, hrest⟩ := hm
  exact ⟨j, by omega, hrest⟩

/-- The entries from the `k`-th on are looked through. -/
theorem searchName_yields (hl : Laid vol D) (hr : vol.Rooted) (hlist : Listed vol D.blocks)
    (hD : Holds D s.volume) (hf : vol.IsRoot s.dirFile) (hname : Taken dname)
    (hp : s.dirFile.curPosition = 32 * k) (hk : k ≤ vol.rootDirEntryCount)
    (hn : vol.rootDirEntryCount < k + n)
    (hbefore : ∀ j, j < k → vol.rootName D.blocks j ≠ dname)
    (hmark : Marked vol D.blocks s.file e k) :
    Yields (searchName vol dname n e) s
      (fun r t => Holds D t.volume ∧ vol.IsRoot t.dirFile ∧ match r.1 with
        | some i => ∃ j, j < vol.rootDirEntryCount ∧ vol.rootName D.blocks j = dname ∧
          i = j % 16 ∧ t.volume.cacheBlockNumber = vol.rootDirStart + j / 16
        | none => (∀ j, j < vol.rootDirEntryCount → vol.rootName D.blocks j ≠ dname) ∧
          Marked vol D.blocks t.file r.2 vol.rootDirEntryCount)
      (fun _ _ => ¬ D.reliable) := by
  induction n generalizing s k e with
  | zero => omega
  | succ n ih =>
    have hcount := hr.count
    unfold searchName
    simp only [yields_bind, yields_get, yields_ite, yields_pure, yields_set, yields_onDirFile,
      hf.fileSize, hp]
    refine ⟨fun hend => ?_, fun hin => ?_⟩
    · obtain rfl : k = vol.rootDirEntryCount := by omega
      exact ⟨hD, hf, hbefore, hmark⟩
    · have hlt : k < vol.rootDirEntryCount := by omega
      refine (readDirCache_yields hl hr hD hf hp hlt).mono (fun i t ht => ?_) fun _ _ ht => ht
      obtain ⟨rfl, ht, hnum, hbuf, hfile⟩ := ht
      have hroot : vol.IsRoot t.file := by
        rw [hfile]
        exact ⟨hf.type, hf.forRead, hf.buffered, hf.fileSize⟩
      have hpos : t.file.curPosition = 32 * (k + 1) := by rw [hfile]
      have hslice : slice t.volume.cacheBuffer (32 * (k % 16)) 11 = vol.rootName D.blocks k := by
        rw [hbuf]
        rfl
      have hindex : 32 * k / 32 % 16 = k % 16 := by omega
      have hbefore' (hne : vol.rootName D.blocks k ≠ dname) :
          ∀ j, j < k + 1 → vol.rootName D.blocks j ≠ dname := by
        intro j hj
        obtain hlt | rfl : j < k ∨ j = k := by omega
        · exact hbefore j hlt
        · exact hne
      have hnext {g : SdFile} {e : Bool} (hne : vol.rootName D.blocks k ≠ dname)
          (hg : Marked vol D.blocks g e (k + 1)) :=
        ih (s := ⟨t.file, g, t.volume⟩) ht hroot hpos (by omega) (by omega) (hbefore' hne) hg
      -- where no entries follow, none of them has the name
      have hfree {g : SdFile} (hne : vol.rootName D.blocks k ≠ dname)
          (hg : Marked vol D.blocks g true (k + 1))
          (h0 : (vol.rootName D.blocks k).head? = some 0) :
          (∀ j, j < vol.rootDirEntryCount → vol.rootName D.blocks j ≠ dname) ∧
            Marked vol D.blocks g true vol.rootDirEntryCount := by
        refine ⟨fun j hj => ?_, hg.mono (by omega)⟩
        obtain hle | hgt : j < k + 1 ∨ k < j := by omega
        · exact hbefore' hne j hle
        · intro he
          exact hname.1 (he ▸ hlist.closed k j hgt hj h0)
      simp only [hslice, hindex, hnum]
      refine ⟨fun hempty => ?_, fun htaken => ⟨fun he => ?_, fun hne => ?_⟩⟩
      · have hno : ¬ Taken (vol.rootName D.blocks k) := fun h => hempty.elim h.1 h.2
        have hne : vol.rootName D.blocks k ≠ dname := fun he => hno (he ▸ hname)
        refine ⟨fun hfirst => ?_, fun hfound => ?_⟩
        · obtain rfl : e = false := Bool.not_eq_true e ▸ hfirst
          have hg : Marked vol D.blocks { s.file with
              dirIndex := k % 16, dirBlock := vol.rootDirStart + k / 16 } true (k + 1) :=
            ⟨k, by omega, hno, hmark, rfl, rfl⟩
          exact ⟨fun h0 => ⟨ht, hroot, hfree hne hg h0⟩, fun _ => hnext hne hg⟩
        · obtain rfl : e = true := not_not.mp hfound
          have hg := hmark.succ_of_found
          exact ⟨fun h0 => ⟨ht, hroot, hfree hne hg h0⟩, fun _ => hnext hne hg⟩
      · exact ⟨ht, hroot, k, hlt, he, rfl, rfl⟩
      · exact hnext hne (hmark.succ_of_taken (not_or.mp htaken))

theorem length_newEntry (h : dname.length = 11) (dateTime : Option (Nat × Nat)) :
    (newEntry dname dateTime).length = 32 := by
  simp [newEntry, h]

theorem take_newEntry (h : dname.length = 11) (dateTime : Option (Nat × Nat)) :
    (newEntry dname dateTime).take 11 = dname := by
  simp [newEntry, ← h]

theorem slice_write_of_disjoint (hb : D.Plain (vol.rootDirStart + j / 16))
    (hentry : entry.length ≤ 32) (hk : k ≠ j ∨ entry.length ≤ i) (hn : i + n ≤ 32) :
    slice ((D.write (vol.rootDirStart + j / 16) (32 * (j % 16)) entry).blocks
        (vol.rootDirStart + k / 16)) (32 * (k % 16) + i) n =
      slice (D.blocks (vol.rootDirStart + k / 16)) (32 * (k % 16) + i) n := by
  unfold Disk.write
  rw [hb.put_apply]
  obtain hblock | hblock := eq_or_ne (k / 16) (j / 16)
  · rw [hblock, Function.update_self]
    exact slice_splice_of_disjoint (by omega) (by omega)
  · rw [Function.update_of_ne (by omega)]

theorem slice_write (hb : D.Plain (vol.rootDirStart + j / 16)) (hentry : entry.length = 32)
    (k : Nat) (hn : i + n ≤ 32) :
    slice ((D.write (vol.rootDirStart + j / 16) (32 * (j % 16)) entry).blocks
        (vol.rootDirStart + k / 16)) (32 * (k % 16) + i) n =
      if k = j then (entry.drop i).take n
      else slice (D.blocks (vol.rootDirStart + k / 16)) (32 * (k % 16) + i) n := by
  split
  · rename_i hk
    subst hk
    have hself : slice (splice (D.blocks (vol.rootDirStart + k / 16)) (32 * (k % 16)) entry)
        (32 * (k % 16)) entry.length = entry := slice_splice_self (by omega)
    rw [hentry] at hself
    unfold Disk.write
    rw [hb.put_apply, Function.update_self, ← take_drop_slice hn, hself]
  · rename_i hk
    exact slice_write_of_disjoint hb hentry.le (Or.inl hk) hn

theorem rootName_write (hb : D.Plain (vol.rootDirStart + j / 16)) (hentry : entry.length = 32)
    (k : Nat) :
    vol.rootName (D.write (vol.rootDirStart + j / 16) (32 * (j % 16)) entry).blocks k =
      if k = j then entry.take 11 else vol.rootName D.blocks k :=
  slice_write (i := 0) hb hentry k (by decide)

/-- The entries are those of files that may be written. -/
def OnlyFiles (vol : SdVolume) (B : Nat → Block) : Prop :=
  ∀ k, k < vol.rootDirEntryCount → Taken (vol.rootName B k) →
    field (B (vol.rootDirStart + k / 16)) (32 * (k % 16) + 11) 1 &&& 0x19 = 0

theorem OnlyFiles.written (hfiles : OnlyFiles vol D.blocks)
    (hb : D.Plain (vol.rootDirStart + j / 16)) (hlen : dname.length = 11)
    (dateTime : Option (Nat × Nat)) : OnlyFiles vol
      (D.write (vol.rootDirStart + j / 16) (32 * (j % 16)) (newEntry dname dateTime)).blocks := by
  intro k hk htaken
  have hentry := length_newEntry hlen dateTime
  rw [field, slice_write hb hentry k (by decide)]
  rw [rootName_write hb hentry] at htaken
  split
  · have hattributes : ((newEntry dname dateTime).drop 11).take 1 = [0] := by
      simp [newEntry, ← hlen]
    rw [hattributes]
    rfl
  · rename_i hne
    rw [if_neg hne] at htaken
    exact hfiles k hk htaken

/-- The first entry that is not taken is given a name that no entry has. -/
theorem Listed.written {B' : Nat → Block} (hlist : Listed vol B)
    (hB : ∀ k, vol.rootName B' k = if k = j then dname else vol.rootName B k)
    (hname : Taken dname) (hnew : ∀ k, k < vol.rootDirEntryCount → vol.rootName B k ≠ dname)
    (hfirst : ∀ i, i < j → Taken (vol.rootName B i)) : Listed vol B' where
  closed := by
    intro i k hik hk h0
    rw [hB] at h0 ⊢
    split at h0
    · exact absurd h0 hname.1
    · have hk0 := hlist.closed i k hik hk h0
      split
      · rename_i hkj
        exact absurd h0 (hfirst i (hkj ▸ hik)).1
      · exact hk0
  distinct := by
    intro i k hi hk htaken he
    rw [hB] at htaken he
    rw [hB] at he
    split at he
    · rename_i hij
      split at he
      · rename_i hkj
        rw [hij, hkj]
      · exact absurd he.symm (hnew k hk)
    · rename_i hij
      rw [if_neg hij] at htaken
      split at he
      · exact absurd he (hnew i hi)
      · exact hlist.distinct i k hi hk htaken he

/-- The directory has the entries of the other, and perhaps new ones. -/
structure Grown (vol : SdVolume) (D D' : Disk) : Prop where
  laid : Laid vol D'
  listed : Listed vol D'.blocks
  taken : ∀ k, k < vol.rootDirEntryCount → Taken (vol.rootName D.blocks k) →
    vol.rootName D'.blocks k = vol.rootName D.blocks k
  files : OnlyFiles vol D.blocks → OnlyFiles vol D'.blocks
  reliable : D.reliable → D'.reliable

theorem Grown.refl (hl : Laid vol D) (hlist : Listed vol D.blocks) : Grown vol D D :=
  ⟨hl, hlist, fun _ _ _ => rfl, id, id⟩

theorem Grown.trans {E : Disk} (h : Grown vol D D') (h' : Grown vol D' E) : Grown vol D E where
  laid := h'.laid
  listed := h'.listed
  taken := fun k hk ht => by
    have he := h.taken k hk ht
    rw [h'.taken k hk (he ▸ ht), he]
  files := fun hf => h'.files (h.files hf)
  reliable := fun hr => h'.reliable (h.reliable hr)

/-- The entry `j` has the name and is in the cache, at the index `i`. -/
structure Found (vol : SdVolume) (D : Disk) (dname : List UInt8) (j i : Nat) (v : State) :
    Prop where
  lt : j < vol.rootDirEntryCount
  name : vol.rootName D.blocks j = dname
  index : i = j % 16
  block : v.cacheBlockNumber = vol.rootDirStart + j / 16

/-- The entry `j`, which was free, has been made for a name that no entry had. -/
structure Made (vol : SdVolume) (D D' : Disk) (dname : List UInt8) (dateTime : Option (Nat × Nat))
    (j : Nat) : Prop where
  fresh : ∀ k, k < vol.rootDirEntryCount → vol.rootName D.blocks k ≠ dname
  free : ¬ Taken (vol.rootName D.blocks j)
  disk : D' = D.write (vol.rootDirStart + j / 16) (32 * (j % 16)) (newEntry dname dateTime)

/-- There is an entry to open: it is there and may be, or it is not there, may be made and has
room. -/
def Locates (vol : SdVolume) (B : Nat → Block) (dname : List UInt8) (oflag : OpenMode)
    (creat excl : Bool) : Prop :=
  (∃ j, j < vol.rootDirEntryCount ∧ vol.rootName B j = dname) ∧ ¬ (creat ∧ excl) ∨
    (∀ j, j < vol.rootDirEntryCount → vol.rootName B j ≠ dname) ∧ (creat ∧ oflag.write) ∧
      ∃ j, j < vol.rootDirEntryCount ∧ ¬ Taken (vol.rootName B j)

theorem locate_yields (hl : Laid vol D) (hr : vol.Rooted) (hlist : Listed vol D.blocks)
    (hD : Holds D s.volume) (hf : vol.IsRoot s.dirFile) (hname : Taken dname)
    (hlen : dname.length = 11) (oflag : OpenMode) (creat excl : Bool)
    (dateTime : Option (Nat × Nat)) :
    Yields (locate vol dname oflag creat excl dateTime) s
      (fun i t => vol.IsRoot t.dirFile ∧ ∃ D' j, Holds D' t.volume ∧ Grown vol D D' ∧
        Found vol D' dname j i t.volume ∧ Locates vol D.blocks dname oflag creat excl ∧
        (D' = D ∨ Made vol D D' dname dateTime j))
      (fun _ t => D.reliable → Holds D t.volume ∧ vol.IsRoot t.dirFile ∧
        ¬ Locates vol D.blocks dname oflag creat excl) := by
  have hroot : vol.IsRoot { s.dirFile with curCluster := 0, curPosition := 0 } :=
    ⟨hf.type, hf.forRead, hf.buffered, hf.fileSize⟩
  have hfuel : vol.rootDirEntryCount < 0 + (s.dirFile.fileSize / 32 + 1) := by
    rw [hf.fileSize]
    omega
  have hsearch := searchName_yields (s := { s with
      dirFile := { s.dirFile with curCluster := 0, curPosition := 0 } }) (e := false) hl hr hlist hD
    hroot hname (Nat.mul_zero 32).symm (Nat.zero_le _) hfuel (fun j hj => absurd hj (by omega))
    fun j hj => absurd hj (by omega)
  unfold locate rewind
  simp only [yields_bind, yields_get, yields_onDirFile, yields_onFile]
  refine hsearch.mono (fun r t ht => ?_) fun _ _ hno hr => absurd hr hno
  obtain ⟨ht, hroot, hr'⟩ := ht
  obtain ⟨found, e⟩ := r
  cases found with
  | some i =>
    simp only [yields_bind, yields_ite, yields_throw, yields_pure]
    obtain ⟨j, hj, hjname, hi, hnum⟩ := hr'
    refine ⟨fun hexcl _ => ⟨ht, hroot, ?_⟩, fun hno => ?_⟩
    · rintro (⟨-, hno⟩ | ⟨hnew, -⟩)
      · exact hno hexcl
      · exact hnew j hj hjname
    · exact ⟨hroot, D, j, ht, .refl hl hlist, ⟨hj, hjname, hi, hnum⟩,
        Or.inl ⟨⟨j, hj, hjname⟩, hno⟩, Or.inl rfl⟩
  | none =>
    obtain ⟨hnew, hmark⟩ := hr'
    simp only [yields_bind, yields_get, yields_ite, yields_throw, yields_pure, yields_onOpened,
      yields_onDirFile, yields_onVolume, yields_onFile, yields_modify]
    have hold : ¬ ∃ j, j < vol.rootDirEntryCount ∧ vol.rootName D.blocks j = dname := by
      rintro ⟨j, hj, he⟩
      exact hnew j hj he
    refine ⟨fun hno _ => ⟨ht, hroot, ?_⟩, fun hmake => ⟨fun hempty => ?_,
      fun hfull => ⟨fun _ _ => ⟨ht, hroot, ?_⟩, fun h16 => ?_⟩⟩⟩
    · rintro (⟨hthere, -⟩ | ⟨-, hmake, -⟩)
      · exact hold hthere
      · exact hno hmake
    · subst hempty
      obtain ⟨j, hj, hno, hfirst, hindex, hblock⟩ := hmark
      have hplain := hl.plain_root hr hj
      have hwrite := rootName_write hplain (length_newEntry hlen dateTime)
      rw [take_newEntry hlen] at hwrite
      simp only [hindex, hblock]
      refine (cacheRawBlock_yields ht ⟨hplain.pos, hplain.lt⟩ true).mono (fun _ v hv => ?_)
        fun _ v hv hr => absurd hr hv.2
      obtain ⟨hv, hnum, hbuf, hdirty⟩ := hv
      have hedit : Holds (D.write (vol.rootDirStart + j / 16) (32 * (j % 16))
          (newEntry dname dateTime)) (v.edit (32 * (j % 16)) (newEntry dname dateTime)) := by
        rw [State.edit, hbuf]
        exact hv.edited hnum (hdirty rfl) hplain _
      refine (cacheFlush_yields hedit).mono (fun _ w hw => ?_) fun _ w hw hr => absurd hr hw.2
      refine ⟨hroot, _, j, hw.1, ⟨hl.put _ _, hlist.written hwrite hname hnew hfirst, ?_,
          fun hfiles => hfiles.written hplain hlen dateTime, id⟩,
        ⟨hj, ?_, rfl, hw.2.2.2.trans hnum⟩, Or.inr ⟨hnew, not_not.mp hmake, j, hj, hno⟩,
        Or.inr ⟨hnew, hno, rfl⟩⟩
      · intro k hk htaken
        rw [hwrite, if_neg]
        rintro rfl
        exact hno htaken
      · rw [hwrite, if_pos rfl]
    · obtain rfl : e = false := Bool.not_eq_true e ▸ hfull
      rintro (⟨hthere, -⟩ | ⟨-, -, k, hk, hno⟩)
      · exact hold hthere
      · exact hno (hmark k hk)
    · exact absurd hroot.type h16

theorem fatGet_keeps (hl : Laid vol D) (hD : Holds D v) (c : Nat) :
    Yields (fatGet vol c) v (fun _ w => Holds D w) fun _ w => Holds D w := by
  obtain hc | hc := Nat.lt_or_ge (vol.clusterCount + 1) c
  · unfold fatGet
    rw [if_pos hc]
    exact hD
  · exact (fatGet_yields hD hl hc).mono (fun _ _ hw => hw.1) fun _ _ hw => hw.1

theorem sizeFrom_keeps (hl : Laid vol D) (hD : Holds D v) (n c m : Nat) :
    Yields (sizeFrom vol n c m) v (fun _ w => Holds D w) fun _ w => Holds D w := by
  induction n generalizing v c m with
  | zero => exact hD
  | succ n ih =>
    unfold sizeFrom
    simp only [yields_bind, yields_ite, yields_pure]
    refine (fatGet_keeps hl hD c).mono (fun r w hw => ⟨fun _ => hw, fun _ => ih hw _ _⟩)
      fun _ _ hw => hw

/-- The file is that of the entry in the cache. It is opened if the attributes are those of a file
that may be written. -/
theorem openCachedEntry_keeps (hl : Laid vol D) (hD : Holds D h.volume) {oflag : OpenMode}
    (htrunc : oflag.trunc = false) (i : Nat) (dateTime : Option (Nat × Nat)) :
    Yields (openCachedEntry vol i oflag dateTime) h
      (fun _ t => Holds D t.volume ∧ t.file.dirIndex = i ∧
        t.file.dirBlock = h.volume.cacheBlockNumber)
      (fun _ t => Holds D t.volume ∧ field h.volume.cacheBuffer (32 * i + 11) 1 &&& 0x19 ≠ 0) := by
  have hno : ¬ oflag.trunc = true := by simp [htrunc]
  have hbits {x m : Nat} (hm : 0x19 &&& m = m) (hne : x &&& m ≠ 0) : x &&& 0x19 ≠ 0 := by
    intro h0
    rw [← hm, ← Nat.and_assoc, h0, Nat.zero_and] at hne
    exact hne rfl
  unfold openCachedEntry
  simp only [yields_bind, yields_get, yields_ite, yields_throw, yields_pure, yields_onFile,
    yields_onVolume, chainSize]
  refine ⟨fun hmode => ⟨hD, hbits rfl hmode.1⟩, fun _ => ⟨fun _ => ?_, fun htype =>
    ⟨fun _ => ?_, fun _ => ⟨hD, hbits rfl htype⟩⟩⟩⟩
  · exact ⟨fun ht => absurd ht hno, fun _ => ⟨hD, trivial, trivial⟩⟩
  · refine (sizeFrom_keeps hl hD _ _ _).mono (fun _ w hw => ?_) fun _ _ hw => ⟨hw, hbits rfl htype⟩
    exact ⟨fun ht => absurd ht hno, fun _ => ⟨hw, trivial, trivial⟩⟩

theorem Found.attributes {i : Nat} (hf : Found vol D dname j i v) (hl : Laid vol D)
    (hr : vol.Rooted) (hD : Holds D v) (hname : Taken dname) (hfiles : OnlyFiles vol D.blocks) :
    field v.cacheBuffer (32 * i + 11) 1 &&& 0x19 = 0 := by
  obtain ⟨hj, rfl, rfl, hnum⟩ := hf
  have hlt : v.cacheBlockNumber < D.size := hnum ▸ (hl.plain_root hr hj).lt
  rw [hD.buffer hlt, hnum]
  exact hfiles j hj hname

theorem ShortName.taken_field (N : ShortName) : Taken N.field ∧ N.field.length = 11 := by
  have hlen : N.field.length = 11 := by
    rw [ShortName.field, List.length_append, length_padded N.base_le, length_padded N.extension_le]
  refine ⟨?_, hlen⟩
  cases hbase : N.base with
  | nil =>
    have hpos := N.base_pos
    simp [hbase] at hpos
  | cons c x =>
    have hc : Legal c := (N.capital c (by simp [hbase])).1
    have h0 : c ≠ 0 := by
      rintro rfl
      exact absurd hc (by decide)
    have h5 : c ≠ 0xE5 := by
      rintro rfl
      exact absurd hc (by decide)
    simp [Taken, ShortName.field, padded, hbase, h0, h5]

theorem make83Name_taken {str : List UInt8} (h : make83Name str = some dname) :
    Taken dname ∧ dname.length = 11 := by
  obtain ⟨N, -, rfl⟩ := (make83Name_spells str dname).mp h
  exact N.taken_field

def AtEntry (vol : SdVolume) (B : Nat → Block) (str : List UInt8) (f : SdFile) : Prop :=
  ∃ j, j < vol.rootDirEntryCount ∧ make83Name str = some (vol.rootName B j) ∧
    f.dirIndex = j % 16 ∧ f.dirBlock = vol.rootDirStart + j / 16

structure Opening where
  fileName : List UInt8
  oflag : OpenMode
  creat : Bool
  excl : Bool
  dateTime : Option (Nat × Nat)

/-- The text is a name, and there is an entry to open. -/
def Opens (vol : SdVolume) (B : Nat → Block) (o : Opening) : Prop :=
  ∃ dname, make83Name o.fileName = some dname ∧ Locates vol B dname o.oflag o.creat o.excl

/-- What `open` has found or made when it comes to the entry in the cache. -/
structure Located (vol : SdVolume) (D D' : Disk) (o : Opening) (dname : List UInt8) (j i : Nat)
    (t : DirAndFile) : Prop where
  root : vol.IsRoot t.dirFile
  holds : Holds D' t.volume
  grown : Grown vol D D'
  name : make83Name o.fileName = some dname
  found : Found vol D' dname j i t.volume
  opens : Opens vol D.blocks o
  which : D' = D ∨ Made vol D D' dname o.dateTime j

/-- An open goes on with the entry that it has found or made, or nothing has changed. -/
theorem openName_locates (hl : Laid vol D) (hr : vol.Rooted) (hlist : Listed vol D.blocks)
    (hD : Holds D s.volume) (hrel : D.reliable) (hf : vol.IsRoot s.dirFile)
    (hclosed : s.file.isOpen = false) {o : Opening} {Q : Unit → DirAndFile → Prop}
    {R : Stop → DirAndFile → Prop}
    (hopen : ∀ D' dname j i t, Located vol D D' o dname j i t →
      Yields (openCachedEntry vol i o.oflag o.dateTime) ⟨t.file, t.volume⟩
        (fun a h => Q a { t with file := h.file, volume := h.volume })
        fun e h => R e { t with file := h.file, volume := h.volume })
    (hno : ∀ e t, vol.IsRoot t.dirFile → Holds D t.volume → ¬ Opens vol D.blocks o → R e t) :
    Yields (openName vol o.fileName o.oflag o.creat o.excl o.dateTime) s Q R := by
  unfold openName
  simp only [yields_bind, yields_get, yields_ite, yields_throw]
  refine ⟨fun hopen => absurd hopen (by simp [hclosed]), fun _ => ?_⟩
  cases hstr : make83Name o.fileName with
  | none =>
    refine hno _ _ hf hD fun hopens => ?_
    obtain ⟨dname, hdname, -⟩ := hopens
    exact absurd (hstr.symm.trans hdname) (by simp)
  | some dname =>
    obtain ⟨hname, hlen⟩ := make83Name_taken hstr
    simp only [yields_bind, yields_onOpened]
    refine (locate_yields hl hr hlist hD hf hname hlen o.oflag o.creat o.excl o.dateTime).mono
      (fun i t ht => ?_) fun e t ht => ?_
    · obtain ⟨hroot, D', j, hD', hgrown, hfound, hlocates, hwhich⟩ := ht
      exact hopen D' dname j i t
        ⟨hroot, hD', hgrown, hstr, hfound, ⟨dname, hstr, hlocates⟩, hwhich⟩
    · obtain ⟨ht, hroot, hrefused⟩ := ht hrel
      refine hno e t hroot ht fun hopens => ?_
      obtain ⟨dname', hdname, hlocates⟩ := hopens
      obtain rfl : dname = dname' := Option.some.inj (hstr.symm.trans hdname)
      exact hrefused hlocates

theorem Located.attributes {o : Opening} {i : Nat} {t : DirAndFile}
    (ht : Located vol D D' o dname j i t) (hr : vol.Rooted) (hfiles : OnlyFiles vol D.blocks) :
    field t.volume.cacheBuffer (32 * i + 11) 1 &&& 0x19 = 0 :=
  ht.found.attributes ht.grown.laid hr ht.holds (make83Name_taken ht.name).1
    (ht.grown.files hfiles)

theorem openName_yields (hl : Laid vol D) (hr : vol.Rooted) (hlist : Listed vol D.blocks)
    (hD : Holds D s.volume) (hrel : D.reliable) (hf : vol.IsRoot s.dirFile)
    (hclosed : s.file.isOpen = false) {o : Opening} (htrunc : o.oflag.trunc = false) :
    Yields (openName vol o.fileName o.oflag o.creat o.excl o.dateTime) s
      (fun _ t => vol.IsRoot t.dirFile ∧ ∃ D', Holds D' t.volume ∧ Grown vol D D' ∧
        AtEntry vol D'.blocks o.fileName t.file ∧ Opens vol D.blocks o)
      (fun _ t => vol.IsRoot t.dirFile ∧ ∃ D', Holds D' t.volume ∧ Grown vol D D' ∧
        (OnlyFiles vol D.blocks → ¬ Opens vol D.blocks o)) := by
  refine openName_locates hl hr hlist hD hrel hf hclosed (fun D' dname j i t ht => ?_)
    fun e t hroot hD hno => ⟨hroot, D, hD, .refl hl hlist, fun _ => hno⟩
  obtain ⟨hj, hjname, hi, hnum⟩ := ht.found
  refine (openCachedEntry_keeps (h := ⟨t.file, t.volume⟩) ht.grown.laid ht.holds htrunc i
    o.dateTime).mono (fun _ u hu => ?_) fun _ u hu => ?_
  · exact ⟨ht.root, D', hu.1, ht.grown, ⟨j, hj, by rw [hjname, ht.name], hu.2.1.trans hi,
      hu.2.2.trans hnum⟩, ht.opens⟩
  · exact ⟨ht.root, D', hu.1, ht.grown, fun hfiles => absurd (ht.attributes hr hfiles) hu.2⟩

def closedFile : SdFile where
  type := .closed
  forRead := false
  forWrite := false
  append := false
  syncAlways := false
  unbufferedRead := false
  dirDirty := false
  curCluster := 0
  curPosition := 0
  dirBlock := 0
  dirIndex := 0
  fileSize := 0
  firstCluster := 0
  writeError := false

def openIn (vol : SdVolume) (s : Handle) (o : Opening) :
    Option (Except Stop SdFile × Handle) :=
  let (r, t) := outcome (openName vol o.fileName o.oflag o.creat o.excl o.dateTime)
    ⟨s.file, closedFile, s.volume⟩
  some (r.map fun _ => t.file, ⟨t.dirFile, t.volume⟩)

theorem openRoot_yields {v : State} (h16 : vol.fatType = 16) :
    Yields (openRoot vol) ⟨closedFile, v⟩ (fun _ t => t.volume = v ∧ vol.IsRoot t.file)
      fun _ _ => False := by
  unfold openRoot
  simp only [yields_bind, yields_getFile, yields_ite, yields_throw, yields_onFile,
    yields_onVolume]
  refine ⟨fun hno => absurd hno (by decide), fun _ => ⟨fun _ => ⟨trivial, rfl, rfl, rfl, rfl⟩,
    fun hno => absurd h16 hno⟩⟩

theorem AtEntry.grown {str : List UInt8} (ha : AtEntry vol D.blocks str f)
    (hg : Grown vol D D') : AtEntry vol D'.blocks str f := by
  obtain ⟨k, hk, hstr, hplace⟩ := ha
  refine ⟨k, hk, ?_, hplace⟩
  rw [hg.taken k hk (make83Name_taken hstr).1, hstr]

theorem openIn_keeps (hl : Laid vol D) (hr : vol.Rooted) (hlist : Listed vol D.blocks)
    {s : Handle} (hD : Holds D s.volume) (hrel : D.reliable) (hf : vol.IsRoot s.file)
    {o : Opening} (htrunc : o.oflag.trunc = false) :
    ∃ r t, openIn vol s o = some (r, t) ∧ vol.IsRoot t.file ∧ ∃ D', Holds D' t.volume ∧
      Grown vol D D' ∧ (∀ f, r = .ok f → AtEntry vol D'.blocks o.fileName f) ∧
      (OnlyFiles vol D.blocks → ((∃ f, r = .ok f) ↔ Opens vol D.blocks o)) := by
  have hout := ((openName_yields (s := ⟨s.file, closedFile, s.volume⟩) hl hr hlist hD hrel hf
    rfl htrunc).mono (fun _ t ht => ?_) fun _ t ht => ?_).outcome
      (P := fun r t => vol.IsRoot t.dirFile ∧ ∃ D', Holds D' t.volume ∧ Grown vol D D' ∧
        (∀ f, (r.map fun _ => t.file) = .ok f → AtEntry vol D'.blocks o.fileName f) ∧
        (OnlyFiles vol D.blocks →
          ((∃ f, (r.map fun _ => t.file) = .ok f) ↔ Opens vol D.blocks o)))
  · exact ⟨_, _, rfl, hout⟩
  · obtain ⟨hroot, D', hD', hg, ha, hopens⟩ := ht
    refine ⟨hroot, D', hD', hg, fun f hf => ?_, fun _ => ⟨fun _ => hopens, fun _ => ⟨_, rfl⟩⟩⟩
    obtain rfl : t.file = f := by simpa [Except.map] using hf
    exact ha
  · obtain ⟨hroot, D', hD', hg, hno⟩ := ht
    refine ⟨hroot, D', hD', hg, fun f hf => by simp [Except.map] at hf, fun hfiles =>
      ⟨fun hok => ?_, fun hopens => absurd hopens (hno hfiles)⟩⟩
    obtain ⟨f, hf⟩ := hok
    simp [Except.map] at hf

theorem smallVolume_rooted : smallVolume.Rooted := ⟨by decide, by decide, by decide⟩

theorem blank_listed (accesses : List Access) : Listed smallVolume (blankCard accesses).blocks := by
  have hfree (k : Nat) : (smallVolume.rootName (blankCard accesses).blocks k).head? = some 0 := by
    simp [SdVolume.rootName, blankCard, slice, List.head?_eq_getElem?]
  exact ⟨fun _ k _ _ _ => hfree k, fun j _ _ _ ht => absurd (hfree j) ht.1⟩

theorem blank_onlyFiles (accesses : List Access) :
    OnlyFiles smallVolume (blankCard accesses).blocks := by
  intro k _ _
  simp [field, slice, blankCard, number, List.range_succ]

def threeOpenings : List Opening :=
  [⟨[0x41, 0x2E, 0x42], ⟨true, true, false, false, false⟩, true, false, none⟩,
    ⟨[0x43], ⟨true, false, false, false, false⟩, false, false, none⟩,
    ⟨[0x61, 0x2E, 0x62], ⟨true, false, false, false, false⟩, false, false, none⟩]

theorem openIn_run_iff (hr : vol.Rooted) {os : List Opening}
    (hos : ∀ o ∈ os, o.oflag.trunc = false) (hl : Laid vol D) (hlist : Listed vol D.blocks)
    (hfiles : OnlyFiles vol D.blocks) {s : Handle} (hD : Holds D s.volume) (hrel : D.reliable) (hf : vol.IsRoot s.file) :
    Keeps (openIn vol) (fun s o r _ => (∃ f, r = .ok f) ↔ Opens vol s.volume.contents o) os s := by
  induction os generalizing s D with
  | nil => trivial
  | cons o os ih =>
    obtain ⟨ho, hos⟩ := List.forall_mem_cons.mp hos
    obtain ⟨r, t, hopened, hroot, D', hD', hg, -, hopens⟩ := openIn_keeps hl hr hlist hD hrel hf ho
    exact keeps_cons.mpr ⟨r, t, hopened, hD.contents ▸ hopens hfiles,
      ih hos hg.laid hg.listed (hg.files hfiles) hD' (hg.reliable hrel) hroot⟩

/-- Where all entries are those of files, an open fails only for a text that is no name, or for a
name that is not there and must not be made or has no room, or is there and must not. -/
theorem run_opens_iff {card : Card} (hfits : vol.Fits card.size) (hle : card.size ≤ noBlock)
    (hr : vol.Rooted) (h16 : vol.fatType = 16) (hcard : card.accesses = [])
    (hlist : Listed vol card.blocks) (hfiles : OnlyFiles vol card.blocks) {os : List Opening}
    (hos : ∀ o ∈ os, o.oflag.trunc = false) :
    ∃ h, openRoot vol ⟨closedFile, { sdCard := card }⟩ = .ok () h ∧
      Keeps (openIn vol)
        (fun s o r _ => (∃ f, r = .ok f) ↔ Opens vol s.volume.contents o) os h := by
  obtain ⟨_, h, hopen, hvolume, hroot⟩ := (openRoot_yields h16).total fun _ _ h => h
  have hD : Holds (vol.disk card hfits hle) h.volume := hvolume ▸ hfits.holds hle
  exact ⟨h, hopen, openIn_run_iff hr hos (hfits.laid hle) hlist hfiles hD hcard hroot⟩

theorem run_opens_iff_threeOpenings :
    ∃ h, openRoot smallVolume ⟨closedFile, { sdCard := blankCard [] }⟩ = .ok () h ∧
      Keeps (openIn smallVolume)
        (fun s o r _ => (∃ f, r = .ok f) ↔ Opens smallVolume s.volume.contents o) threeOpenings h :=
  run_opens_iff smallVolume_fits (by decide) smallVolume_rooted rfl rfl
    (blank_listed []) (blank_onlyFiles []) (by decide)

end RasPiArduino.Sd
