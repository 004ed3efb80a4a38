import RasPiArduino.SdCache

/-! The file allocation table of a volume, read and written through the cache. -/
namespace RasPiArduino.Sd
open LittleEndian Outcome

def SdVolume.entry (vol : SdVolume) (D : Disk) (c : Nat) : Nat :=
  vol.entryIn (D.blocks (vol.fatBlock c)) c

/-- What an entry keeps of a value. -/
def SdVolume.kept (vol : SdVolume) (value : Nat) : Nat :=
  if vol.fatType = 16 then value % 2^16 else value % 2^28

/-- The tables and the clusters lie one behind the other on a card of `size` blocks. -/
structure SdVolume.Fits (vol : SdVolume) (size : Nat) : Prop where
  fatStart : 0 < vol.fatStartBlock
  covers : vol.fatBlock (vol.clusterCount + 1) < vol.fatStartBlock + vol.blocksPerFat
  tables : vol.fatStartBlock + vol.fatCount * vol.blocksPerFat ≤ vol.dataStartBlock
  fatCount : 0 < vol.fatCount
  size : vol.dataStartBlock + vol.clusterCount * 2^vol.clusterSizeShift ≤ size
  clusters : vol.isEOC (vol.clusterCount + 1) = false
  blocksPerCluster : vol.blocksPerCluster = 2^vol.clusterSizeShift

/-- The blocks of the first table have a mirror in the second, if there is one. -/
def SdVolume.mirrorOf (vol : SdVolume) (b : Nat) : Nat :=
  if 1 < vol.fatCount ∧ vol.fatStartBlock ≤ b ∧ b < vol.fatStartBlock + vol.blocksPerFat
  then b + vol.blocksPerFat else 0

/-- The volume fits into the store, which keeps its mirror and begins to search in its table. -/
structure Laid (vol : SdVolume) (D : Disk) : Prop extends vol.Fits D.size where
  mirrorOf : ∀ b, D.mirrorOf b = vol.mirrorOf b
  start : 2 ≤ D.start ∧ D.start ≤ vol.clusterCount + 2

variable {vol : SdVolume} {D : Disk} {v : State} {b c d value : Nat} {data : Block}

theorem Laid.put (h : Laid vol D) (b : Nat) (data : Block) : Laid vol (D.put b data) :=
  ⟨h.toFits, h.mirrorOf, h.start⟩

theorem Laid.unless (h : Laid vol D) (p : Prop) : Laid vol (D.unless p) :=
  ⟨h.toFits, h.mirrorOf, h.start⟩

theorem Laid.fatEnd (h : Laid vol D) : vol.fatStartBlock + vol.blocksPerFat ≤ vol.dataStartBlock :=
  (Nat.add_le_add_left (Nat.le_mul_of_pos_left _ h.fatCount) _).trans h.tables

theorem SdVolume.fatBlock_mono (vol : SdVolume) (hcd : c ≤ d) : vol.fatBlock c ≤ vol.fatBlock d := by
  unfold SdVolume.fatBlock
  split <;> exact Nat.add_le_add_left (Nat.div_le_div_right hcd) _

theorem SdVolume.le_fatBlock (vol : SdVolume) (c : Nat) : vol.fatStartBlock ≤ vol.fatBlock c :=
  Nat.le_add_right _ _

theorem Laid.fatBlock_lt (h : Laid vol D) (hc : c ≤ vol.clusterCount + 1) :
    vol.fatBlock c < vol.fatStartBlock + vol.blocksPerFat :=
  (vol.fatBlock_mono hc).trans_lt h.covers

theorem Laid.inStore (h : Laid vol D) (hc : c ≤ vol.clusterCount + 1) :
    0 < vol.fatBlock c ∧ vol.fatBlock c < D.size := by
  have := vol.le_fatBlock c
  have := h.fatBlock_lt hc
  have := h.fatEnd
  have := h.fatStart
  have := h.size
  omega

theorem Laid.mirror_cases (h : Laid vol D) (b : Nat) : D.mirrorOf b = 0 ∨
    2 * vol.blocksPerFat ≤ vol.fatCount * vol.blocksPerFat ∧ vol.fatStartBlock ≤ b ∧
      b < vol.fatStartBlock + vol.blocksPerFat ∧ D.mirrorOf b = b + vol.blocksPerFat := by
  rw [h.mirrorOf, SdVolume.mirrorOf]
  split
  · rename_i hm
    exact Or.inr ⟨Nat.mul_le_mul_right _ hm.1, hm.2.1, hm.2.2, rfl⟩
  · exact Or.inl rfl

theorem Laid.plain (h : Laid vol D) (hb : vol.fatStartBlock + vol.fatCount * vol.blocksPerFat ≤ b)
    (hlt : b < D.size) : D.Plain b := by
  have hone := Nat.le_mul_of_pos_left vol.blocksPerFat h.fatCount
  have hpos := h.fatStart
  refine ⟨by omega, hlt, ?_, fun c hc => ?_⟩
  · rw [h.mirrorOf, SdVolume.mirrorOf, if_neg (by omega)]
  · obtain hm | ⟨_, _, _, hm⟩ := h.mirror_cases c <;> omega

theorem cacheTable_yields (h : Holds D v) (hl : Laid vol D) (hc : c ≤ vol.clusterCount + 1) :
    Yields (if vol.fatBlock c ≠ v.cacheBlockNumber then cacheRawBlock (vol.fatBlock c) false
        else pure ()) v
      (fun _ w => Holds D w ∧ w.cacheBlockNumber = vol.fatBlock c ∧
        w.cacheBuffer = D.blocks (vol.fatBlock c))
      (fun _ w => Holds D w ∧ ¬ D.reliable) := by
  simp only [yields_ite, yields_pure]
  refine ⟨fun _ => ?_, fun he => ?_⟩
  · exact (cacheRawBlock_yields h (hl.inStore hc) false).mono
      (fun _ w hw => ⟨hw.1, hw.2.1, hw.2.2.1⟩) fun _ w hw => hw
  · have he := not_not.mp he
    exact ⟨h, he.symm, he ▸ h.buffer (he ▸ (hl.inStore hc).2)⟩

theorem fatGet_yields (h : Holds D v) (hl : Laid vol D) (hc : c ≤ vol.clusterCount + 1) :
    Yields (fatGet vol c) v (fun f w => Holds D w ∧ f = vol.entry D c)
      (fun _ w => Holds D w ∧ ¬ D.reliable) := by
  have htable := cacheTable_yields h hl hc
  simp only [yields_ite, yields_pure] at htable
  unfold fatGet
  simp only [yields_bind, yields_get, yields_ite, yields_throw, yields_pure]
  refine ⟨fun hgt => absurd hc (Nat.not_le.mpr hgt), fun _ => ⟨fun hne => ?_, fun he => ?_⟩⟩
  · refine (htable.1 hne).mono (fun _ w hw => ?_) fun _ w hw => hw
    exact ⟨hw.1, by rw [hw.2.2]; rfl⟩
  · obtain ⟨hv, -, hbuf⟩ := htable.2 he
    exact ⟨hv, by rw [hbuf]; rfl⟩

def SdVolume.place (vol : SdVolume) (c : Nat) : Nat :=
  if vol.fatType = 16 then 2 * (c % 256) else 4 * (c % 128)

def SdVolume.width (vol : SdVolume) : Nat := if vol.fatType = 16 then 2 else 4

def SdVolume.withEntry (vol : SdVolume) (D : Disk) (c value : Nat) : Disk :=
  D.write (vol.fatBlock c) (vol.place c) (bytesOf vol.width value)

theorem Laid.withEntry (h : Laid vol D) (c value : Nat) : Laid vol (vol.withEntry D c value) :=
  h.put _ _

theorem SdVolume.entryIn_eq (vol : SdVolume) (b : Block) (c : Nat) :
    vol.entryIn b c = vol.kept (number (slice b (vol.place c) vol.width)) := by
  unfold SdVolume.entryIn SdVolume.kept SdVolume.place SdVolume.width fat16 fat32
  split
  · have := number_lt (slice b (2 * (c % 256)) 2)
    rw [length_slice] at this
    exact (Nat.mod_eq_of_lt this).symm
  · rfl

theorem SdVolume.place_le (vol : SdVolume) (c : Nat) : vol.place c + vol.width ≤ 512 := by
  unfold SdVolume.place SdVolume.width
  split <;> omega

theorem SdVolume.place_apart (vol : SdVolume) (hne : c ≠ d) (hb : vol.fatBlock c = vol.fatBlock d) :
    vol.place d + vol.width ≤ vol.place c ∨ vol.place c + vol.width ≤ vol.place d := by
  unfold SdVolume.fatBlock at hb
  unfold SdVolume.place SdVolume.width
  split at hb <;> simp only [*, if_true, if_false] <;> omega

theorem Laid.kept_cluster (h : Laid vol D) (hc : c ≤ vol.clusterCount + 1) :
    vol.kept c = c ∧ vol.isEOC c = false := by
  have hend := h.clusters
  unfold SdVolume.isEOC at hend ⊢
  unfold SdVolume.kept
  split at hend <;> simp only [*, if_true, if_false, decide_eq_false_iff_not] at hend ⊢ <;> omega

theorem Laid.cluster_lt (h : Laid vol D) (hc : c ≤ vol.clusterCount + 1) : c < 2^32 := by
  have hpos := Nat.le_mul_of_pos_right vol.clusterCount (Nat.two_pow_pos vol.clusterSizeShift)
  have := h.fatStart
  have := h.tables
  have := h.size
  have := D.size_le
  unfold noBlock at this
  omega

theorem SdVolume.isEOC_kept (vol : SdVolume) : vol.isEOC (vol.kept 0x0FFFFFFF) = true := by
  unfold SdVolume.isEOC SdVolume.kept
  split <;> decide

theorem SdVolume.kept_zero (vol : SdVolume) : vol.kept 0 = 0 := by
  unfold SdVolume.kept
  split <;> rfl

theorem SdVolume.isEOC_zero (vol : SdVolume) : vol.isEOC 0 = false := by
  unfold SdVolume.isEOC
  split <;> rfl

theorem SdVolume.kept_kept (vol : SdVolume) (value : Nat) :
    vol.kept (value % 256^vol.width) = vol.kept value := by
  unfold SdVolume.kept SdVolume.width
  split
  · exact Nat.mod_mod _ _
  · exact Nat.mod_mod_of_dvd value (pow_dvd_pow 2 (show 28 ≤ 32 by decide))

theorem SdVolume.entry_withEntry (vol : SdVolume) (D : Disk) (c value : Nat) :
    vol.entry (vol.withEntry D c value) c = vol.kept value := by
  have hblock : (vol.withEntry D c value).blocks (vol.fatBlock c) =
      splice (D.blocks (vol.fatBlock c)) (vol.place c) (bytesOf vol.width value) :=
    if_pos (Or.inl rfl)
  have hslice : slice (splice (D.blocks (vol.fatBlock c)) (vol.place c) (bytesOf vol.width value))
      (vol.place c) (bytesOf vol.width value).length = bytesOf vol.width value :=
    slice_splice_self (by simpa using vol.place_le c)
  rw [length_bytesOf] at hslice
  rw [SdVolume.entry, hblock, vol.entryIn_eq, hslice, number_bytesOf, vol.kept_kept]

theorem Laid.entry_withEntry_of_ne (h : Laid vol D) (hne : d ≠ c)
    (hd : d ≤ vol.clusterCount + 1) (value : Nat) :
    vol.entry (vol.withEntry D c value) d = vol.entry D d := by
  unfold SdVolume.entry
  by_cases hb : vol.fatBlock d = vol.fatBlock c
  · have hblock : (vol.withEntry D c value).blocks (vol.fatBlock d) =
        splice (D.blocks (vol.fatBlock d)) (vol.place c) (bytesOf vol.width value) := by
      rw [hb]
      exact if_pos (Or.inl rfl)
    rw [hblock, vol.entryIn_eq, vol.entryIn_eq,
      slice_splice_of_disjoint (vol.place_le d) (by simpa using vol.place_apart hne.symm hb.symm)]
  · have hno : ¬ (vol.fatBlock d = vol.fatBlock c ∨
        D.mirrorOf (vol.fatBlock c) ≠ 0 ∧ vol.fatBlock d = D.mirrorOf (vol.fatBlock c)) := by
      rintro (he | ⟨hm, he⟩)
      · exact hb he
      · have := h.fatBlock_lt hd
        obtain hm' | ⟨_, _, _, hm'⟩ := h.mirror_cases (vol.fatBlock c) <;> omega
    exact congrArg (vol.entryIn · d) (if_neg hno)

theorem Laid.blocks_withEntry (h : Laid vol D) (hc : c ≤ vol.clusterCount + 1)
    (hb : vol.fatStartBlock + vol.fatCount * vol.blocksPerFat ≤ b) (value : Nat) :
    (vol.withEntry D c value).blocks b = D.blocks b := by
  refine if_neg ?_
  have hone := Nat.le_mul_of_pos_left vol.blocksPerFat h.fatCount
  have hlt := h.fatBlock_lt hc
  rintro (he | ⟨hm, he⟩)
  · omega
  · obtain hm' | ⟨_, _, _, hm'⟩ := h.mirror_cases (vol.fatBlock c) <;> omega

theorem Laid.entry_put (h : Laid vol D) (hc : c ≤ vol.clusterCount + 1)
    (hb : vol.fatStartBlock + vol.fatCount * vol.blocksPerFat ≤ b) (hlt : b < D.size)
    (data : Block) : vol.entry (D.put b data) c = vol.entry D c := by
  have hone := Nat.le_mul_of_pos_left vol.blocksPerFat h.fatCount
  have := h.fatBlock_lt hc
  unfold SdVolume.entry
  rw [(h.plain hb hlt).put_apply, Function.update_of_ne (by omega)]

theorem fatPut_yields (h : Holds D v) (hl : Laid vol D) (hc : 2 ≤ c ∧ c ≤ vol.clusterCount + 1)
    (value : Nat) : Yields (fatPut vol c value) v
      (fun _ w => Holds (vol.withEntry D c value) w)
      (fun _ w => Holds D w ∧ ¬ D.reliable) := by
  have hput {w : State} (hw : Holds D w ∧ w.cacheBlockNumber = vol.fatBlock c ∧
      w.cacheBuffer = D.blocks (vol.fatBlock c)) : Holds (vol.withEntry D c value)
        { w.edit (vol.place c) (bytesOf vol.width value) with
          cacheDirty := true
          cacheMirrorBlock := if vol.fatCount > 1 then vol.fatBlock c + vol.blocksPerFat
            else (w.edit (vol.place c) (bytesOf vol.width value)).cacheMirrorBlock } := by
    obtain ⟨hw, hnum, hbuf⟩ := hw
    have hin := hl.inStore hc.2
    have hmirror : D.mirrorOf (vol.fatBlock c) = if vol.fatCount > 1
        then vol.fatBlock c + vol.blocksPerFat else w.cacheMirrorBlock := by
      rw [hl.mirrorOf, SdVolume.mirrorOf]
      by_cases hcount : vol.fatCount > 1
      · rw [if_pos hcount, if_pos ⟨hcount, vol.le_fatBlock c, hl.fatBlock_lt hc.2⟩]
      · rw [if_neg hcount, if_neg fun hm => hcount hm.1]
        by_contra hm
        have hmirrored := hw.mirrored (Ne.symm hm)
        rw [hl.mirrorOf, SdVolume.mirrorOf, if_neg fun hm => hcount hm.1] at hmirrored
        exact hm hmirrored.symm
    have hdisk := hw.put hnum hin.1 hin.2 (splice (D.blocks (vol.fatBlock c)) (vol.place c)
      (bytesOf vol.width value))
    rw [hmirror, ← hbuf] at hdisk
    unfold SdVolume.withEntry Disk.write
    rw [← hbuf]
    exact hdisk
  have htable := cacheTable_yields h hl hc.2
  simp only [yields_ite, yields_pure] at htable
  unfold fatPut cacheSetDirty
  simp only [yields_bind, yields_get, yields_ite, yields_throw, yields_pure, yields_modify]
  refine ⟨fun hlt => by omega, fun _ => ⟨fun hgt => by omega, fun _ => ⟨fun hne => ?_,
    fun he => ?_⟩⟩⟩
  · refine (htable.1 hne).mono (fun _ w hw => ?_) fun _ w hw => hw
    refine ⟨fun h16 => ⟨fun hf => ?_, fun hf => ?_⟩, fun h16 => ⟨fun hf => ?_, fun hf => ?_⟩⟩ <;>
      simpa only [SdVolume.place, SdVolume.width, h16, hf, if_true, if_false] using hput hw
  · have hv := hput (htable.2 he)
    refine ⟨fun h16 => ⟨fun hf => ?_, fun hf => ?_⟩, fun h16 => ⟨fun hf => ?_, fun hf => ?_⟩⟩ <;>
      simpa only [SdVolume.place, SdVolume.width, h16, hf, if_true, if_false] using hv

theorem SdVolume.Fits.mirrorOf_lt {size : Nat} (h : vol.Fits size) (b : Nat) :
    vol.mirrorOf b < size := by
  have := h.fatStart
  have := h.tables
  have := h.size
  unfold SdVolume.mirrorOf
  split
  · rename_i hm
    have := Nat.mul_le_mul_right vol.blocksPerFat (show 2 ≤ vol.fatCount from hm.1)
    have := h.covers
    have := vol.le_fatBlock (vol.clusterCount + 1)
    omega
  · omega

/-- What a card stands for before anything is in the cache. -/
def SdVolume.disk (vol : SdVolume) (card : Card) (h : vol.Fits card.size)
    (hle : card.size ≤ noBlock) : Disk where
  blocks := card.blocks
  size := card.size
  start := 2
  size_le := hle
  mirrorOf := vol.mirrorOf
  mirrorOf_lt := h.mirrorOf_lt
  reliable := card.accesses = []

theorem SdVolume.Fits.laid {card : Card} (h : vol.Fits card.size) (hle : card.size ≤ noBlock) :
    Laid vol (vol.disk card h hle) := by
  refine ⟨h, fun _ => rfl, Nat.le_refl 2, ?_⟩
  change 2 ≤ vol.clusterCount + 2
  omega

theorem SdVolume.Fits.holds {card : Card} (h : vol.Fits card.size) (hle : card.size ≤ noBlock) :
    Holds (vol.disk card h hle) { sdCard := card } where
  contents := contents_of_clean rfl
  size := rfl
  start := rfl
  clean := fun _ hlt => absurd hlt (Nat.not_lt.mpr hle)
  unmirrored := fun _ => rfl
  mirrored := fun hm => absurd rfl hm
  reliable := id
  writable := fun _ hd => absurd hd Bool.false_ne_true

def smallVolume : SdVolume where
  blocksPerCluster := 1
  blocksPerFat := 1
  clusterCount := 3
  clusterSizeShift := 0
  dataStartBlock := 4
  fatCount := 2
  fatStartBlock := 1
  fatType := 16
  rootDirEntryCount := 16
  rootDirStart := 3

theorem smallVolume_fits : smallVolume.Fits 7 :=
  ⟨by decide, by decide, by decide, by decide, by decide, by decide, by decide⟩

def blankCard (accesses : List Access) : Card := ⟨fun _ _ => 0, 7, accesses⟩

def blankDisk (accesses : List Access) : Disk :=
  smallVolume.disk (blankCard accesses) smallVolume_fits (show 7 ≤ noBlock by decide)

theorem blank_laid (accesses : List Access) : Laid smallVolume (blankDisk accesses) :=
  smallVolume_fits.laid _

theorem blank_holds (accesses : List Access) :
    Holds (blankDisk accesses) { sdCard := blankCard accesses } :=
  smallVolume_fits.holds _

theorem blank_entry (accesses : List Access) {c : Nat} (hc : 2 ≤ c ∧ c ≤ 4) :
    smallVolume.entry (blankDisk accesses) c = 0 := by
  obtain rfl | rfl | rfl : c = 2 ∨ c = 3 ∨ c = 4 := by omega
  all_goals rfl

end RasPiArduino.Sd
