import RasPiArduino.SdDirectory
import RasPiArduino.SdStore

/-! What `init` reads of a card that has been formatted: a volume that lies on the card, as the runs
on a volume take it. -/
namespace RasPiArduino.Sd
open LittleEndian Outcome

/-! The numbers of a boot sector. -/

def sectorsPerFat (bpb : Block) : Nat :=
  if field bpb 22 2 ≠ 0 then field bpb 22 2 else field bpb 36 4

def totalSectors (bpb : Block) : Nat :=
  if field bpb 19 2 ≠ 0 then field bpb 19 2 else field bpb 32 4

def systemSectors (bpb : Block) : Nat :=
  field bpb 14 2 + field bpb 16 1 * sectorsPerFat bpb + (32 * field bpb 17 2 + 511) / 512

def clusters (bpb : Block) : Nat := (totalSectors bpb - systemSectors bpb) / field bpb 13 1

def entriesPerSector (bpb : Block) : Nat :=
  if 4085 ≤ clusters bpb ∧ clusters bpb < 65525 then 256 else 128

/-- The boot sector of a volume that lies on a card of `size` blocks, with an entry of the table for
each cluster. -/
structure Formatted (bpb : Block) (volumeStartBlock size : Nat) : Prop where
  lies : volumeStartBlock + totalSectors bpb ≤ size
  system : systemSectors bpb ≤ totalSectors bpb
  entries : clusters bpb + 1 < entriesPerSector bpb * sectorsPerFat bpb
  numbers : clusters bpb + 1 < 0x0FFFFFF8

variable {bpb : Block} {b volumeStartBlock size : Nat} {vol : SdVolume} {card : Card} {v : State}

/-- The fields of a volume on the card, in which nothing wraps. -/
theorem bootSector_fields (h : bootSector bpb volumeStartBlock = some vol)
    (hf : Formatted bpb volumeStartBlock size) (hsize : size < 2^32) :
    0 < field bpb 14 2 ∧ 0 < vol.fatCount ∧ field bpb 13 1 = 2^vol.clusterSizeShift ∧
      vol.fatType = (if clusters bpb < 4085 then 12 else if clusters bpb < 65525 then 16 else 32) ∧
      vol.blocksPerCluster = field bpb 13 1 ∧ vol.blocksPerFat = sectorsPerFat bpb ∧
      vol.clusterCount = clusters bpb ∧ vol.fatCount = field bpb 16 1 ∧
      vol.fatStartBlock = volumeStartBlock + field bpb 14 2 ∧
      vol.dataStartBlock = volumeStartBlock + systemSectors bpb ∧
      vol.rootDirEntryCount = field bpb 17 2 ∧
      (vol.fatType ≠ 32 → vol.rootDirStart =
        volumeStartBlock + field bpb 14 2 + field bpb 16 1 * sectorsPerFat bpb) := by
  obtain ⟨hlies, hsystem, -, -⟩ := hf
  unfold bootSector at h
  split at h
  · cases h
  · next hgood =>
    split at h
    · cases h
    · next shift hshift =>
      have hpow : field bpb 13 1 = 2^shift := by simpa using List.find?_some hshift
      have hfat : (volumeStartBlock + field bpb 14 2) % 2^32 = volumeStartBlock + field bpb 14 2 :=
        Nat.mod_eq_of_lt (by unfold systemSectors at hsystem; omega)
      have hroot : (volumeStartBlock + field bpb 14 2 + field bpb 16 1 * sectorsPerFat bpb) % 2^32 =
          volumeStartBlock + field bpb 14 2 + field bpb 16 1 * sectorsPerFat bpb :=
        Nat.mod_eq_of_lt (by unfold systemSectors at hsystem; omega)
      have hdata : (volumeStartBlock + field bpb 14 2 + field bpb 16 1 * sectorsPerFat bpb +
          (32 * field bpb 17 2 + 511) / 512) % 2^32 = volumeStartBlock + systemSectors bpb := by
        rw [Nat.mod_eq_of_lt (by unfold systemSectors at hsystem; omega), systemSectors]
        omega
      have hblocks : (totalSectors bpb + volumeStartBlock + 2^32 -
          (volumeStartBlock + systemSectors bpb)) % 2^32 = totalSectors bpb - systemSectors bpb := by
        omega
      have hcount : (totalSectors bpb - systemSectors bpb) / 2^shift = clusters bpb := by
        rw [clusters, hpow]
      rw [← sectorsPerFat, ← totalSectors] at h
      simp only [hfat, hroot, hdata, hblocks, hcount] at h
      obtain rfl := Option.some.inj h
      refine ⟨by omega, by simp only; omega, hpow, rfl, rfl, rfl, rfl, rfl, rfl, rfl, rfl,
        fun hne => if_neg hne⟩

theorem field_lt (b : Block) (i n : Nat) : field b i n < 256^n := by
  have h := number_lt (slice b i n)
  rwa [length_slice] at h

/-- A volume that has been read fits on its card, and the root directory of FAT16 has its place. -/
theorem bootSector_fits (h : bootSector bpb volumeStartBlock = some vol)
    (hf : Formatted bpb volumeStartBlock size) (hsize : size < 2^32) :
    vol.Fits size ∧ (vol.fatType = 16 → vol.Rooted) := by
  obtain ⟨hreserved, hcopies, hpow, htype, hper, hfat, hcount, hcopy, hstart, hdata, hroots,
    hroot⟩ := bootSector_fields h hf hsize
  obtain ⟨hlies, hsystem, hentries, hnumbers⟩ := hf
  have hsectors : clusters bpb * field bpb 13 1 ≤ totalSectors bpb - systemSectors bpb :=
    Nat.div_mul_le_self _ _
  have h16 : vol.fatType = 16 ↔ 4085 ≤ clusters bpb ∧ clusters bpb < 65525 := by
    rw [htype]
    split
    · omega
    · split <;> omega
  refine ⟨⟨by omega, ?_, ?_, hcopies, ?_, ?_, hper.trans hpow⟩, fun ht => ⟨?_, ?_, ?_⟩⟩
  · -- the entry of the last cluster is in the table
    rw [SdVolume.fatBlock, hcount, hfat]
    by_cases ht : vol.fatType = 16
    · rw [entriesPerSector, if_pos (h16.mp ht)] at hentries
      rw [if_pos ht]
      omega
    · rw [entriesPerSector, if_neg (mt h16.mpr ht)] at hentries
      rw [if_neg ht]
      omega
  · rw [hstart, hcopy, hfat, hdata, systemSectors]
    omega
  · rw [hcount, ← hpow, hdata]
    omega
  · rw [SdVolume.isEOC, hcount]
    by_cases ht : vol.fatType = 16
    · have hlt := (h16.mp ht).2
      rw [if_pos ht]
      exact decide_eq_false (by omega)
    · rw [if_neg ht]
      exact decide_eq_false (by omega)
  · rw [hstart, hcopy, hfat, hroot (by omega)]
  · rw [hroot (by omega), hroots, hdata, systemSectors]
    omega
  · rw [hroots]
    exact field_lt _ _ _

/-- The boot sector of a floppy of 4130 sectors, with two tables of 17 and 16 root entries. -/
def floppy : Block := fun i =>
  match i.val with
  | 12 => 2
  | 13 | 14 => 1
  | 16 => 2
  | 17 => 16
  | 19 => 0x22
  | 20 => 0x10
  | 22 => 17
  | _ => 0

example : (bootSector floppy 0).isSome ∧ Formatted floppy 0 4130 :=
  ⟨by decide +kernel, by decide +kernel, by decide +kernel, by decide +kernel, by decide +kernel⟩

/-- Nothing has been written, and the cache holds a block of the card or none. -/
structure Unwritten (card : Card) (v : State) : Prop where
  blocks : v.sdCard.blocks = card.blocks
  size : v.sdCard.size = card.size
  accesses : card.accesses = [] → v.sdCard.accesses = []
  clean : v.cacheDirty = false
  mirror : v.cacheMirrorBlock = 0
  start : v.allocSearchStart = 2
  cached : v.cacheBlockNumber ≠ noBlock → v.cacheBuffer = card.blocks v.cacheBlockNumber

theorem Unwritten.used {w : State} (hv : Unwritten card v) (hw : Used v w) : Unwritten card w := by
  obtain ⟨l, rfl, hl⟩ := hw
  exact ⟨hv.blocks, hv.size, fun hc => hl (hv.accesses hc), hv.clean, hv.mirror, hv.start,
    hv.cached⟩

theorem Unwritten.blank (card : Card) : Unwritten card { sdCard := card } :=
  ⟨rfl, rfl, id, rfl, rfl, rfl, fun h => absurd rfl h⟩

theorem cacheRawBlock_unwritten (hv : Unwritten card v)
    (hb : b ≠ noBlock ∨ v.cacheBlockNumber ≠ b) : Yields (cacheRawBlock b false) v
      (fun _ w => Unwritten card w ∧ w.cacheBlockNumber = b ∧ w.cacheBuffer = card.blocks b)
      (fun _ w => Unwritten card w) := by
  have hclean : ¬ v.cacheDirty = true := by simp [hv.clean]
  unfold cacheRawBlock cacheFlush
  simp only [yields_bind, yields_get, yields_ite, yields_modify, yields_pure]
  refine ⟨fun _ => ⟨fun hd => absurd hd hclean, fun _ => ?_⟩, fun hsame => ?_⟩
  · refine (readBlock_yields v b).mono (fun data w hw => ?_) fun _ w hw => hv.used hw.1
    obtain ⟨rfl, hw⟩ := hw
    have hw := hv.used hw
    have hblock : v.sdCard.blocks b = card.blocks b := congrFun hv.blocks b
    exact ⟨⟨hw.blocks, hw.size, hw.accesses, by simp [hw.clean], hw.mirror, hw.start,
      fun _ => hblock⟩, trivial, hblock⟩
  · obtain rfl : v.cacheBlockNumber = b := not_not.mp hsame
    have hcached := hv.cached (hb.resolve_right fun h => h rfl)
    exact ⟨⟨hv.blocks, hv.size, hv.accesses, by simp [hv.clean], hv.mirror, hv.start,
      fun _ => hcached⟩, rfl, hcached⟩

theorem partitionStart_ne_zero {part start : Nat} (h : partitionStart bpb part = some start) :
    start ≠ 0 := by
  unfold partitionStart at h
  dsimp only at h
  split at h
  · cases h
  · next hgood =>
    obtain rfl := Option.some.inj h
    exact fun h0 => hgood (Or.inr (Or.inr h0))

/-- Where a partition begins, or the whole card. -/
def Card.Begins (card : Card) (part start : Nat) : Prop :=
  if part = 0 then start = 0 else partitionStart (card.blocks 0) part = some start

/-- The volume is that of the boot sector of the partition. -/
theorem initPartition_yields (hv : Unwritten card v) (part : Nat) : Yields (initPartition part) v
    (fun vol w => Unwritten card w ∧ ∃ start, card.Begins part start ∧
      bootSector (card.blocks start) start = some vol)
    (fun _ w => Unwritten card w) := by
  unfold initPartition
  simp only [yields_bind, yields_ite, yields_throw, yields_get]
  refine ⟨fun hpart => ⟨fun _ => hv, fun _ => ?_⟩, fun hpart => ?_⟩
  · refine (cacheRawBlock_unwritten hv (Or.inl (by decide))).mono (fun _ w hw => ?_)
      fun _ _ hw => hw
    obtain ⟨hw, hnum, hb⟩ := hw
    rw [hb]
    cases hstart : partitionStart (card.blocks 0) part with
    | none => exact hw
    | some start =>
      have hne := partitionStart_ne_zero hstart
      have hbegins : card.Begins part start := (if_neg hpart).mpr hstart
      simp only [yields_bind, yields_get]
      refine (cacheRawBlock_unwritten hw (Or.inr (by omega))).mono (fun _ u hu => ?_)
        fun _ _ hu => hu
      rw [hu.2.2]
      cases hvol : bootSector (card.blocks start) start with
      | none => exact hu.1
      | some vol => exact ⟨hu.1, start, hbegins, hvol⟩
  · have hbegins : card.Begins part 0 := (if_pos (not_not.mp hpart)).mpr rfl
    refine (cacheRawBlock_unwritten hv (Or.inl (by decide))).mono (fun _ w hw => ?_)
      fun _ _ hw => hw
    rw [hw.2.2]
    cases hvol : bootSector (card.blocks 0) 0 with
    | none => exact hw.1
    | some vol => exact ⟨hw.1, 0, hbegins, hvol⟩

/-- The boot sector of the first partition, or that of the whole card, is that of a volume on the
card. -/
def Card.Formatted (card : Card) : Prop := ∀ part start, part ≤ 1 → card.Begins part start →
  ∀ vol, bootSector (card.blocks start) start = some vol →
    Sd.Formatted (card.blocks start) start card.size

theorem Unwritten.holds (hv : Unwritten card v) (hfits : vol.Fits card.size)
    (hle : card.size ≤ noBlock) : Holds (vol.disk card hfits hle) v where
  contents := (contents_of_clean hv.clean).trans hv.blocks
  size := hv.size
  start := hv.start
  clean := fun _ hlt => (hv.cached (hlt.trans_le hle).ne).trans (congrFun hv.blocks _).symm
  unmirrored := fun _ => hv.mirror
  mirrored := fun hm => absurd hv.mirror hm
  reliable := hv.accesses
  writable := fun _ hd => absurd (hv.clean.symm.trans hd) Bool.false_ne_true

/-- Of a card that has been formatted `init` reads a volume that fits on it, and leaves the cache as
the runs on the volume find it. -/
theorem init_yields (hcard : card.Formatted) (hle : card.size ≤ noBlock) :
    Yields init { sdCard := card }
      (fun vol w => vol.Fits card.size ∧ (vol.fatType = 16 → vol.Rooted) ∧ Coherent vol w)
      (fun _ w => Unwritten card w) := by
  have hlt : card.size < 2^32 := hle.trans_lt (by decide)
  have hread {vol : SdVolume} {w : State} {part start : Nat} (hw : Unwritten card w)
      (hpart : part ≤ 1) (hstart : card.Begins part start)
      (hvol : bootSector (card.blocks start) start = some vol) :
      vol.Fits card.size ∧ (vol.fatType = 16 → vol.Rooted) ∧ Coherent vol w := by
    obtain ⟨hfits, hrooted⟩ := bootSector_fits hvol (hcard part start hpart hstart vol hvol) hlt
    exact ⟨hfits, hrooted, _, hfits.laid hle, hw.holds hfits hle⟩
  unfold init
  rw [yields_tryCatch]
  refine (initPartition_yields (Unwritten.blank card) 1).mono (fun vol w hw => ?_) fun _ w hw => ?_
  · obtain ⟨hw, start, hstart, hvol⟩ := hw
    exact hread hw le_rfl hstart hvol
  · -- the whole card is taken for the volume
    refine (initPartition_yields hw 0).mono (fun vol u hu => ?_) fun _ _ hu => hu
    obtain ⟨hu, start, hstart, hvol⟩ := hu
    exact hread hu (Nat.zero_le 1) hstart hvol

end RasPiArduino.Sd
