import RasPiArduino.SdDirectory
import RasPiArduino.SdReopen

/-! The root directory and the files that are made in it: what one file does harms neither the
names nor the other files. -/
namespace RasPiArduino.Sd
open LittleEndian Outcome Machine

variable {vol : SdVolume} {D D' : Disk} {f g : SdFile} {s : DirAndFile} {C : Prop} {S : Nat → Prop}
  {E : Nat → Fin 512 → Prop} {i j k n : Nat} {dname : List UInt8} {dateTime : Option (Nat × Nat)}
  {B B' : Nat → Block} {files : Nat → SdFile} {clusters : Nat → List Nat}
  {texts : Nat → Option Text} {text : Option Text}

theorem SdVolume.Rooted.not_inCluster (hr : vol.Rooted) (hk : k < vol.rootDirEntryCount) (c : Nat) :
    ¬ vol.InCluster c (vol.rootDirStart + k / 16) := by
  rintro ⟨hle, -⟩
  have hfinish := hr.finish
  have hfirst : vol.dataStartBlock ≤ vol.firstBlock c := Nat.le_add_right _ _
  omega

theorem Touched.slice_root (ht : Touched vol C S f.record D D') (hr : vol.Rooted)
    (hk : k < vol.rootDirEntryCount) (hn : i + n ≤ 18) :
    slice (D'.blocks (vol.rootDirStart + k / 16)) (32 * (k % 16) + i) n =
      slice (D.blocks (vol.rootDirStart + k / 16)) (32 * (k % 16) + i) n := by
  have hstart := hr.start
  unfold slice
  refine List.map_congr_left fun m hm => ?_
  have hm := List.mem_range.mp hm
  have hval : (Fin.ofNat 512 (32 * (k % 16) + i + m)).val = 32 * (k % 16) + i + m :=
    Nat.mod_eq_of_lt (by omega)
  refine ht.byte _ _ (by omega) (fun c _ => hr.not_inCluster hk c) fun hrecord => ?_
  have := hrecord.2
  omega

theorem Touched.rootName (ht : Touched vol C S f.record D D') (hr : vol.Rooted)
    (hk : k < vol.rootDirEntryCount) : vol.rootName D'.blocks k = vol.rootName D.blocks k :=
  ht.slice_root (i := 0) hr hk (by decide)

theorem Touched.onlyFiles (ht : Touched vol C S f.record D D') (hr : vol.Rooted)
    (hfiles : OnlyFiles vol D.blocks) : OnlyFiles vol D'.blocks := by
  intro k hk htaken
  rw [ht.rootName hr hk] at htaken
  rw [field, ht.slice_root hr hk (by decide)]
  exact hfiles k hk htaken

theorem Listed.congr (hlist : Listed vol B)
    (h : ∀ k, k < vol.rootDirEntryCount → vol.rootName B' k = vol.rootName B k) :
    Listed vol B' where
  closed := by
    intro j k hjk hk h0
    rw [h j (hjk.trans hk)] at h0
    rw [h k hk]
    exact hlist.closed j k hjk hk h0
  distinct := by
    intro j k hj hk ht he
    rw [h j hj] at ht he
    rw [h k hk] at he
    exact hlist.distinct j k hj hk ht he

theorem newEntry_fields (hlen : dname.length = 11) (dateTime : Option (Nat × Nat)) :
    ((newEntry dname dateTime).drop 11).take 1 = [0] ∧
      ((newEntry dname dateTime).drop 20).take 2 = [0, 0] ∧
      ((newEntry dname dateTime).drop 26).take 2 = [0, 0] ∧
      ((newEntry dname dateTime).drop 28).take 4 = [0, 0, 0, 0] := by
  match dname, hlen with
  | [_, _, _, _, _, _, _, _, _, _, _], _ => exact ⟨rfl, rfl, rfl, rfl⟩

theorem Laid.touched_write (hl : Laid vol D) (hr : vol.Rooted) (hj : j < vol.rootDirEntryCount)
    {entry : List UInt8} (hentry : entry.length ≤ 32)
    (hE : ∀ i : Fin 512, i.val / 32 = j % 16 → E (vol.rootDirStart + j / 16) i) :
    Touched vol C S E D (D.write (vol.rootDirStart + j / 16) (32 * (j % 16)) entry) := by
  have hplain := hl.plain_root hr hj
  have hstart := hr.start
  refine ⟨hl.put _ _, rfl, id, fun _ => id,
    fun c hc _ => hl.entry_put hc.2 (by omega) hplain.lt _, fun b i _ _ hno => ?_⟩
  unfold Disk.write
  rw [hplain.put_apply]
  by_cases hb : b = vol.rootDirStart + j / 16
  · subst hb
    rw [Function.update_self]
    obtain hlt | hge : i.val < 32 * (j % 16) ∨ 32 * (j % 16) + 32 ≤ i.val := by
      have hne : i.val / 32 ≠ j % 16 := fun h => hno (hE i h)
      omega
    · exact splice_of_lt hlt
    · exact splice_of_ge (by omega)
  · rw [Function.update_of_ne hb]

def newFile (vol : SdVolume) (j : Nat) : SdFile :=
  { closedFile with dirBlock := vol.rootDirStart + j / 16, dirIndex := j % 16 }

theorem Made.entry (hm : Made vol D D' dname dateTime j) (hl : Laid vol D) (hr : vol.Rooted)
    (hj : j < vol.rootDirEntryCount) (hlen : dname.length = 11) :
    Seated vol D' (newFile vol j) ∧ Recorded D' (newFile vol j) ∧
      field (D'.blocks (newFile vol j).dirBlock) (32 * (newFile vol j).dirIndex + 11) 1 = 0 := by
  have hplain := hl.plain_root hr hj
  have hstart := hr.start
  have hentry := length_newEntry hlen dateTime
  obtain ⟨h11, h20, h26, h28⟩ := newEntry_fields hlen dateTime
  have hfield {i n : Nat} (hn : i + n ≤ 32) :
      field (D'.blocks (newFile vol j).dirBlock) (32 * (newFile vol j).dirIndex + i) n =
        number (((newEntry dname dateTime).drop i).take n) := by
    have hslice := slice_write hplain hentry j hn
    rw [if_pos rfl, ← hm.disk] at hslice
    exact congrArg number hslice
  have hattributes : field (D'.blocks (newFile vol j).dirBlock)
      (32 * (newFile vol j).dirIndex + 11) 1 = 0 := by
    rw [hfield (by decide), h11]
    rfl
  refine ⟨⟨Nat.le_add_right_of_le hstart, ?_, Nat.mod_lt _ (by decide), ?_⟩, ⟨?_, ?_⟩, hattributes⟩
  · rw [hm.disk]
    exact hplain.lt
  · rw [hattributes, Nat.zero_and]
  · rw [hfield (by decide), h28]
    rfl
  · rw [hfield (by decide), hfield (by decide), h20, h26]
    rfl

def IsNew (vol : SdVolume) (B : Nat → Block) (str : List UInt8) : Prop :=
  ∀ k, k < vol.rootDirEntryCount → make83Name str ≠ some (vol.rootName B k)

instance (str : List UInt8) : Decidable (IsNew vol B str) :=
  inferInstanceAs (Decidable (∀ k, k < vol.rootDirEntryCount → _))

def Placed (vol : SdVolume) (B : Nat → Block) (f : SdFile) : Prop :=
  ∃ k, k < vol.rootDirEntryCount ∧ f.dirBlock = vol.rootDirStart + k / 16 ∧
    f.dirIndex = k % 16 ∧ Taken (vol.rootName B k)

/-- A file that is made is empty, its entry is that of no other file, and nothing else changes. -/
structure Empty (vol : SdVolume) (D D' : Disk) (o : Opening) (f : SdFile) : Prop where
  apart : ∀ g, Placed vol D.blocks g → ∀ b i, g.slot b i → ¬ f.slot b i
  touched : Touched vol True (fun _ => False) f.slot D D'
  kept : Kept vol D' f [] ⟨[], 0, o.oflag.read, o.oflag.write, o.oflag.append⟩

theorem Made.empty (hm : Made vol D D' dname dateTime j) (hl : Laid vol D) (hr : vol.Rooted)
    (hj : j < vol.rootDirEntryCount) (hlen : dname.length = 11) {o : Opening}
    (hblock : f.dirBlock = vol.rootDirStart + j / 16) (hindex : f.dirIndex = j % 16)
    (hk : Kept vol D' f [] ⟨[], 0, o.oflag.read, o.oflag.write, o.oflag.append⟩) :
    Empty vol D D' o f := by
  refine ⟨fun g hg b i hgi hfi => ?_, ?_, hk⟩
  · obtain ⟨k, hk, hgblock, hgindex, htaken⟩ := hg
    have h₁ := hgi.1.symm.trans hfi.1
    have h₂ := hgi.2.symm.trans hfi.2
    rw [hgblock, hblock] at h₁
    rw [hgindex, hindex] at h₂
    obtain rfl : k = j := by omega
    exact hm.free htaken
  · rw [hm.disk]
    exact hl.touched_write hr hj (length_newEntry hlen _).le
      fun i hi => ⟨hblock.symm, hi.trans hindex.symm⟩

/-- An open finds the entry of the name, or makes one; when it fails nothing has changed. -/
theorem openName_makes (hl : Laid vol D) (hr : vol.Rooted) (hlist : Listed vol D.blocks)
    (hD : Holds D s.volume) (hrel : D.reliable) (hf : vol.IsRoot s.dirFile)
    (hclosed : s.file.isOpen = false) {o : Opening} (htrunc : o.oflag.trunc = false) :
    Yields (openName vol o.fileName o.oflag o.creat o.excl o.dateTime) s
      (fun _ t => vol.IsRoot t.dirFile ∧ ∃ D', Holds D' t.volume ∧ Grown vol D D' ∧
        Placed vol D'.blocks t.file ∧
        Opens vol D.blocks o ∧
        if IsNew vol D.blocks o.fileName then Empty vol D D' o t.file else D' = D)
      (fun _ t => vol.IsRoot t.dirFile ∧ Holds D t.volume ∧
        (OnlyFiles vol D.blocks → ¬ Opens vol D.blocks o)) := by
  refine openName_locates hl hr hlist hD hrel hf hclosed (fun D' dname j i t ht => ?_)
    fun e t hroot hD hno => ⟨hroot, hD, fun _ => hno⟩
  obtain ⟨hname, hlen⟩ := make83Name_taken ht.name
  obtain ⟨hj, hjname, hi, hnum⟩ := ht.found
  obtain rfl | hmade := ht.which
  · have hold : ¬ IsNew vol D'.blocks o.fileName := fun hnew => hnew j hj (hjname ▸ ht.name)
    simp only [if_neg hold]
    refine (openCachedEntry_keeps (h := ⟨t.file, t.volume⟩) hl ht.holds htrunc _ o.dateTime).mono
      (fun _ u hu => ?_)
      fun _ u hu => ⟨ht.root, hu.1, fun hfiles => absurd (ht.attributes hr hfiles) hu.2⟩
    exact ⟨ht.root, D', hu.1, ht.grown, ⟨j, hj, hu.2.2.trans hnum, hu.2.1.trans hi,
      hjname ▸ hname⟩, ht.opens, rfl⟩
  · have hnew : IsNew vol D.blocks o.fileName := fun k hk he =>
      hmade.fresh k hk (Option.some.inj (he.symm.trans ht.name))
    simp only [if_pos hnew]
    obtain ⟨hseat, hrec, hzero⟩ := hmade.entry hl hr hj hlen
    have hcontent : Content vol D' (newFile vol j).firstCluster [] [] :=
      ⟨clusterChain_nil.mpr rfl, rfl, Nat.zero_le _, by simp⟩
    rw [hi]
    refine (openCachedEntry_yields (h := ⟨t.file, t.volume⟩) ht.holds hseat hrec hcontent rfl
      (by decide) htrunc (fun _ => by rw [hzero, Nat.zero_and]) hnum o.dateTime).mono
        (fun _ u hu => ?_) fun _ _ hno => hno.elim
    obtain ⟨hu, hindex, hblock, hk⟩ := hu
    exact ⟨ht.root, D', hu, ht.grown, ⟨j, hj, hblock, hindex, hjname ▸ hname⟩, ht.opens,
      hmade.empty hl hr hj hlen hblock hindex hk⟩

theorem Placed.grown (hf : Placed vol D.blocks f) (hg : Grown vol D D') :
    Placed vol D'.blocks f := by
  obtain ⟨k, hk, hblock, hindex, htaken⟩ := hf
  exact ⟨k, hk, hblock, hindex, (hg.taken k hk htaken).symm ▸ htaken⟩

theorem Placed.not_inCluster (hf : Placed vol B f) (hr : vol.Rooted) (c : Nat) :
    ¬ vol.InCluster c f.dirBlock := by
  obtain ⟨k, hk, hblock, -, -⟩ := hf
  rw [hblock]
  exact hr.not_inCluster hk c

theorem Kept.touched {cs : List Nat} {T : Text} (hk : Kept vol D f cs T)
    (ht : Touched vol C (fun _ => False) E D D') (hE : ∀ b i, f.slot b i → ¬ E b i)
    (hin : ∀ c ∈ cs, ∀ b, vol.InCluster c b → ∀ i, ¬ E b i) : Kept vol D' f cs T :=
  ⟨⟨hk.stored.toContent.touched ht (fun _ hno => hno.elim) hin, hk.stored.type,
      hk.stored.position, hk.stored.start, hk.stored.cluster⟩,
    hk.seated.touched ht (fun _ hno => hno.elim) hE,
    fun hd => (hk.recorded hd).touched hk.seated ht (fun _ hno => hno.elim) hE, hk.fileSize,
    hk.position, hk.lt, hk.forRead, hk.forWrite, hk.append⟩

/-- A file without clusters takes the place of another one, or of none. -/
theorem Filed.replaced (hf : Filed vol D files clusters texts)
    (hkept : ∀ i, i ≠ j → ∀ T, texts i = some T → Kept vol D' (files i) (clusters i) T)
    (hk : ∀ T, text = some T → Kept vol D' g [] T)
    (hapart : text.isSome → ∀ i, i ≠ j → (texts i).isSome →
      ∀ b k, (files i).slot b k → ¬ g.slot b k)
    (hfree : ∀ i, (Function.update texts j text i).isSome → ∀ c,
      ¬ vol.InCluster c (Function.update files j g i).dirBlock) :
    Filed vol D' (Function.update files j g) (Function.update clusters j [])
      (Function.update texts j text) := by
  refine ⟨fun i T hi => ?_, fun i k hik hi hk' => ?_, fun i k hik hi hk' b m => ?_,
    fun _ k _ hk' c _ => hfree k hk' c⟩
  · by_cases hij : i = j
    · subst hij
      rw [Function.update_self] at hi ⊢
      rw [Function.update_self]
      exact hk T hi
    · rw [Function.update_of_ne hij] at hi ⊢
      rw [Function.update_of_ne hij]
      exact hkept i hij T hi
  · by_cases hij : i = j
    · subst hij
      simp
    · by_cases hkj : k = j
      · subst hkj
        simp
      · rw [Function.update_of_ne hij] at hi ⊢
        rw [Function.update_of_ne hkj] at hk' ⊢
        exact hf.disjoint i k hik hi hk'
  · by_cases hij : i = j
    · subst hij
      rw [Function.update_self] at hi
      rw [Function.update_of_ne (Ne.symm hik)] at hk'
      rw [Function.update_self, Function.update_of_ne (Ne.symm hik)]
      exact fun hgi hki => hapart hi k (Ne.symm hik) hk' b m hki hgi
    · rw [Function.update_of_ne hij] at hi ⊢
      by_cases hkj : k = j
      · subst hkj
        rw [Function.update_self] at hk' ⊢
        exact hapart hk' i hij hi b m
      · rw [Function.update_of_ne hkj] at hk' ⊢
        exact hf.slots i k hik hi hk' b m

def Disk.mark (vol : SdVolume) (D : Disk) (j : Nat) : Disk :=
  D.write (vol.rootDirStart + j / 16) (32 * (j % 16)) [0xE5]

theorem slice_mark (hb : D.Plain (vol.rootDirStart + j / 16)) (hk : k ≠ j ∨ 1 ≤ i)
    (hn : i + n ≤ 32) : slice ((D.mark vol j).blocks (vol.rootDirStart + k / 16))
      (32 * (k % 16) + i) n =
    slice (D.blocks (vol.rootDirStart + k / 16)) (32 * (k % 16) + i) n :=
  slice_write_of_disjoint hb (by decide) hk hn

theorem rootName_mark (hb : D.Plain (vol.rootDirStart + j / 16)) (hk : k ≠ j) :
    vol.rootName (D.mark vol j).blocks k = vol.rootName D.blocks k :=
  slice_mark (i := 0) hb (Or.inl hk) (by decide)

theorem not_taken_mark (hb : D.Plain (vol.rootDirStart + j / 16)) :
    (vol.rootName (D.mark vol j).blocks j).head? = some 0xE5 := by
  have hbyte : splice (D.blocks (vol.rootDirStart + j / 16)) (32 * (j % 16)) [0xE5]
      (Fin.ofNat 512 (32 * (j % 16) + 0)) = 0xE5 := splice_of_mem rfl (by omega)
  unfold SdVolume.rootName Disk.mark Disk.write
  rw [hb.put_apply, Function.update_self, List.head?_eq_getElem?, getElem?_slice (by decide), hbyte]

theorem Listed.marked (hlist : Listed vol D.blocks) (hb : D.Plain (vol.rootDirStart + j / 16))
    (ht : Taken (vol.rootName D.blocks j)) : Listed vol (D.mark vol j).blocks where
  closed := by
    intro i k hik hk h0
    have hi : i ≠ j := by
      rintro rfl
      exact absurd (h0.symm.trans (not_taken_mark hb)) (by decide)
    rw [rootName_mark hb hi] at h0
    have hk0 := hlist.closed i k hik hk h0
    have hkj : k ≠ j := by
      rintro rfl
      exact ht.1 hk0
    rwa [rootName_mark hb hkj]
  distinct := by
    intro i k hi hk htaken he
    have hij : i ≠ j := by
      rintro rfl
      exact htaken.2 (not_taken_mark hb)
    have hkj : k ≠ j := by
      rintro rfl
      exact htaken.2 (he ▸ not_taken_mark hb)
    rw [rootName_mark hb hij] at htaken he
    rw [rootName_mark hb hkj] at he
    exact hlist.distinct i k hi hk htaken he

theorem OnlyFiles.marked (hfiles : OnlyFiles vol D.blocks)
    (hb : D.Plain (vol.rootDirStart + j / 16)) : OnlyFiles vol (D.mark vol j).blocks := by
  intro k hk htaken
  have hkj : k ≠ j := by
    rintro rfl
    exact htaken.2 (not_taken_mark hb)
  rw [rootName_mark hb hkj] at htaken
  rw [field, slice_mark hb (Or.inl hkj) (by decide)]
  exact hfiles k hk htaken

theorem Laid.touched_mark (hl : Laid vol D) (hr : vol.Rooted) (hj : j < vol.rootDirEntryCount)
    (hblock : f.dirBlock = vol.rootDirStart + j / 16) (hindex : f.dirIndex = j % 16) :
    Touched vol C S f.slot D (D.mark vol j) :=
  hl.touched_write hr hj (by decide) fun _ hi => ⟨hblock.symm, hi.trans hindex.symm⟩

/-- A file that may be written is removed: its clusters are freed, and its entry is marked. -/
theorem remove_yields {h : Handle} {cs : List Nat} {T : Text} (hl : Laid vol D) (hr : vol.Rooted)
    (hD : Holds D h.volume) (hrel : D.reliable) (hk : Kept vol D h.file cs T)
    (hj : j < vol.rootDirEntryCount) (hblock : h.file.dirBlock = vol.rootDirStart + j / 16)
    (hindex : h.file.dirIndex = j % 16) (dateTime : Option (Nat × Nat)) :
    Yields (remove vol dateTime) h
      (fun _ t => T.forWrite ∧ ∃ D₁, Touched vol True (vol.Own D cs) h.file.record D D₁ ∧
        Holds (D₁.mark vol j) t.volume)
      (fun _ t => ¬ T.forWrite ∧ Holds D t.volume ∧ t.file = h.file) := by
  have hfree (c : Nat) (_ : vol.Own D cs c) : ¬ vol.InCluster c h.file.dirBlock :=
    hblock ▸ hr.not_inCluster hj c
  unfold remove
  simp only [yields_bind, yields_getFile, yields_onVolume, yields_onFile, yields_modify]
  refine (truncate_yields (C := True) hl hD hk.stored hk.seated hfree hk.fileSize hk.lt hk.recorded
    0).mono (fun _ t ht => ?_) fun _ t ht => ?_
  · obtain ⟨hwrite, -, hrenewed⟩ := ht
    obtain ⟨D₁, ds, hD₁, ht, -, -, -, -⟩ := hrenewed.stored
    have hrel₁ : D₁.reliable := ht.kept trivial hrel
    have hplain := ht.laid.plain_root hr hj
    have hblock' : t.file.dirBlock = vol.rootDirStart + j / 16 := by
      rw [show t.file = _ from hrenewed.alike]
      exact hblock
    have hindex' : t.file.dirIndex = j % 16 := by
      rw [show t.file = _ from hrenewed.alike]
      exact hindex
    simp only [hblock', hindex']
    refine (cacheRawBlock_yields hD₁ ⟨hplain.pos, hplain.lt⟩ true).mono (fun _ v hv => ?_)
      fun _ v hv => absurd hrel₁ hv.2
    obtain ⟨hv, hnum, hbuf, hdirty⟩ := hv
    have hedit : Holds (D₁.mark vol j) (v.edit (32 * (j % 16)) [0xE5]) := by
      rw [State.edit, hbuf]
      exact hv.edited hnum (hdirty rfl) hplain _
    refine (cacheFlush_yields hedit).mono (fun _ w hw => ?_) fun _ w hw => absurd hrel₁ hw.2
    exact ⟨hk.forWrite ▸ hwrite, D₁, ht, hw.1⟩
  · split at ht
    · obtain ⟨D₁, -, ht, hno⟩ := ht
      exact absurd (ht.kept trivial hrel) hno
    · rename_i hno
      exact ⟨fun hwrite => hno ⟨hk.forWrite.trans hwrite, Nat.zero_le _⟩, ht⟩

structure DirAndFiles where
  dirFile : SdFile
  watched : Watched

/-- A call of `open` by name, of a function of an open file, or of `remove`. -/
inductive Call where
  | opens (o : Opening) (j : Nat)
  | acts (j : Nat) (a : Action)
  | removes (j : Nat) (dateTime : Option (Nat × Nat))

def openedText (vol : SdVolume) (s : DirAndFiles) (o : Opening) (r : Except Stop Unit) :
    Option Text :=
  match r with
  | .ok _ => if IsNew vol s.watched.filing.state.contents o.fileName then
      some ⟨[], 0, o.oflag.read, o.oflag.write, o.oflag.append⟩ else none
  | .error _ => none

def call (vol : SdVolume) (s : DirAndFiles) : Call → Option (Except Stop Reply × DirAndFiles)
  | .opens o j =>
    let (r, t) := outcome (openName vol o.fileName o.oflag o.creat o.excl o.dateTime)
      ⟨s.dirFile, closedFile, s.watched.filing.state⟩
    some (r.map fun _ => .done, ⟨t.dirFile,
      ⟨⟨t.volume, Function.update s.watched.filing.files j t.file⟩,
        Function.update s.watched.texts j (openedText vol s o r)⟩⟩)
  | .acts j a => (observe vol s.watched (j, a)).map fun p => (p.1, { s with watched := p.2 })
  | .removes j dateTime =>
    let (r, t) := outcome (remove vol dateTime)
      ⟨s.watched.filing.files j, s.watched.filing.state⟩
    some (r.map fun _ => .done, ⟨s.dirFile,
      ⟨⟨t.volume, Function.update s.watched.filing.files j t.file⟩, match r with
        | .ok _ => Function.update s.watched.texts j none
        | .error _ => s.watched.texts⟩⟩)

/-- No file is cut when it is opened, and only files are used that are known, with writes of less
than a block. -/
def Usable (s : DirAndFiles) : Call → Prop
  | .opens o _ => o.oflag.trunc = false
  | .acts j a => InUse s.watched (j, a) ∧ a.Small
  | .removes j _ => (s.watched.texts j).isSome

instance (s : DirAndFiles) : DecidablePred (Usable s)
  | .opens o _ => inferInstanceAs (Decidable (o.oflag.trunc = false))
  | .acts _ _ => inferInstanceAs (Decidable (_ ∧ _))
  | .removes j _ => inferInstanceAs (Decidable ((s.watched.texts j).isSome = true))

/-- An open succeeds if there is an entry for it. A file that is known answers as its text, does not
fail but for want of room, and is removed if it may be written. -/
def Answered (vol : SdVolume) (s : DirAndFiles) (c : Call) (r : Except Stop Reply)
    (t : DirAndFiles) : Prop :=
  match c with
  | .opens o _ => (∃ a, r = .ok a) ↔ Opens vol s.watched.filing.state.contents o
  | .acts j a => AsText s.watched (j, a) r ∧ Unfailing vol s.watched (j, a) r t.watched
  | .removes j _ => ∀ T, s.watched.texts j = some T → ((∃ a, r = .ok a) ↔ T.forWrite)

/-- The files that are known have entries with different names, and are what is known of them. -/
structure Housed (vol : SdVolume) (D : Disk) (clusters : Nat → List Nat) (s : DirAndFiles) :
    Prop where
  laid : Laid vol D
  listed : Listed vol D.blocks
  files : OnlyFiles vol D.blocks
  reliable : D.reliable
  root : vol.IsRoot s.dirFile
  holds : Holds D s.watched.filing.state
  filed : Filed vol D s.watched.filing.files clusters s.watched.texts
  placed : ∀ i, (s.watched.texts i).isSome → Placed vol D.blocks (s.watched.filing.files i)

theorem Housed.acts {s : DirAndFiles} (hs : Housed vol D clusters s) (hr : vol.Rooted) {a : Action}
    (hin : InUse s.watched (j, a)) (hsmall : a.Small) : ∃ r t,
      call vol s (.acts j a) = some (r, t) ∧ Answered vol s (.acts j a) r t ∧
      ∃ D' clusters', Housed vol D' clusters' t := by
  obtain ⟨r, u, hobs, htext, D', ds, ht, hD', hf', hunf, hplace⟩ :=
    observe_filed (C := True) hs.laid hs.holds hs.filed hin fun _ => hsmall
  have hrel : D'.reliable := ht.kept trivial hs.reliable
  have hnames (k : Nat) (hk : k < vol.rootDirEntryCount) := ht.rootName hr hk
  refine ⟨r, { s with watched := u }, by simp only [call, hobs, Option.map_some],
    ⟨htext, hunf hrel⟩, D', _, ht.laid, hs.listed.congr hnames,
    ht.onlyFiles hr hs.files, hrel, hs.root, hD', hf',
    fun i hi => ?_⟩
  obtain ⟨hsome, hblock, hindex⟩ := hplace i hi
  obtain ⟨k, hk, hkblock, hkindex, htaken⟩ := hs.placed i hsome
  exact ⟨k, hk, hblock.trans hkblock, hindex.trans hkindex, (hnames k hk).symm ▸ htaken⟩

theorem Housed.dropped {s : DirAndFiles} (hs : Housed vol D clusters s) (hr : vol.Rooted)
    {d : SdFile} {v : State}
    (hd : vol.IsRoot d) (hv : Holds D v) (j : Nat) (g : SdFile) :
    Housed vol D (Function.update clusters j [])
      ⟨d, ⟨⟨v, Function.update s.watched.filing.files j g⟩,
        Function.update s.watched.texts j none⟩⟩ := by
  have hknown {i : Nat} (hi : (Function.update s.watched.texts j none i).isSome) :
      (s.watched.texts i).isSome ∧ Function.update s.watched.filing.files j g i =
        s.watched.filing.files i := by
    by_cases hij : i = j
    · subst hij
      simp at hi
    · rw [Function.update_of_ne hij] at hi ⊢
      exact ⟨hi, rfl⟩
  have hplaced (i : Nat) (hi : (Function.update s.watched.texts j none i).isSome) :
      Placed vol D.blocks (Function.update s.watched.filing.files j g i) := by
    obtain ⟨hsome, hfile⟩ := hknown hi
    rw [hfile]
    exact hs.placed i hsome
  exact ⟨hs.laid, hs.listed, hs.files, hs.reliable, hd, hv, hs.filed.replaced
    (fun i _ T hT => hs.filed.kept i T hT) (fun T hT => absurd hT (by simp))
    (fun hsome => absurd hsome (by simp)) fun i hi c => (hplaced i hi).not_inCluster hr c, hplaced⟩

theorem Housed.added {s : DirAndFiles} (hs : Housed vol D clusters s) (hr : vol.Rooted) {d : SdFile}
    {v : State} {o : Opening} (hd : vol.IsRoot d) (hv : Holds D' v) (hg : Grown vol D D')
    (hp : Placed vol D'.blocks g) (he : Empty vol D D' o g) (j : Nat) :
    Housed vol D' (Function.update clusters j [])
      ⟨d, ⟨⟨v, Function.update s.watched.filing.files j g⟩, Function.update s.watched.texts j
        (some ⟨[], 0, o.oflag.read, o.oflag.write, o.oflag.append⟩)⟩⟩ := by
  obtain ⟨T, hT⟩ : ∃ T : Text, T = ⟨[], 0, o.oflag.read, o.oflag.write, o.oflag.append⟩ := ⟨_, rfl⟩
  rw [← hT]
  have hplaced (i : Nat) (hi : (Function.update s.watched.texts j (some T) i).isSome) :
      Placed vol D'.blocks (Function.update s.watched.filing.files j g i) := by
    by_cases hij : i = j
    · subst hij
      rwa [Function.update_self]
    · rw [Function.update_of_ne hij] at hi ⊢
      exact (hs.placed i hi).grown hg
  refine ⟨hg.laid, hg.listed, hg.files hs.files, hg.reliable hs.reliable, hd, hv, hs.filed.replaced
    (fun i _ S hS => ?_) (fun S hS => ?_) (fun _ i _ hi => he.apart _ (hs.placed i hi))
    fun i hi c => (hplaced i hi).not_inCluster hr c, hplaced⟩
  · have hi : (s.watched.texts i).isSome := by rw [hS]; rfl
    exact (hs.filed.kept i S hS).touched he.touched (he.apart _ (hs.placed i hi))
      fun c _ b hb _ hslot => hp.not_inCluster hr c (hslot.1 ▸ hb)
  · obtain rfl := Option.some.inj hS
    exact hT ▸ he.kept

theorem Housed.opens {s : DirAndFiles} (hs : Housed vol D clusters s) (hr : vol.Rooted)
    {o : Opening} (htrunc : o.oflag.trunc = false) (j : Nat) :
    ∃ r t, call vol s (.opens o j) = some (r, t) ∧ Answered vol s (.opens o j) r t ∧ ∃ D' clusters', Housed vol D' clusters' t := by
  have hout := ((openName_makes (s := ⟨s.dirFile, closedFile, s.watched.filing.state⟩) hs.laid hr
    hs.listed hs.holds hs.reliable hs.root rfl htrunc).mono (fun a t ht => ?_)
      fun e t ht => ?_).outcome
    (P := fun r t => ((∃ a, (r.map fun _ => Reply.done) = .ok a) ↔
        Opens vol s.watched.filing.state.contents o) ∧ ∃ D' clusters', Housed vol D' clusters'
      ⟨t.dirFile, ⟨⟨t.volume, Function.update s.watched.filing.files j t.file⟩,
        Function.update s.watched.texts j (openedText vol s o r)⟩⟩)
  · exact ⟨_, _, rfl, hout⟩
  · obtain ⟨hroot, D', hD', hg, hplaced, hopens, hnew⟩ := ht
    rw [hs.holds.contents]
    refine ⟨⟨fun _ => hopens, fun _ => ⟨_, rfl⟩⟩, ?_⟩
    unfold openedText
    rw [hs.holds.contents]
    split at hnew
    · rename_i hfresh
      simp only [if_pos hfresh]
      exact ⟨D', _, hs.added hr hroot hD' hg hplaced hnew j⟩
    · rename_i hold
      simp only [if_neg hold]
      exact ⟨D, _, hs.dropped hr hroot (hnew ▸ hD') j _⟩
  · obtain ⟨hroot, hD', hno⟩ := ht
    rw [hs.holds.contents]
    refine ⟨⟨fun hok => ?_, fun hopens => absurd hopens (hno hs.files)⟩,
      D, _, hs.dropped hr hroot hD' j _⟩
    obtain ⟨a, ha⟩ := hok
    simp [Except.map] at ha

theorem Housed.removes {s : DirAndFiles} (hs : Housed vol D clusters s) (hr : vol.Rooted)
    (hj : (s.watched.texts j).isSome) : ∃ r t, call vol s (.removes j dateTime) = some (r, t) ∧
      Answered vol s (.removes j dateTime) r t ∧ ∃ D' clusters', Housed vol D' clusters' t := by
  obtain ⟨T, hT⟩ := Option.isSome_iff_exists.mp hj
  obtain ⟨m, hm, hblock, hindex, htaken⟩ := hs.placed j hj
  have hout := ((remove_yields (h := ⟨s.watched.filing.files j, s.watched.filing.state⟩)
    hs.laid hr hs.holds hs.reliable (hs.filed.kept j T hT) hm hblock hindex dateTime).mono
      (fun a t ht => ?_) fun e t ht => ?_).outcome
    (P := fun r t => ((∃ a, (r.map fun _ => Reply.done) = .ok a) ↔ T.forWrite) ∧
      ∃ D' clusters', Housed vol D' clusters'
        ⟨s.dirFile, ⟨⟨t.volume, Function.update s.watched.filing.files j t.file⟩, match r with
          | .ok _ => Function.update s.watched.texts j none
          | .error _ => s.watched.texts⟩⟩)
  · refine ⟨_, _, rfl, fun S hS => ?_, hout.2⟩
    obtain rfl : T = S := Option.some.inj (hT.symm.trans hS)
    exact hout.1
  · obtain ⟨hwrite, D₁, ht, hv⟩ := ht
    have hplain := ht.laid.plain_root hr hm
    have hnames (k : Nat) (hk : k < vol.rootDirEntryCount) := ht.rootName hr hk
    have hmark : Touched vol True (fun _ => False) (s.watched.filing.files j).slot D₁
        (D₁.mark vol m) := ht.laid.touched_mark hr hm hblock hindex
    have hknown {i : Nat} (hi : (Function.update s.watched.texts j none i).isSome) :
        i ≠ j ∧ (s.watched.texts i).isSome := by
      by_cases hij : i = j
      · subst hij
        simp at hi
      · rw [Function.update_of_ne hij] at hi
        exact ⟨hij, hi⟩
    have hplaced (i : Nat) (hi : (Function.update s.watched.texts j none i).isSome) :
        Placed vol (D₁.mark vol m).blocks
          (Function.update s.watched.filing.files j t.file i) := by
      obtain ⟨hij, hsome⟩ := hknown hi
      obtain ⟨k, hk, hkblock, hkindex, hktaken⟩ := hs.placed i hsome
      -- the entries of two files are different
      have hkm : k ≠ m := by
        rintro rfl
        have hval : (Fin.ofNat 512 (32 * (k % 16))).val = 32 * (k % 16) :=
          Nat.mod_eq_of_lt (by omega)
        exact hs.filed.slots i j hij hsome hj _ (Fin.ofNat 512 (32 * (k % 16)))
          ⟨hkblock.symm, by omega⟩ ⟨hblock.symm, by omega⟩
      rw [Function.update_of_ne hij]
      exact ⟨k, hk, hkblock, hkindex, by rwa [rootName_mark hplain hkm, hnames k hk]⟩
    refine ⟨⟨fun _ => hwrite, fun _ => ⟨_, rfl⟩⟩, D₁.mark vol m, _, ht.laid.put _ _,
      (hs.listed.congr hnames).marked hplain (by rwa [hnames m hm]),
      (ht.onlyFiles hr hs.files).marked hplain, ht.kept trivial hs.reliable, hs.root, hv,
      hs.filed.replaced (fun i hij S hS => ?_) (fun _ hS => absurd hS (by simp))
        (fun hsome => absurd hsome (by simp)) fun i hi c => (hplaced i hi).not_inCluster hr c,
      hplaced⟩
    have hi : (s.watched.texts i).isSome := by rw [hS]; rfl
    exact (hs.filed.other hij hj hS ht).touched hmark (hs.filed.slots i j hij hi hj)
      fun c _ b hb _ hslot => (hs.placed j hj).not_inCluster hr c (hslot.1 ▸ hb)
  · obtain ⟨hno, hv, hfile⟩ := ht
    refine ⟨⟨fun hok => ?_, fun hwrite => absurd hwrite hno⟩, D, clusters, hs.laid, hs.listed,
      hs.files, hs.reliable, hs.root, hv, ?_, ?_⟩
    · obtain ⟨a, ha⟩ := hok
      simp [Except.map] at ha
    · simp only [hfile, Function.update_eq_self]
      exact hs.filed
    · simp only [hfile, Function.update_eq_self]
      exact hs.placed

end RasPiArduino.Sd
