import RasPiArduino.SdFileRead

/-! The directory entry of a file: what it keeps of the file, and how it is brought up to date. -/
namespace RasPiArduino.Sd
open LittleEndian Outcome

section
variable {b : Block} {i j m n value : Nat}

theorem field_splice_self (h : i + n ≤ 512) :
    field (splice b i (bytesOf n value)) i n = value % 256^n := by
  have hslice : slice (splice b i (bytesOf n value)) i (bytesOf n value).length = bytesOf n value :=
    slice_splice_self (by simpa using h)
  rw [length_bytesOf] at hslice
  rw [field, hslice, number_bytesOf]

theorem field_splice_of_disjoint (hj : j + m ≤ 512) (h : j + m ≤ i ∨ i + n ≤ j) :
    field (splice b i (bytesOf n value)) j m = field b j m := by
  rw [field, slice_splice_of_disjoint hj (by rwa [length_bytesOf]), field]

end

/-- The directory entry of the file lies behind the tables of the volume, and is that of a file. -/
structure Seated (vol : SdVolume) (D : Disk) (f : SdFile) : Prop where
  behind : vol.fatStartBlock + vol.fatCount * vol.blocksPerFat ≤ f.dirBlock
  lt : f.dirBlock < D.size
  index : f.dirIndex < 16
  isFile : field (D.blocks f.dirBlock) (32 * f.dirIndex + 11) 1 &&& 0x18 = 0

structure Recorded (D : Disk) (f : SdFile) : Prop where
  fileSize : field (D.blocks f.dirBlock) (32 * f.dirIndex + 28) 4 = f.fileSize
  firstCluster : field (D.blocks f.dirBlock) (32 * f.dirIndex + 20) 2 * 2^16 +
    field (D.blocks f.dirBlock) (32 * f.dirIndex + 26) 2 = f.firstCluster

def SdFile.slot (f : SdFile) (b : Nat) (i : Fin 512) : Prop :=
  b = f.dirBlock ∧ i.val / 32 = f.dirIndex

def SdFile.record (f : SdFile) (b : Nat) (i : Fin 512) : Prop := f.slot b i ∧ 18 ≤ i.val % 32

/-- The files are open in the same way, and have the same directory entry. -/
def SdFile.Alike (f g : SdFile) : Prop :=
  g = { f with
    dirDirty := g.dirDirty
    curCluster := g.curCluster
    curPosition := g.curPosition
    fileSize := g.fileSize
    firstCluster := g.firstCluster
    writeError := g.writeError }

def SdVolume.Own (vol : SdVolume) (D : Disk) (cs : List Nat) (c : Nat) : Prop :=
  vol.Cluster c ∧ (c ∈ cs ∨ vol.entry D c = 0)

variable {vol : SdVolume} {D D' : Disk} {h : Handle} {f g : SdFile} {v : State} {i n p : Nat}
  {cs : List Nat} {xs : List UInt8} {C : Prop} {S : Nat → Prop} {E : Nat → Fin 512 → Prop}
  {dateTime : Option (Nat × Nat)}

theorem SdFile.Alike.record (h : f.Alike g) : g.record = f.record := by
  rw [show g = _ from h]
  rfl

theorem Seated.alike (hs : Seated vol D f) (h : f.Alike g) : Seated vol D g := by
  rw [show g = _ from h]
  exact ⟨hs.behind, hs.lt, hs.index, hs.isFile⟩

theorem Recorded.alike (hr : Recorded D f) (h : f.Alike g) (hsize : g.fileSize = f.fileSize)
    (hfirst : g.firstCluster = f.firstCluster) : Recorded D g := by
  rw [show g = _ from h, hsize, hfirst]
  exact ⟨hr.fileSize, hr.firstCluster⟩

theorem updateEntry_eq (hf : f.isFile) (hi : f.dirIndex < 16) (hsize : f.fileSize < 2^32)
    (hfirst : f.firstCluster < 2^32) (dateTime : Option (Nat × Nat)) (v : State) :
    ∃ data, updateEntry f dateTime v = { v with cacheBuffer := data } ∧
      (∀ i : Fin 512, ¬ (i.val / 32 = f.dirIndex ∧ 18 ≤ i.val % 32) → data i = v.cacheBuffer i) ∧
      field data (32 * f.dirIndex + 11) 1 = field v.cacheBuffer (32 * f.dirIndex + 11) 1 ∧
      field data (32 * f.dirIndex + 28) 4 = f.fileSize ∧
      field data (32 * f.dirIndex + 20) 2 * 2^16 + field data (32 * f.dirIndex + 26) 2 =
        f.firstCluster := by
  have hdir : f.isDir = false := by
    simp only [SdFile.isFile, decide_eq_true_eq] at hf
    simp [SdFile.isDir, hf]
  have hkept {b : Block} {k n value : Nat} (hk : 18 ≤ k ∧ k + n ≤ 32) (j : Fin 512)
      (hj : ¬ (j.val / 32 = f.dirIndex ∧ 18 ≤ j.val % 32)) :
      splice b (32 * f.dirIndex + k) (bytesOf n value) j = b j := by
    obtain hlt | hge : j.val < 32 * f.dirIndex + 18 ∨ 32 * f.dirIndex + 32 ≤ j.val := by omega
    · exact splice_of_lt (by omega)
    · exact splice_of_ge (by rw [length_bytesOf]; omega)
  have hfirst' : f.firstCluster / 2^16 % 256^2 * 2^16 + f.firstCluster % 256^2 =
      f.firstCluster := by omega
  unfold updateEntry State.edit
  rw [hdir]
  obtain _ | ⟨date, time⟩ := dateTime <;>
    refine ⟨_, rfl, fun j hj => ?_, ?_, ?_, ?_⟩ <;>
    simp (disch := first | assumption | omega) only
      [hkept, field_splice_self, field_splice_of_disjoint, Bool.false_eq_true, if_false, hfirst']
  all_goals exact Nat.mod_eq_of_lt hsize

theorem Touched.slot (ht : Touched vol C S E D D')
    (hb : vol.fatStartBlock + vol.fatCount * vol.blocksPerFat ≤ f.dirBlock)
    (hS : ∀ c, S c → ¬ vol.InCluster c f.dirBlock) (hE : ∀ b i, f.slot b i → ¬ E b i)
    (hi : f.dirIndex < 16) (hn : i + n ≤ 32) :
    field (D'.blocks f.dirBlock) (32 * f.dirIndex + i) n =
      field (D.blocks f.dirBlock) (32 * f.dirIndex + i) n := by
  refine congrArg number (List.map_congr_left fun k hk => ?_)
  have hk := List.mem_range.mp hk
  refine ht.byte _ _ hb hS (hE _ _ ⟨rfl, ?_⟩)
  have hval : (Fin.ofNat 512 (32 * f.dirIndex + i + k)).val = 32 * f.dirIndex + i + k :=
    Nat.mod_eq_of_lt (by omega)
  omega

theorem Seated.touched (hs : Seated vol D f) (ht : Touched vol C S E D D')
    (hS : ∀ c, S c → ¬ vol.InCluster c f.dirBlock) (hE : ∀ b i, f.slot b i → ¬ E b i) :
    Seated vol D' f where
  behind := hs.behind
  lt := ht.size ▸ hs.lt
  index := hs.index
  isFile := by
    rw [ht.slot hs.behind hS hE hs.index (by decide)]
    exact hs.isFile

theorem Recorded.touched (hr : Recorded D f) (hs : Seated vol D f) (ht : Touched vol C S E D D')
    (hS : ∀ c, S c → ¬ vol.InCluster c f.dirBlock) (hE : ∀ b i, f.slot b i → ¬ E b i) :
    Recorded D' f where
  fileSize := by
    rw [ht.slot hs.behind hS hE hs.index (by decide)]
    exact hr.fileSize
  firstCluster := by
    rw [ht.slot hs.behind hS hE hs.index (by decide), ht.slot hs.behind hS hE hs.index (by decide)]
    exact hr.firstCluster

theorem Seated.touched_put (hs : Seated vol D f) (hl : Laid vol D) {data : Block}
    (hdata : ∀ i : Fin 512, ¬ (i.val / 32 = f.dirIndex ∧ 18 ≤ i.val % 32) →
      data i = D.blocks f.dirBlock i) :
    Touched vol C S f.record D (D.put f.dirBlock data) := by
  refine ⟨hl.put _ data, rfl, id, fun _ => id, fun c hc _ => hl.entry_put hc.2 hs.behind hs.lt data,
    fun b i _ _ hE => ?_⟩
  rw [(hl.plain hs.behind hs.lt).put_apply]
  by_cases hb : b = f.dirBlock
  · subst hb
    rw [Function.update_self]
    exact hdata i fun hi => hE ⟨⟨rfl, hi.1⟩, hi.2⟩
  · rw [Function.update_of_ne hb]

/-- Afterwards the entry is up to date and nothing is left to be written. -/
theorem sync_yields (hl : Laid vol D) (hD : Holds D h.volume) (hf : h.file.isFile)
    (hs : Seated vol D h.file) (hsize : h.file.fileSize < 2^32)
    (hfirst : h.file.firstCluster < 2^32)
    (hrec : h.file.dirDirty = false → Recorded D h.file) :
    Yields (sync dateTime) h
      (fun _ t => ∃ D', Holds D' t.volume ∧ t.volume.cacheDirty = false ∧
        Touched vol C S h.file.record D D' ∧ Seated vol D' h.file ∧ Recorded D' h.file ∧
        t.file = { h.file with dirDirty := false })
      (fun _ t => ∃ D', Holds D' t.volume ∧ Touched vol C S h.file.record D D' ∧
        ¬ D'.reliable) := by
  have hopen : h.file.isOpen = true := by
    simp only [SdFile.isFile, decide_eq_true_eq] at hf
    simp [SdFile.isOpen, hf]
  unfold sync
  simp only [yields_bind, yields_getFile, yields_ite, yields_throw, yields_onFile,
    yields_onVolume, yields_modify]
  refine ⟨fun hno => absurd hopen hno, fun _ => ⟨fun hdirty => ?_, fun hclean => ?_⟩⟩
  · have hplain := hl.plain hs.behind hs.lt
    refine (cacheRawBlock_yields hD ⟨hplain.pos, hplain.lt⟩ true).mono (fun _ v hv => ?_)
      fun _ v hv => ⟨D, hv.1, hl.touched, hv.2⟩
    obtain ⟨hv, hnum, hbuf, hmark⟩ := hv
    obtain ⟨data, hdata, hrest, hattr, hsize', hfirst'⟩ :=
      updateEntry_eq hf hs.index hsize hfirst dateTime v
    rw [hbuf] at hrest hattr
    have hput := hv.edited hnum (hmark rfl) hplain data
    have ht : Touched vol C S h.file.record D (D.put h.file.dirBlock data) :=
      hs.touched_put hl hrest
    have hblock : (D.put h.file.dirBlock data).blocks h.file.dirBlock = data := by
      rw [hplain.put_apply, Function.update_self]
    rw [← hblock] at hattr hsize' hfirst'
    rw [hdata]
    refine (cacheFlush_yields hput).mono (fun _ w hw => ?_)
      fun _ w hw => ⟨_, hw.1, ht, hw.2⟩
    exact ⟨_, hw.1, hw.2.1, ht, ⟨hs.behind, hs.lt, hs.index, by rw [hattr]; exact hs.isFile⟩,
      ⟨hsize', hfirst'⟩, trivial⟩
  · have hclean : h.file.dirDirty = false := by simpa using hclean
    refine (cacheFlush_yields hD).mono (fun _ w hw => ?_) fun _ w hw => ⟨D, hw.1, hl.touched, hw.2⟩
    exact ⟨D, hw.1, hw.2.1, hl.touched, hs, hrec hclean, by rw [← hclean]⟩

/-- What an operation leaves of the file `f` with the clusters `cs` in the store `D`: it has the
bytes `xs` and the position `p` now, and nothing but its own is touched. -/
structure Renewed (vol : SdVolume) (C : Prop) (D : Disk) (cs : List Nat) (f : SdFile)
    (xs : List UInt8) (p : Nat) (t : Handle) : Prop where
  alike : f.Alike t.file
  fileSize : t.file.fileSize = xs.length
  position : t.file.curPosition = p
  stored : ∃ D' ds, Holds D' t.volume ∧ Touched vol C (vol.Own D cs) f.record D D' ∧
    (∀ c ∈ ds, vol.Own D cs c) ∧ Stored vol D' t.file ds xs ∧
    Seated vol D' t.file ∧ (t.file.dirDirty = false → Recorded D' t.file)

/-- An access to the card has failed, and nothing but what is the file's own is touched. -/
def Faulted (vol : SdVolume) (C : Prop) (D : Disk) (cs : List Nat) (f : SdFile) (v : State) :
    Prop :=
  ∃ D', Holds D' v ∧ Touched vol C (vol.Own D cs) f.record D D' ∧ ¬ D'.reliable

theorem ClusterChain.own {o : Option Nat} (hc : ClusterChain vol D o cs) :
    ∀ c ∈ cs, vol.Own D cs c :=
  fun c hmem => ⟨hc.clusters c hmem, Or.inl hmem⟩

theorem Content.first_lt {first : Nat} (hl : Laid vol D) (hs : Content vol D first cs xs) :
    first < 2^32 := by
  rw [hs.first]
  cases cs with
  | nil => decide
  | cons c cs => exact hl.cluster_lt (hs.chain.clusters c (by simp)).2

theorem Stored.renewed (hl : Laid vol D) (hD : Holds D h.volume) (hs : Stored vol D h.file cs xs)
    (hfile : ∃ c, h.file = { f with curCluster := c, curPosition := p }) (hseat : Seated vol D f)
    (hsize : f.fileSize = xs.length) (hrec : f.dirDirty = false → Recorded D f) :
    Renewed vol C D cs f xs p h := by
  obtain ⟨c, hfile⟩ := hfile
  have halike : f.Alike h.file := by
    rw [hfile]
    rfl
  refine ⟨halike, by rw [hfile]; exact hsize, by rw [hfile], D, cs, hD, hl.touched, hs.chain.own,
    hs, hseat.alike halike, fun hd => ?_⟩
  rw [hfile] at hd ⊢
  exact (hrec hd).alike rfl rfl rfl

theorem Renewed.synced (hr : Renewed vol C D cs f xs p h)
    (hfree : ∀ c, vol.Own D cs c → ¬ vol.InCluster c f.dirBlock) (hlt : xs.length < 2^32) :
    Yields (sync dateTime) h
      (fun _ t => Renewed vol C D cs f xs p t ∧ t.file.dirDirty = false ∧
        t.volume.cacheDirty = false)
      (fun _ t => Faulted vol C D cs f t.volume) := by
  obtain ⟨D', ds, hv, ht, hds, hs, hseat, hrec⟩ := hr.stored
  have hfile : h.file.isFile = true := by simp [SdFile.isFile, hs.type]
  have hrecord := hr.alike.record
  refine (sync_yields (C := C) (S := fun _ => False) ht.laid hv hfile hseat (hr.fileSize ▸ hlt)
    (hs.toContent.first_lt ht.laid) hrec).mono (fun _ t ht' => ?_) fun _ t ht' => ?_
  · obtain ⟨D₁, hv₁, hclean, ht₁, hseat₁, hrec₁, hfile₁⟩ := ht'
    rw [hrecord] at ht₁
    have hcontent : Content vol D₁ h.file.firstCluster ds xs :=
      hs.toContent.touched ht₁ (fun _ hf => hf.elim) fun c hc b hb i hi =>
        hfree c (hds c hc) (hi.1.1 ▸ hb)
    have halike : f.Alike t.file := by
      unfold SdFile.Alike
      rw [hfile₁, show h.file = _ from hr.alike]
    refine ⟨⟨halike, by rw [hfile₁]; exact hr.fileSize, by rw [hfile₁]; exact hr.position, D₁, ds,
      hv₁, ht.trans (ht₁.imp fun _ hf => hf.elim), hds, ?_⟩, by rw [hfile₁], hclean⟩
    rw [hfile₁]
    exact ⟨⟨hcontent, hs.type, hs.position, hs.start, hs.cluster⟩, hseat₁.alike rfl,
      fun _ => hrec₁.alike rfl rfl rfl⟩
  · obtain ⟨D₁, hv₁, ht₁, hrel⟩ := ht'
    rw [hrecord] at ht₁
    exact ⟨D₁, hv₁, ht.trans (ht₁.imp fun _ hf => hf.elim), hrel⟩

theorem Renewed.sought (hr : Renewed vol C D cs f xs p h) {q : Nat} (hq : q ≤ xs.length) :
    Yields (seekSet vol q) h (fun _ t => Renewed vol C D cs f xs q t)
      (fun _ t => Faulted vol C D cs f t.volume) := by
  obtain ⟨D', ds, hv, ht, hds, hs, hseat, hrec⟩ := hr.stored
  refine (seekSet_yields ht.laid hv hs hr.fileSize q).mono (fun _ t ht' => ?_) fun _ t ht' =>
    ⟨D', ht'.1, ht, by simpa only [if_pos hq] using ht'.2⟩
  obtain ⟨-, hv', hs', c, hfile⟩ := ht'
  have halike : f.Alike t.file := by
    unfold SdFile.Alike
    rw [hfile, show h.file = _ from hr.alike]
  refine ⟨halike, by rw [hfile]; exact hr.fileSize, by rw [hfile], D', ds, hv', ht, hds, hs', ?_⟩
  rw [hfile]
  exact ⟨hseat.alike rfl, fun hd => (hrec hd).alike rfl rfl rfl⟩

end RasPiArduino.Sd
