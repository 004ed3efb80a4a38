import RasPiArduino.SdFileEntry

/-! Writing a file: its chain grows where it must, and what is not the file's own stays. -/
namespace RasPiArduino.Sd
open LittleEndian Outcome RasPiArduino.Ring

def SdVolume.Full (vol : SdVolume) (D : Disk) : Prop := ∀ c, vol.Cluster c → vol.entry D c ≠ 0

/-- The file `g` is `f` at another place of its chain. Its directory entry is as good as before
unless it is marked. -/
structure SdFile.Onward (f g : SdFile) : Prop where
  rest : g = { f with
    curCluster := g.curCluster
    curPosition := g.curPosition
    firstCluster := g.firstCluster
    dirDirty := g.dirDirty }
  clean : g.dirDirty = false → f.dirDirty = false ∧ g.firstCluster = f.firstCluster

/-- What a write that has failed leaves of the volume. If no access to the card has failed, no
cluster is free. -/
def Spoilt (vol : SdVolume) (C : Prop) (E : Nat → Fin 512 → Prop) (D : Disk) (cs : List Nat)
    (v : State) : Prop :=
  ∃ D', Holds D' v ∧ Touched vol C (vol.Own D cs) E D D' ∧ (D'.reliable → vol.Full D')

/-- The bytes `data` are written at the position of `f`. -/
def Wrote (vol : SdVolume) (C : Prop) (E : Nat → Fin 512 → Prop) (D : Disk) (cs : List Nat)
    (f : SdFile) (xs data : List UInt8) (t : Handle) : Prop :=
  ∃ D' ds, Holds D' t.volume ∧ Touched vol C (vol.Own D cs) E D D' ∧ (∀ c ∈ ds, vol.Own D cs c) ∧
    Stored vol D' t.file ds (overwrite xs f.curPosition data) ∧
    t.file.curPosition = f.curPosition + data.length ∧ f.Onward t.file

variable {vol : SdVolume} {D D' : Disk} {h : Handle} {b c d i n p : Nat} {cs ds : List Nat}
  {xs ys data : List UInt8} {f g k : SdFile} {C : Prop} {E : Nat → Fin 512 → Prop}

theorem SdFile.Onward.trans (hfg : f.Onward g) (hgk : g.Onward k) : f.Onward k where
  rest := by
    obtain ⟨hg, -⟩ := hfg
    obtain ⟨hk, -⟩ := hgk
    rw [hg] at hk
    exact hk
  clean := fun hk => by
    obtain ⟨hg, he⟩ := hgk.clean hk
    obtain ⟨hf, he'⟩ := hfg.clean hg
    exact ⟨hf, he.trans he'⟩

theorem Touched.own (ht : Touched vol C (vol.Own D cs) E D D') (hds : ∀ c ∈ ds, vol.Own D cs c)
    (hc : vol.Own D' ds c) : vol.Own D cs c := by
  obtain ⟨hcluster, hmem | h0⟩ := hc
  · exact hds c hmem
  · by_contra hno
    exact hno ⟨hcluster, Or.inr ((ht.entry c hcluster hno).symm.trans h0)⟩

theorem Content.eq_nil {first : Nat} (hs : Content vol D first cs xs) (hfirst : first = 0) :
    cs = [] := by
  cases cs with
  | nil => rfl
  | cons c cs =>
    have hc := (hs.chain.clusters c (by simp)).1
    have hhead : first = c := hs.first
    omega

theorem Content.head?_eq {first : Nat} (hs : Content vol D first cs xs) (hfirst : first ≠ 0) :
    cs.head? = some first := by
  cases cs with
  | nil => exact absurd hs.first hfirst
  | cons c cs => exact congrArg some hs.first.symm

theorem Content.grown {first : Nat} (hl : Laid vol D) (hs : Content vol D first cs xs)
    (hre : Retabled vol (fun c => c ∈ List.range' b 1 ∨ c = cs.getLast?.getD 0) D D')
    (hfree : ∀ c ∈ List.range' b 1, vol.Cluster c ∧ vol.entry D c = 0)
    (hnew : ClusterChain vol D' (some b) (List.range' b 1))
    (hlink : cs.getLast?.getD 0 ≠ 0 → vol.nodes D' (cs.getLast?.getD 0) = some ⟨(), some b⟩) :
    Content vol D' ((cs ++ [b]).head?.getD 0) (cs ++ [b]) xs where
  chain := hs.chain.grown hre hfree hnew hlink
  first := rfl
  room := by
    have := hs.room
    rw [List.length_append, Nat.add_mul]
    omega
  bytes := fun p x hx => by
    obtain ⟨c, hc⟩ := hs.cluster_at (List.getElem?_eq_some_iff.mp hx).1
    have hlt := (List.getElem?_eq_some_iff.mp hc).1
    have hblock : vol.blockAt (cs ++ [b]) p = vol.blockAt cs p := by
      rw [SdVolume.blockAt, SdVolume.blockAt, List.getElem?_append_left hlt]
    have hin := hl.inCluster_lt (hs.cluster hc) (SdVolume.blockAt_inCluster hc)
    rw [byteAt, hblock, hre.behind _ (hl.tables.trans hin.1)]
    exact hs.bytes p x hx

/-- A file at the end of its chain is given another cluster. -/
theorem addCluster_yields (hl : Laid vol D) (hD : Holds D h.volume)
    (hs : Content vol D h.file.firstCluster cs xs)
    (hcur : h.file.curCluster = cs.getLast?.getD 0) :
    Yields (addCluster vol) h
      (fun _ t => ∃ D' b, Holds D' t.volume ∧ Touched vol C (vol.Own D cs) E D D' ∧
        vol.Cluster b ∧ vol.entry D b = 0 ∧ Content vol D' t.file.firstCluster (cs ++ [b]) xs ∧
        t.file.curCluster = b ∧ t.file.curPosition = h.file.curPosition ∧ h.file.Onward t.file)
      (fun _ t => Spoilt vol C E D cs t.volume) := by
  have hlast (hne : h.file.curCluster ≠ 0) : h.file.curCluster ∈ cs := by
    rw [hcur] at hne ⊢
    exact mem_of_getLast?_getD hne
  have hchain (hne : h.file.curCluster ≠ 0) :
      vol.Cluster h.file.curCluster ∧ vol.entry D h.file.curCluster ≠ 0 :=
    ⟨hs.chain.clusters _ (hlast hne), hs.chain.entry_ne_zero (hlast hne)⟩
  unfold addCluster
  simp only [yields_bind, yields_getFile, yields_ite, yields_onFile, yields_onVolume, yields_pure]
  refine (allocContiguous_yields hD hl Nat.one_pos hchain).mono (fun b v hv => ?_) fun _ v hv => ?_
  · obtain ⟨D', hv, hre, hfree, hnew, hlink⟩ := hv
    rw [hcur] at hre hlink
    have hb := hfree b (by simp)
    have hgrown := hs.grown hl hre hfree hnew hlink
    have ht : Touched vol C (vol.Own D cs) E D D' := by
      -- an entry of cluster zero is none
      refine ⟨hre.laid, hre.size, hre.reliable.mp, fun _ => hre.reliable.mpr,
        fun c hc hS => hre.entry c hc.2 ?_,
        fun b i hb _ _ => congrFun (hre.behind b hb) i⟩
      rintro (hd | rfl)
      · exact hS ⟨hc, Or.inr (hfree c hd).2⟩
      · refine hS ⟨hc, Or.inl (mem_of_getLast?_getD fun h0 => ?_)⟩
        have := hc.1
        omega
    refine ⟨fun hzero => ⟨D', b, hv, ht, hb.1, hb.2, ?_, rfl, trivial, rfl, fun hd => ?_⟩,
      fun hne => ⟨D', b, hv, ht, hb.1, hb.2, ?_, rfl, trivial, rfl, fun hd => ⟨hd, rfl⟩⟩⟩
    · obtain rfl := hs.eq_nil hzero
      exact hgrown
    · exact absurd hd (by simp)
    · cases cs with
      | nil => exact absurd hs.first hne
      | cons c cs =>
        have hfirst : h.file.firstCluster = c := hs.first
        rw [hfirst]
        exact hgrown
  · obtain ⟨D', hv, hre, hrel⟩ := hv
    refine ⟨D', hv, ⟨hre.laid, hre.size, hre.reliable.mp, fun _ => hre.reliable.mpr,
      fun c hc hS => hre.entry c hc.2 fun h0 => hS ⟨hc, Or.inr h0⟩,
      fun b i hb _ _ => congrFun (hre.behind b hb) i⟩, fun hr => ?_⟩
    obtain ⟨rfl, hfull⟩ := hrel (hre.reliable.mp hr)
    exact hfull rfl

/-- The current cluster of the file `g`, which is `f` otherwise, is that of the position. -/
def AtCluster (vol : SdVolume) (C : Prop) (E : Nat → Fin 512 → Prop) (D : Disk) (cs : List Nat)
    (f : SdFile) (xs : List UInt8) (t : Handle) : Prop :=
  ∃ D' ds, Holds D' t.volume ∧ Touched vol C (vol.Own D cs) E D D' ∧ (∀ c ∈ ds, vol.Own D cs c) ∧
    Content vol D' t.file.firstCluster ds xs ∧
    ds[f.curPosition / vol.clusterBytes]? = some t.file.curCluster ∧
    t.file.curPosition = f.curPosition ∧ f.Onward t.file

theorem Stored.atCluster (hl : Laid vol D) (hs : Stored vol D f cs xs) {v : State} (hv : Holds D v)
    (hc : cs[f.curPosition / vol.clusterBytes]? = some c) :
    AtCluster vol C E D cs f xs ⟨{ f with curCluster := c }, v⟩ :=
  ⟨D, cs, hv, hl.touched, hs.chain.own, hs.toContent, hc, rfl, rfl, fun hd => ⟨hd, rfl⟩⟩

theorem addCluster_atCluster (hl : Laid vol D) (hs : Stored vol D f cs xs) {v : State}
    (hv : Holds D v) (hcur : f.curCluster = cs.getLast?.getD 0)
    (hend : f.curPosition / vol.clusterBytes = cs.length) :
    Yields (addCluster vol) ⟨f, v⟩ (fun _ t => AtCluster vol C E D cs f xs t)
      (fun _ t => Spoilt vol C E D cs t.volume) := by
  refine (addCluster_yields (h := ⟨f, v⟩) hl hv hs.toContent hcur).mono (fun _ t ht => ?_)
    fun _ t ht => ht
  obtain ⟨D', b, ht, htouched, hb, hfree, hcontent, rfl, hpos, honward⟩ := ht
  refine ⟨D', _, ht, htouched, fun c hc => ?_, hcontent, ?_, hpos, honward⟩
  · obtain hc | hc := List.mem_append.mp hc
    · exact hs.chain.own c hc
    · exact List.mem_singleton.mp hc ▸ ⟨hb, Or.inr hfree⟩
  · rw [hend, List.getElem?_concat_length]

theorem Stored.at_start (hs : Stored vol D f cs xs) (hzero : f.curCluster = 0) :
    f.curPosition = 0 := by
  by_contra hne
  have hcur := hs.toContent.cluster (hs.cluster (Nat.pos_of_ne_zero hne))
  have := hcur.1
  omega

theorem Stored.cluster_inside (hs : Stored vol D f cs xs)
    (hne : f.curPosition % vol.clusterBytes ≠ 0) :
    cs[f.curPosition / vol.clusterBytes]? = some f.curCluster := by
  have hpos : 0 < f.curPosition := by
    by_contra h0
    rw [show f.curPosition = 0 by omega] at hne
    exact hne (Nat.zero_mod _)
  have hcur := hs.cluster hpos
  rwa [div_pred vol.clusterBytes_pos hne] at hcur

theorem Stored.cluster_last (hs : Stored vol D f cs xs) (hpos : 0 < f.curPosition)
    (hmod : f.curPosition % vol.clusterBytes = 0)
    (hnone : cs[f.curPosition / vol.clusterBytes]? = none) :
    f.curCluster = cs.getLast?.getD 0 ∧ f.curPosition / vol.clusterBytes = cs.length := by
  have hcur := hs.cluster hpos
  have hindex := div_pred_of_mod vol.clusterBytes_pos hmod hpos
  have hlt := (List.getElem?_eq_some_iff.mp hcur).1
  have hge := List.getElem?_eq_none_iff.mp hnone
  have hend : f.curPosition / vol.clusterBytes = cs.length := by omega
  refine ⟨?_, hend⟩
  rw [List.getLast?_eq_getElem?, ← hend, ← hindex, Nat.add_sub_cancel, hcur, Option.getD_some]

/-- Before a byte is written the current cluster is that of its position. -/
theorem clusterToWrite_yields (hl : Laid vol D) (hD : Holds D h.volume)
    (hs : Stored vol D h.file cs xs) :
    Yields (clusterToWrite vol) h (fun _ t => AtCluster vol C E D cs h.file xs t)
      (fun _ t => Spoilt vol C E D cs t.volume) := by
  have hmod := vol.mod_clusterBytes_eq_zero h.file.curPosition
  unfold clusterToWrite
  simp only [yields_bind, yields_getFile, yields_ite, yields_onFile, yields_onVolume, yields_pure,
    yields_noteError, hl.blockOfCluster]
  refine ⟨fun hstart => ⟨fun hzero => ⟨fun hempty => ?_, fun hfirst => ?_⟩, fun hne => ?_⟩,
    fun hin => ?_⟩
  · -- the file has no cluster
    obtain rfl := hs.eq_nil hempty
    refine addCluster_atCluster hl hs hD hzero ?_
    rw [hs.at_start hzero, Nat.zero_div, List.length_nil]
  · refine hs.atCluster hl hD ?_
    rw [hs.at_start hzero, Nat.zero_div, ← List.head?_eq_getElem?, hs.head?_eq hfirst]
  · have hpos : 0 < h.file.curPosition := Nat.pos_of_ne_zero fun h0 => hne (hs.start h0)
    have hcur := hs.cluster hpos
    have hnext := hs.chain.entry_at hcur
    rw [div_pred_of_mod vol.clusterBytes_pos (hmod.mpr hstart) hpos] at hnext
    refine (fatGet_yields hD hl (hs.toContent.cluster hcur).2).mono (fun x v hv => ?_)
      fun _ v hv => ⟨D, hv.1, hl.touched, fun hr => absurd hr hv.2⟩
    obtain ⟨hv, rfl⟩ := hv
    cases hx : cs[h.file.curPosition / vol.clusterBytes]? with
    | none =>
      rw [hx] at hnext
      refine ⟨fun _ => ?_, fun hno => absurd hnext hno⟩
      obtain ⟨hlast, hend⟩ := hs.cluster_last hpos (hmod.mpr hstart) hx
      exact addCluster_atCluster hl hs hv hlast hend
    | some d =>
      rw [hx] at hnext
      refine ⟨fun hend => absurd hend hnext.2, fun _ => hs.atCluster hl hv ?_⟩
      rw [hx, hnext.1]
  · exact hs.atCluster hl hD (hs.cluster_inside fun h0 => hin (hmod.mp h0))

theorem Stored.wrote_nil (hl : Laid vol D) (hD : Holds D h.volume)
    (hs : Stored vol D h.file cs xs) : Wrote vol C E D cs h.file xs [] h := by
  refine ⟨D, cs, hD, hl.touched, hs.chain.own, ?_, rfl, rfl, fun hd => ⟨hd, rfl⟩⟩
  simpa [overwrite] using hs

theorem Touched.spoilt {v : State} (ht : Touched vol C (vol.Own D cs) E D D')
    (hds : ∀ c ∈ ds, vol.Own D cs c) (h : Spoilt vol C E D' ds v) : Spoilt vol C E D cs v := by
  obtain ⟨D'', hv, ht', hfull⟩ := h
  exact ⟨D'', hv, ht.trans (ht'.imp fun c => ht.own hds), hfull⟩

/-- A part that is written to one block goes over the bytes at the position. -/
theorem writePart_stores {D₁ : Disk} (ht : Holds D₁ h.volume)
    (htouched : Touched vol C (vol.Own D cs) E D D₁) (hds : ∀ c ∈ ds, vol.Own D cs c)
    (hcontent : Content vol D₁ h.file.firstCluster ds xs)
    (hc : ds[h.file.curPosition / vol.clusterBytes]? = some h.file.curCluster)
    (htype : h.file.type = .normal) (hsize : xs.length = max h.file.fileSize h.file.curPosition)
    (hpos : 0 < data.length) (hfit : h.file.curPosition % 512 + data.length ≤ 512)
    (hsmall : C → data.length < 512) :
    Yields (writePart (vol.clusterStartBlock h.file.curCluster +
        vol.blockOfCluster h.file.curPosition) (h.file.curPosition % 512) data
        (decide (h.file.curPosition % 512 = 0 ∧ h.file.curPosition ≥ h.file.fileSize))) h.volume
      (fun _ w => ∃ D', Holds D' w ∧ Touched vol C (vol.Own D cs) E D D' ∧
        Stored vol D' { h.file with curPosition := h.file.curPosition + data.length } ds
          (overwrite xs h.file.curPosition data))
      (fun _ w => Spoilt vol C E D cs w) := by
  have hcluster := hcontent.cluster hc
  have hin := SdVolume.blockAt_inCluster hc
  have hblock : vol.clusterStartBlock h.file.curCluster + vol.blockOfCluster h.file.curPosition =
      vol.blockAt ds h.file.curPosition := by
    rw [SdVolume.blockAt, hc, Option.getD_some, htouched.laid.blockOfCluster,
      htouched.laid.clusterStartBlock hcluster]
  have hput (x : Block) :
      Touched vol C (vol.Own D cs) E D (D₁.put (vol.blockAt ds h.file.curPosition) x) :=
    htouched.trans (htouched.laid.touched_put hcluster hin (hds _ (List.mem_of_getElem? hc)))
  have hwhole (p : Prop) : C → ¬ (data.length = 512 ∧ p) := fun hC => by
    have := hsmall hC
    omega
  have hplace : h.file.curPosition ≤ xs.length := by omega
  rw [hblock]
  refine (writePart_yields ht (htouched.laid.plain_inCluster hcluster hin) hfit _).mono
    (fun _ w hw => ?_) fun _ w hw => ?_
  · obtain ⟨old, hold, hw⟩ := hw
    have hold' : old = D₁.blocks (vol.blockAt ds h.file.curPosition) ∨
        h.file.curPosition % 512 = 0 ∧ xs.length ≤ h.file.curPosition := by
      by_cases hfresh : h.file.curPosition % 512 = 0 ∧ h.file.curPosition ≥ h.file.fileSize
      · exact Or.inr ⟨hfresh.1, by omega⟩
      · exact Or.inl (hold (decide_eq_false hfresh))
    have hlength : (overwrite xs h.file.curPosition data).length =
        max xs.length (h.file.curPosition + data.length) := length_overwrite_of_le hplace
    have hdiv : (h.file.curPosition + data.length - 1) / vol.clusterBytes =
        h.file.curPosition / vol.clusterBytes := by
      rw [vol.div_clusterBytes, vol.div_clusterBytes,
        show (h.file.curPosition + data.length - 1) / 512 = h.file.curPosition / 512 by omega]
    refine ⟨_, hw, (hput _).unless (hwhole _),
      (hcontent.put htouched.laid hc hplace hfit old hold').unless _, htype, ?_, fun h0 => ?_,
      fun _ => by rw [hdiv]; exact hc⟩
    · rw [hlength]
      exact Nat.le_max_right _ _
    · simp only at h0
      omega
  · obtain ⟨old, hw, hrel⟩ := hw
    exact ⟨_, hw, hput old, fun hr => absurd hr hrel⟩

theorem Wrote.append {D' : Disk} {k m : Nat} {t : Handle}
    (ht : Touched vol C (vol.Own D cs) E D D') (hds : ∀ c ∈ ds, vol.Own D cs c)
    (honward : f.Onward g) (hpos : g.curPosition = f.curPosition)
    (hplace : f.curPosition ≤ xs.length) (hm : (data.take k).length = m)
    (hw : Wrote vol C E D' ds { g with curPosition := g.curPosition + m }
      (overwrite xs g.curPosition (data.take k)) (data.drop k) t) :
    Wrote vol C E D cs f xs data t := by
  obtain ⟨D₂, es, hu, htouched, hes, hstored, hend, honward'⟩ := hw
  have hover : overwrite (overwrite xs f.curPosition (data.take k))
      (f.curPosition + (data.take k).length) (data.drop k) =
      overwrite xs f.curPosition (data.take k ++ data.drop k) :=
    overwrite_overwrite hplace
  rw [hm, List.take_append_drop] at hover
  have hlen : m + (data.drop k).length = data.length := by
    rw [← hm, ← List.length_append, List.take_append_drop]
  refine ⟨D₂, es, hu, ht.trans (htouched.imp fun c => ht.own hds),
    fun c hc => ht.own hds (hes c hc), ?_, ?_, honward.trans ⟨honward'.rest, honward'.clean⟩⟩
  · rw [← hover, ← hpos]
    exact hstored
  · rw [hend]
    simp only
    omega

/-- What is written goes over the bytes at the position and behind them. -/
theorem writeLoop_yields (hl : Laid vol D) (hD : Holds D h.volume)
    (hs : Stored vol D h.file cs xs)
    (hsize : xs.length = max h.file.fileSize h.file.curPosition)
    (hlt : h.file.curPosition + data.length < 2^32) (hi : data.length ≤ i)
    (hsmall : C → data.length < 512) :
    Yields (writeLoop vol i data) h (fun _ t => Wrote vol C E D cs h.file xs data t)
      (fun _ t => Spoilt vol C E D cs t.volume) := by
  induction i generalizing h D cs xs data with
  | zero =>
    obtain rfl : data = [] := List.length_eq_zero_iff.mp (by omega)
    exact hs.wrote_nil hl hD
  | succ i ih =>
    unfold writeLoop
    simp only [yields_bind, yields_getFile, yields_ite, yields_pure, yields_onFile,
      yields_onVolume, yields_noteError]
    refine ⟨fun hnil => hnil ▸ hs.wrote_nil hl hD, fun hne => ?_⟩
    have hsome : 0 < data.length := List.length_pos_iff.mpr hne
    refine (clusterToWrite_yields (E := E) hl hD hs).mono (fun _ t ht => ?_) fun _ t ht => ht
    obtain ⟨D₁, ds, ht, htouched, hds, hcontent, hc, hpos, honward⟩ := ht
    obtain ⟨n, hn⟩ : ∃ n, min data.length (512 - t.file.curPosition % 512) = n := ⟨_, rfl⟩
    have hlen : (data.take n).length = n := by simp; omega
    have hsizes : t.file.fileSize = h.file.fileSize := by rw [honward.rest]
    rw [hn]
    refine (writePart_stores ht htouched hds hcontent (hpos ▸ hc) (by rw [honward.rest]; exact hs.type)
      (by omega) (by omega) (by omega) fun hC => by have := hsmall hC; omega).mono
      (fun _ w hw => ?_) fun _ w hw => hw
    obtain ⟨D₂, hw, htouched, hstored⟩ := hw
    have hmod : (t.file.curPosition + n) % 2^32 = t.file.curPosition + n :=
      Nat.mod_eq_of_lt (by omega)
    have hlength : (overwrite xs t.file.curPosition (data.take n)).length =
        max xs.length (t.file.curPosition + n) := by
      rw [length_overwrite_of_le (by omega), hlen]
    rw [hlen] at hstored
    rw [hmod]
    refine (ih (h := ⟨{ t.file with curPosition := t.file.curPosition + n }, w⟩) htouched.laid hw
      hstored (by rw [hlength]; simp only; omega) (by simp only [List.length_drop]; omega)
      (by simp only [List.length_drop]; omega)
      fun hC => by have := hsmall hC; simp only [List.length_drop]; omega).mono
      (fun _ u hu => ?_) fun _ u hu => htouched.spoilt hds hu
    exact hu.append htouched hds honward hpos (by omega) hlen

def SdFile.place (f : SdFile) : Nat := if f.append then f.fileSize else f.curPosition

theorem Stored.place_le (hs : Stored vol D f cs xs) (hsize : f.fileSize = xs.length) :
    f.place ≤ xs.length := by
  have := hs.position
  unfold SdFile.place
  split <;> omega

theorem SdFile.Onward.alike {dirty : Bool} (h : SdFile.Onward { f with
      curCluster := c, curPosition := p } g) :
    f.Alike { g with fileSize := n, dirDirty := dirty } := by
  obtain ⟨hg, -⟩ := h
  unfold SdFile.Alike
  rw [hg]

theorem Wrote.renewed {t : Handle} {dirty : Bool}
    (hw : Wrote vol C (fun _ _ => False) D cs { f with curCluster := c, curPosition := f.place } xs
      data t) (hseat : Seated vol D f)
    (hfree : ∀ c, vol.Own D cs c → ¬ vol.InCluster c f.dirBlock)
    (hrec : f.dirDirty = false → Recorded D f)
    (hn : n = (overwrite xs f.place data).length)
    (hdirty : dirty = false → t.file.dirDirty = false ∧ n = f.fileSize) :
    Renewed vol C D cs f (overwrite xs f.place data) (f.place + data.length)
      { t with file := { t.file with fileSize := n, dirDirty := dirty } } := by
  obtain ⟨D', ds, hv, ht, hds, hs, hpos, honward⟩ := hw
  have halike : f.Alike { t.file with fileSize := n, dirDirty := dirty } := honward.alike
  have hseat' : Seated vol D' f := hseat.touched ht hfree fun _ _ _ => id
  refine ⟨halike, hn, hpos, D', ds, hv, ht.within, hds,
    ⟨hs.toContent, hs.type, hs.position, hs.start, hs.cluster⟩, hseat'.alike halike, fun hd => ?_⟩
  obtain ⟨hd, hsize⟩ := hdirty hd
  obtain ⟨hfd, hfirst⟩ := honward.clean hd
  exact ((hrec hfd).touched hseat ht hfree fun _ _ _ => id).alike halike hsize hfirst

/-- Behind the loop the size is noted, and the directory entry is brought up to date if the file
is always to be. -/
theorem endWrite_yields {dateTime : Option (Nat × Nat)}
    (hw : Wrote vol C (fun _ _ => False) D cs { f with curCluster := c, curPosition := f.place } xs
      data h) (hseat : Seated vol D f)
    (hfree : ∀ c, vol.Own D cs c → ¬ vol.InCluster c f.dirBlock)
    (hrec : f.dirDirty = false → Recorded D f) (hsize : f.fileSize = xs.length)
    (hplace : f.place ≤ xs.length) (hlt : xs.length < 2^32) (hlt' : f.place + data.length < 2^32) :
    Yields (endWrite data.length dateTime) h
      (fun _ t => Renewed vol C D cs f (overwrite xs f.place data) (f.place + data.length) t)
      (fun _ t => Spoilt vol C f.record D cs t.volume) := by
  have hlength : (overwrite xs f.place data).length = max xs.length (f.place + data.length) :=
    length_overwrite_of_le hplace
  have hpos : h.file.curPosition = f.place + data.length := by
    obtain ⟨-, -, -, -, -, -, hpos, -⟩ := hw
    exact hpos
  have hold : h.file.fileSize = f.fileSize := by
    obtain ⟨-, -, -, -, -, -, -, honward⟩ := hw
    rw [honward.rest]
  have hends {t : Handle}
      (ht : Renewed vol C D cs f (overwrite xs f.place data) (f.place + data.length) t) :
      (h.file.syncAlways → Yields (sync dateTime) t
        (fun _ t => Renewed vol C D cs f (overwrite xs f.place data) (f.place + data.length) t)
        (fun _ t => Spoilt vol C f.record D cs t.volume)) ∧
      (¬ h.file.syncAlways →
        Renewed vol C D cs f (overwrite xs f.place data) (f.place + data.length) t) := by
    refine ⟨fun _ => (ht.synced hfree (by omega)).mono (fun _ t ht => ht.1) fun _ t ht => ?_,
      fun _ => ht⟩
    obtain ⟨D', hv, ht, hrel⟩ := ht
    exact ⟨D', hv, ht, fun hr => absurd hr hrel⟩
  unfold endWrite
  simp only [yields_bind, yields_getFile, yields_ite, yields_pure, yields_onFile, yields_noteError]
  refine ⟨fun hgrown => ?_, fun hno => ?_⟩
  · have hn : h.file.curPosition = (overwrite xs f.place data).length := by omega
    exact hends (hw.renewed hseat hfree hrec hn fun hd => absurd hd (by simp))
  · have hn : h.file.fileSize = (overwrite xs f.place data).length := by omega
    exact ⟨fun _ => hends (hw.renewed hseat hfree hrec hn fun hd => absurd hd (by simp)),
      fun _ => hends (hw.renewed hseat hfree hrec hn fun hd => ⟨hd, hold⟩)⟩

theorem write_yields {dateTime : Option (Nat × Nat)} (hl : Laid vol D) (hD : Holds D h.volume)
    (hs : Stored vol D h.file cs xs) (hseat : Seated vol D h.file)
    (hfree : ∀ c, vol.Own D cs c → ¬ vol.InCluster c h.file.dirBlock)
    (hsize : h.file.fileSize = xs.length) (hxs : xs.length < 2^32)
    (hrec : h.file.dirDirty = false → Recorded D h.file)
    (hlt : h.file.place + data.length < 2^32) (hsmall : C → data.length < 512) :
    Yields (write vol data dateTime) h
      (fun r t => h.file.forWrite ∧ r = data.length ∧
        Renewed vol C D cs h.file (overwrite xs h.file.place data) (h.file.place + data.length) t)
      (fun _ t => if h.file.forWrite then Spoilt vol C h.file.record D cs t.volume
        else Holds D t.volume ∧ t.file = { h.file with writeError := true }) := by
  have hplace := hs.place_le hsize
  have hfile : h.file.isFile = true := by simp [SdFile.isFile, hs.type]
  have hloop {t : Handle} (ht : Holds D t.volume) (hst : Stored vol D t.file cs xs)
      (hfile : ∃ c, t.file = { h.file with curCluster := c, curPosition := h.file.place }) :
      Yields (writeLoop vol data.length data) t
        (fun _ u => Yields (endWrite data.length dateTime) u
          (fun _ u => Renewed vol C D cs h.file (overwrite xs h.file.place data)
            (h.file.place + data.length) u)
          (fun _ u => Spoilt vol C h.file.record D cs u.volume))
        (fun _ u => Spoilt vol C h.file.record D cs u.volume) := by
    obtain ⟨c, hfile⟩ := hfile
    have hpos : t.file.curPosition = h.file.place := by rw [hfile]
    have hsize' : t.file.fileSize = xs.length := by rw [hfile, ← hsize]
    refine (writeLoop_yields (E := fun _ _ => False) hl ht hst (by omega) (by omega) (Nat.le_refl _)
      hsmall).mono
      (fun _ u hu => ?_) fun _ u hu => ?_
    · rw [hfile] at hu
      exact endWrite_yields hu hseat hfree hrec hsize hplace hxs hlt
    · obtain ⟨D', hv, ht, hfull⟩ := hu
      exact ⟨D', hv, ht.within, hfull⟩
  unfold write
  simp only [yields_bind, yields_getFile, yields_ite, yields_throw, yields_noteError, yields_pure]
  refine ⟨fun hno => ?_, fun hok => ?_⟩
  · have hfor : h.file.forWrite = false := by simpa [hfile] using hno
    rw [if_neg (by simp [hfor])]
    exact ⟨hD, trivial⟩
  · have hfor : h.file.forWrite = true := by
      by_contra hw
      exact hok (Or.inr hw)
    simp only [hfor, if_true, true_and]
    refine ⟨fun happend => ?_, fun hstay => hloop hD hs ⟨h.file.curCluster, ?_⟩⟩
    · have hat : h.file.place = h.file.fileSize := if_pos happend.1
      unfold seekEnd
      simp only [yields_bind, yields_getFile]
      refine (seekSet_yields hl hD hs hsize h.file.fileSize).mono (fun _ t ht => ?_) fun _ t ht => ?_
      · obtain ⟨-, ht, hst, hfile⟩ := ht
        exact hloop ht hst (hat ▸ hfile)
      · have hrel := ht.2
        rw [if_pos (show h.file.fileSize ≤ xs.length by omega)] at hrel
        exact ⟨D, ht.1, hl.touched, fun hr => absurd hr hrel⟩
    · have hat : h.file.place = h.file.curPosition := by
        unfold SdFile.place
        split
        · rename_i happ
          by_contra hne
          exact hstay ⟨happ, Ne.symm hne⟩
        · rfl
      rw [hat]

end RasPiArduino.Sd
