import RasPiArduino.SdFileEntry

/-! Cutting a file off: what is behind the cut is freed, and the cluster before it ends the chain. -/
namespace RasPiArduino.Sd
open LittleEndian Outcome

variable {vol : SdVolume} {D D' : Disk} {h : Handle} {c d first i n p : Nat} {cs : List Nat}
  {xs : List UInt8} {f : SdFile} {C : Prop} {dateTime : Option (Nat × Nat)}

theorem ClusterChain.drop (hc : ClusterChain vol D cs.head? cs) (i : Nat) :
    ClusterChain vol D (cs.drop i).head? (cs.drop i) := by
  induction cs generalizing i with
  | nil => simpa using hc
  | cons c cs ih =>
    cases i with
    | zero => exact hc
    | succ i =>
      cases cs with
      | nil => simpa using clusterChain_nil.mpr rfl
      | cons d cs => exact ih hc.link.2.2.2 i

theorem ClusterChain.take (hc : ClusterChain vol D cs.head? cs) (hi : cs[i]? = some c)
    (hentry : ∀ x ∈ cs.take i, vol.entry D' x = vol.entry D x)
    (hend : vol.isEOC (vol.entry D' c) = true) :
    ClusterChain vol D' (cs.take (i + 1)).head? (cs.take (i + 1)) := by
  induction cs generalizing i with
  | nil => simp at hi
  | cons x cs ih =>
    have hx := hc.clusters x List.mem_cons_self
    cases i with
    | zero =>
      obtain rfl : x = c := by simpa using hi
      have hne : vol.entry D' x ≠ 0 := by
        intro h0
        rw [h0, vol.isEOC_zero] at hend
        exact Bool.false_ne_true hend
      exact clusterChain_cons.mpr ⟨rfl, hx, hne, clusterChain_nil.mpr (if_pos hend)⟩
    | succ i =>
      cases cs with
      | nil => simp at hi
      | cons y cs =>
        obtain ⟨-, hno, hxy, htail⟩ := hc.link
        have hsame := hentry x (by simp)
        have hy := htail.clusters y List.mem_cons_self
        have hrest := ih htail (by simpa using hi) fun z hz => hentry z (List.mem_cons_of_mem x hz)
        refine clusterChain_cons.mpr ⟨rfl, hx, ?_, ?_⟩
        · rw [hsame, hxy]
          have := hy.1
          omega
        · rw [hsame, if_neg hno, hxy]
          exact hrest

theorem ClusterChain.rest (hc : ClusterChain vol D cs.head? cs) (hi : cs[i]? = some c)
    (hno : ¬ vol.isEOC (vol.entry D c) = true) :
    ClusterChain vol D (some (vol.entry D c)) (cs.drop (i + 1)) := by
  have hnext := hc.entry_at hi
  have hdrop := hc.drop (i + 1)
  cases hx : cs[i + 1]? with
  | none =>
    rw [hx] at hnext
    exact absurd hnext hno
  | some d =>
    rw [hx] at hnext
    rwa [List.head?_drop, hx, ← hnext.1] at hdrop

theorem ClusterChain.apart_at (hc : ClusterChain vol D cs.head? cs) (hi : cs[i]? = some c) {x : Nat}
    (hx : x ∈ cs.take i) : x ≠ c ∧ x ∉ cs.drop (i + 1) := by
  obtain ⟨hlt, hget⟩ := List.getElem?_eq_some_iff.mp hi
  have hsplit : cs = cs.take i ++ (c :: cs.drop (i + 1)) := by
    rw [← hget, ← List.drop_eq_getElem_cons hlt, List.take_append_drop]
  have hnodup := hc.nodup
  rw [hsplit] at hnodup
  have hapart := (List.nodup_append.mp hnodup).2.2 x hx
  exact ⟨hapart c List.mem_cons_self, fun hd => hapart x (List.mem_cons_of_mem _ hd) rfl⟩

theorem Content.cut (hs : Content vol D first cs xs) (hl : Laid vol D)
    (hn : n ≤ xs.length) (hc : cs[(n - 1) / vol.clusterBytes]? = some c)
    (hentry : ∀ x ∈ cs.take ((n - 1) / vol.clusterBytes), vol.entry D' x = vol.entry D x)
    (hend : vol.isEOC (vol.entry D' c) = true)
    (hbehind : ∀ b, vol.fatStartBlock + vol.fatCount * vol.blocksPerFat ≤ b →
      D'.blocks b = D.blocks b) :
    Content vol D' first (cs.take ((n - 1) / vol.clusterBytes + 1)) (xs.take n) where
  chain := hs.chain.take hc hentry hend
  first := by
    rw [hs.first, List.head?_take, if_neg (Nat.succ_ne_zero _)]
  room := by
    have hlt := (List.getElem?_eq_some_iff.mp hc).1
    have hlast := (Nat.div_lt_iff_lt_mul vol.clusterBytes_pos).mp
      (Nat.lt_succ_self ((n - 1) / vol.clusterBytes))
    rw [List.length_take, List.length_take, Nat.min_eq_left hn, Nat.min_eq_left hlt]
    exact Nat.le_of_pred_lt hlast
  bytes := fun p x hx => by
    have hp : p < n := by
      have := (List.getElem?_eq_some_iff.mp hx).1
      simp only [List.length_take] at this
      omega
    rw [List.getElem?_take_of_lt hp] at hx
    obtain ⟨d, hd⟩ := hs.cluster_at (List.getElem?_eq_some_iff.mp hx).1
    have hle := Nat.div_le_div_right (c := vol.clusterBytes) (Nat.le_sub_one_of_lt hp)
    have hblock : vol.blockAt (cs.take ((n - 1) / vol.clusterBytes + 1)) p = vol.blockAt cs p := by
      rw [SdVolume.blockAt, SdVolume.blockAt, List.getElem?_take_of_lt (Nat.lt_succ_of_le hle)]
    have hin := hl.inCluster_lt (hs.cluster hd) (SdVolume.blockAt_inCluster hd)
    rw [byteAt, hblock, hbehind _ (hl.tables.trans hin.1)]
    exact hs.bytes p x hx

/-- The chain of a file at the position `n` becomes that of its first `n` bytes. -/
theorem cutChain_yields (hl : Laid vol D) (hD : Holds D h.volume)
    (hs : Stored vol D h.file cs xs) (hn : n ≤ xs.length) (hsome : xs ≠ [])
    (hpos : h.file.curPosition = n) :
    Yields (cutChain vol n) h
      (fun _ t => ∃ D' ds, Holds D' t.volume ∧ Retabled vol (· ∈ cs) D D' ∧ (∀ c ∈ ds, c ∈ cs) ∧
        Stored vol D' t.file ds (xs.take n) ∧ ∃ c, t.file = { h.file with firstCluster := c })
      (fun _ t => ∃ D', Holds D' t.volume ∧ Retabled vol (· ∈ cs) D D' ∧ ¬ D.reliable) := by
  unfold cutChain
  simp only [yields_bind, yields_getFile, yields_ite, yields_onFile, yields_onVolume, yields_pure]
  refine ⟨fun hzero => ?_, fun hne => ?_⟩
  · subst hzero
    obtain ⟨c, hc⟩ := hs.cluster_at (List.length_pos_iff.mpr hsome)
    rw [Nat.zero_div] at hc
    have hhead : cs.head? = some h.file.firstCluster := by
      rw [List.head?_eq_getElem?, hs.head hc, hc]
    refine (freeChain_yields hl hD (hhead ▸ hs.chain)).mono (fun _ v hv => ?_) fun _ v hv => hv
    obtain ⟨D', hv, hre, -⟩ := hv
    refine ⟨D', [], hv, hre, by simp, ⟨⟨clusterChain_nil.mpr rfl, rfl, by simp, by simp⟩, hs.type,
      by simp [hpos], hs.start, fun hlt => ?_⟩, _, rfl⟩
    simp only [hpos] at hlt
    exact absurd hlt (Nat.lt_irrefl 0)
  · have hlt := Nat.pos_of_ne_zero hne
    have hcur := hs.cluster (hpos ▸ hlt)
    rw [hpos] at hcur
    have hcluster := hs.toContent.cluster hcur
    have hmem : h.file.curCluster ∈ cs := List.mem_of_getElem? hcur
    generalize hi : (n - 1) / vol.clusterBytes = i at hcur
    -- the file with the clusters up to its current one, once that is the last
    have hcut {D' : Disk} (hre : Retabled vol (· ∈ cs) D D')
        (hentry : ∀ x ∈ cs.take i, vol.entry D' x = vol.entry D x)
        (hend : vol.isEOC (vol.entry D' h.file.curCluster) = true) :
        (∀ c ∈ cs.take (i + 1), c ∈ cs) ∧
          Stored vol D' h.file (cs.take (i + 1)) (xs.take n) ∧
          ∃ c, h.file = { h.file with firstCluster := c } := by
      have hcontent := hs.toContent.cut hl hn (by rwa [hi]) (by rwa [hi]) hend hre.behind
      rw [hi] at hcontent
      refine ⟨fun c hc => List.mem_of_mem_take hc, ⟨hcontent, hs.type, ?_, hs.start, fun _ => ?_⟩,
        _, rfl⟩
      · simp [hpos, hn]
      · rw [hpos, hi, List.getElem?_take_of_lt (Nat.lt_succ_self i)]
        exact hcur
    refine (fatGet_yields hD hl hcluster.2).mono (fun x v hv => ?_)
      fun _ v hv => ⟨D, hv.1, hl.retabled _, hv.2⟩
    obtain ⟨hv, rfl⟩ := hv
    refine ⟨fun hno => ?_, fun hend => ?_⟩
    · have hrest := hs.chain.rest hcur hno
      refine (freeChain_yields hl hv hrest).mono (fun _ w hw => ?_) fun _ w hw => ?_
      · obtain ⟨D₁, hw, hre, -⟩ := hw
        have hre₁ : Retabled vol (· ∈ cs) D D₁ := hre.imp fun c hc => List.mem_of_mem_drop hc
        have hre₂ := hre₁.laid.retabled_withEntry hcluster 0x0FFFFFFF
        refine (fatPut_yields hw hre.laid hcluster _).mono (fun _ u hu => ?_)
          fun _ u hu => ⟨D₁, hu.1, hre₁, fun hr => hu.2 (hre.reliable.mpr hr)⟩
        refine ⟨_, _, hu, hre₁.trans (hre₂.imp fun c hc => hc ▸ hmem),
          hcut (hre₁.trans (hre₂.imp fun c hc => hc ▸ hmem)) (fun x hx => ?_) ?_⟩
        · have hxle := (hs.chain.clusters x (List.mem_of_mem_take hx)).2
          obtain ⟨hne, hnot⟩ := hs.chain.apart_at hcur hx
          rw [hre₂.entry x hxle hne, hre.entry x hxle hnot]
        · rw [vol.entry_withEntry]
          exact vol.isEOC_kept
      · obtain ⟨D₁, hw, hre, hrel⟩ := hw
        exact ⟨D₁, hw, hre.imp fun c hc => List.mem_of_mem_drop hc, hrel⟩
    · exact ⟨D, _, hv, hl.retabled _, hcut (hl.retabled _) (fun _ _ => rfl) (not_not.mp hend)⟩

/-- A file that is cut off has its first `n` bytes, and its position is in them. -/
theorem truncate_yields (hl : Laid vol D) (hD : Holds D h.volume)
    (hs : Stored vol D h.file cs xs) (hseat : Seated vol D h.file)
    (hfree : ∀ c, vol.Own D cs c → ¬ vol.InCluster c h.file.dirBlock)
    (hsize : h.file.fileSize = xs.length) (hxs : xs.length < 2^32)
    (hrec : h.file.dirDirty = false → Recorded D h.file) (n : Nat) :
    Yields (truncate vol n dateTime) h
      (fun _ t => h.file.forWrite ∧ n ≤ xs.length ∧
        Renewed vol C D cs h.file (xs.take n) (min h.file.curPosition n) t)
      (fun _ t => if h.file.forWrite ∧ n ≤ xs.length then Faulted vol C D cs h.file t.volume
        else Holds D t.volume ∧ t.file = h.file) := by
  have hfile : h.file.isFile = true := by simp [SdFile.isFile, hs.type]
  have hpos := hs.position
  unfold truncate
  simp only [yields_bind, yields_getFile, yields_ite, yields_throw, yields_pure, yields_onFile]
  refine ⟨fun hno => ?_, fun hok => ⟨fun hlong => ?_, fun hle => ?_⟩⟩
  · have hfor : h.file.forWrite = false := by simpa [hfile] using hno
    rw [if_neg (by simp [hfor])]
    exact ⟨hD, trivial⟩
  · rw [if_neg (by omega)]
    exact ⟨hD, trivial⟩
  · have hfor : h.file.forWrite = true := by
      by_contra hw
      exact hok (Or.inr hw)
    have hn : n ≤ xs.length := by omega
    simp only [hfor, hn, and_self, if_true, true_and]
    have hlen : (xs.take n).length = n := by simp [hn]
    refine ⟨fun hzero => ?_, fun hne => ?_⟩
    · obtain rfl : xs = [] := List.length_eq_zero_iff.mp (by omega)
      rw [List.take_nil, List.length_nil] at *
      rw [show min h.file.curPosition n = h.file.curPosition by omega]
      exact hs.renewed hl hD ⟨_, rfl⟩ hseat hsize hrec
    · have hsome : xs ≠ [] := fun hnil => hne (by rw [hsize, hnil, List.length_nil])
      refine (seekSet_yields hl hD hs hsize n).mono (fun _ t ht => ?_)
        fun _ t ht => ⟨D, ht.1, hl.touched, by simpa only [if_pos hn] using ht.2⟩
      obtain ⟨-, ht, hst, c, hfile⟩ := ht
      have hpos' : t.file.curPosition = n := by rw [hfile]
      refine (cutChain_yields hl ht hst hn hsome hpos').mono (fun _ u hu => ?_) fun _ u hu => ?_
      · obtain ⟨D', ds, hu, hre, hds, hsu, c', hfile'⟩ := hu
        have ht' : Touched vol C (vol.Own D cs) h.file.record D D' :=
          hre.touched.imp fun c hc => hs.chain.own c hc
        have halike : h.file.Alike { u.file with fileSize := n, dirDirty := true } := by
          rw [hfile', hfile]
          rfl
        have hrenewed : Renewed vol C D cs h.file (xs.take n) n
            { u with file := { u.file with fileSize := n, dirDirty := true } } := by
          refine ⟨halike, hlen.symm, ?_, D', ds, hu, ht', fun c hc => hs.chain.own c (hds c hc),
            ⟨hsu.toContent, hsu.type, hsu.position, hsu.start, hsu.cluster⟩, ?_, fun hd => ?_⟩
          · rw [hfile', hfile]
          · exact (hseat.touched (hre.touched (C := C) (E := fun _ _ => False))
              (fun c hc => hfree c (hs.chain.own c hc)) fun _ _ _ => id).alike halike
          · exact absurd hd (by simp)
        refine (hrenewed.synced hfree (by omega)).mono (fun _ w hw => ?_) fun _ w hw => hw
        rw [show (if h.file.curPosition > n then n else h.file.curPosition) =
          min h.file.curPosition n by split <;> omega]
        exact hw.1.sought (by omega)
      · obtain ⟨D', hu, hre, hrel⟩ := hu
        exact ⟨D', hu, hre.touched.imp fun c hc => hs.chain.own c hc,
          fun hr => hrel (hre.reliable.mp hr)⟩

end RasPiArduino.Sd
