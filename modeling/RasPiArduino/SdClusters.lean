import RasPiArduino.LinkedList
import RasPiArduino.SdTable

/-! Chains of clusters in the table: how they grow and how they are freed. -/
namespace RasPiArduino.Sd
open LittleEndian Outcome LinkedList

/-- The table as nodes that are allocated and freed; a cluster of an end mark points to none. -/
def SdVolume.nodes (vol : SdVolume) (D : Disk) : Heap Unit := fun c =>
  if vol.entry D c = 0 then none
  else some ⟨(), if vol.isEOC (vol.entry D c) then none else some (vol.entry D c)⟩

def SdVolume.Cluster (vol : SdVolume) (c : Nat) : Prop := 2 ≤ c ∧ c ≤ vol.clusterCount + 1

structure ClusterChain (vol : SdVolume) (D : Disk) (p : Option Nat) (cs : List Nat) : Prop where
  chain : Chain (vol.nodes D) p (cs.map fun c => (c, ()))
  clusters : ∀ c ∈ cs, vol.Cluster c

/-- The stores differ in the table at most, and there in entries of clusters of `S` only. -/
structure Retabled (vol : SdVolume) (S : Nat → Prop) (D D' : Disk) : Prop where
  laid : Laid vol D'
  size : D'.size = D.size
  reliable : D'.reliable ↔ D.reliable
  behind : ∀ b, vol.fatStartBlock + vol.fatCount * vol.blocksPerFat ≤ b → D'.blocks b = D.blocks b
  entry : ∀ c, c ≤ vol.clusterCount + 1 → ¬ S c → vol.entry D' c = vol.entry D c

variable {vol : SdVolume} {D D' D'' : Disk} {v : State} {b c d n value count : Nat} {p : Option Nat}
  {cs ds : List Nat} {S S' : Nat → Prop}

theorem Laid.retabled (h : Laid vol D) (S : Nat → Prop) : Retabled vol S D D :=
  ⟨h, rfl, Iff.rfl, fun _ _ => rfl, fun _ _ _ => rfl⟩

theorem Retabled.trans (h : Retabled vol S D D') (h' : Retabled vol S D' D'') :
    Retabled vol S D D'' where
  laid := h'.laid
  size := h'.size.trans h.size
  reliable := h'.reliable.trans h.reliable
  behind := fun b hb => (h'.behind b hb).trans (h.behind b hb)
  entry := fun c hc hS => (h'.entry c hc hS).trans (h.entry c hc hS)

theorem Retabled.imp (h : Retabled vol S D D') (hS : ∀ c, S c → S' c) : Retabled vol S' D D' :=
  ⟨h.laid, h.size, h.reliable, h.behind, fun c hc hn => h.entry c hc (mt (hS c) hn)⟩

theorem Laid.retabled_withEntry (h : Laid vol D) (hc : vol.Cluster c) (value : Nat) :
    Retabled vol (· = c) D (vol.withEntry D c value) :=
  ⟨h.withEntry c value, rfl, Iff.rfl, fun _ hb => h.blocks_withEntry hc.2 hb value,
    fun _ hd hne => h.entry_withEntry_of_ne hne hd value⟩

theorem Retabled.nodes (h : Retabled vol S D D') (hc : vol.Cluster c) (hS : ¬ S c) :
    vol.nodes D' c = vol.nodes D c := by
  unfold SdVolume.nodes
  rw [h.entry c hc.2 hS]

theorem ClusterChain.congr (hc : ClusterChain vol D p cs)
    (h : ∀ c ∈ cs, vol.entry D' c = vol.entry D c) : ClusterChain vol D' p cs where
  chain := hc.chain.congr fun a ha => by
    have ha : a ∈ cs := by simpa [addresses] using ha
    unfold SdVolume.nodes
    rw [h a ha]
  clusters := hc.clusters

theorem ClusterChain.retabled (hc : ClusterChain vol D p cs) (h : Retabled vol S D D')
    (hS : ∀ c ∈ cs, ¬ S c) : ClusterChain vol D' p cs :=
  hc.congr fun c hmem => h.entry c (hc.clusters c hmem).2 (hS c hmem)

theorem ClusterChain.nodup (hc : ClusterChain vol D p cs) : cs.Nodup := by
  simpa [addresses, Function.comp_def] using Chain.nodup hc.chain

theorem ClusterChain.entry_ne_zero (hc : ClusterChain vol D p cs) (h : c ∈ cs) :
    vol.entry D c ≠ 0 := by
  intro h0
  obtain ⟨x, hx⟩ := hc.chain.allocated (a := c) (by simpa [addresses] using h)
  simp [SdVolume.nodes, h0] at hx

theorem ClusterChain.length_le (hc : ClusterChain vol D p cs) : cs.length ≤ vol.clusterCount := by
  have hsub : cs ⊆ List.range' 2 vol.clusterCount := by
    intro c hmem
    have := hc.clusters c hmem
    rw [List.mem_range'_1]
    unfold SdVolume.Cluster at this
    omega
  simpa using (List.Nodup.subperm hc.nodup hsub).length_le

theorem clusterChain_cons : ClusterChain vol D p (c :: cs) ↔ p = some c ∧ vol.Cluster c ∧
    vol.entry D c ≠ 0 ∧
      ClusterChain vol D (if vol.isEOC (vol.entry D c) then none else some (vol.entry D c)) cs := by
  constructor
  · rintro ⟨⟨rfl, r, hr, hs⟩, hin⟩
    obtain ⟨hc, hin⟩ := List.forall_mem_cons.mp hin
    by_cases h0 : vol.entry D c = 0
    · simp [SdVolume.nodes, h0] at hr
    · simp only [SdVolume.nodes, if_neg h0, Option.some.injEq, Cell.mk.injEq, true_and] at hr
      exact ⟨rfl, hc, h0, hr ▸ hs, hin⟩
  · rintro ⟨rfl, hc, h0, hs, hin⟩
    exact ⟨⟨rfl, _, by simp only [SdVolume.nodes, if_neg h0], hs⟩,
      List.forall_mem_cons.mpr ⟨hc, hin⟩⟩

theorem clusterChain_nil : ClusterChain vol D p [] ↔ p = none :=
  ⟨fun h => h.chain, fun h => ⟨h, fun _ hc => absurd hc List.not_mem_nil⟩⟩

theorem ClusterChain.single (hc : ClusterChain vol D (some c) [c]) :
    vol.Cluster c ∧ vol.isEOC (vol.entry D c) = true := by
  obtain ⟨-, hcc, -, hnext⟩ := clusterChain_cons.mp hc
  refine ⟨hcc, ?_⟩
  by_contra hno
  simp [clusterChain_nil, hno] at hnext

theorem ClusterChain.link (hc : ClusterChain vol D (some c) (c :: d :: cs)) :
    vol.Cluster c ∧ ¬ vol.isEOC (vol.entry D c) = true ∧ vol.entry D c = d ∧
      ClusterChain vol D (some d) (d :: cs) := by
  obtain ⟨-, hcc, -, hnext⟩ := clusterChain_cons.mp hc
  have hlink := (clusterChain_cons.mp hnext).1
  have hno : ¬ vol.isEOC (vol.entry D c) = true := by
    intro hend
    simp [hend] at hlink
  exact ⟨hcc, hno, by simpa [hno] using hlink, hlink ▸ hnext⟩

def SdVolume.around (vol : SdVolume) (x : Nat) : Nat :=
  if x > vol.clusterCount + 1 then x - vol.clusterCount else x

/-- The search finds free clusters in a row. If one is enough, it misses none. -/
theorem search_yields (hl : Laid vol D) (n b d : Nat) (h : Holds D v)
    (hb : 2 ≤ b) (hbd : b ≤ d) (hd : d ≤ vol.clusterCount + 2) (hn : n ≤ vol.clusterCount)
    (hcount : d < b + count) (hfree : ∀ c, b ≤ c → c < d → vol.entry D c = 0) :
    Yields (search vol count n b d) v
      (fun r w => Holds D w ∧ 2 ≤ r.1 ∧ r.1 ≤ r.2 ∧ r.2 ≤ vol.clusterCount + 1 ∧
        r.2 + 1 = r.1 + count ∧ ∀ c, r.1 ≤ c → c ≤ r.2 → vol.entry D c = 0)
      (fun _ w => Holds D w ∧ (D.reliable → count = 1 →
        ∀ j, j < n → vol.entry D (vol.around (d + j)) ≠ 0)) := by
  induction n generalizing b d v with
  | zero =>
    unfold search
    exact ⟨h, fun _ _ j hj => absurd hj (Nat.not_lt_zero j)⟩
  | succ n ih =>
    -- the place after the turn to the beginning of the table, if there is one
    obtain ⟨b', d', hb', hd', hb₂, hbd', hlt, hcount', hfree', hturn⟩ : ∃ b' d',
        (if d > vol.clusterCount + 1 then 2 else b) = b' ∧
        (if d > vol.clusterCount + 1 then 2 else d) = d' ∧ 2 ≤ b' ∧ b' ≤ d' ∧
        d' ≤ vol.clusterCount + 1 ∧ d' < b' + count ∧
        (∀ c, b' ≤ c → c < d' → vol.entry D c = 0) ∧
        ∀ j, j < n + 1 → vol.around (d + j) = if j = 0 then d' else vol.around (d' + 1 + (j - 1)) := by
      by_cases hpast : d > vol.clusterCount + 1
      · refine ⟨2, 2, if_pos hpast, if_pos hpast, by omega, by omega, by omega, by omega,
          fun c _ _ => by omega, fun j hj => ?_⟩
        unfold SdVolume.around
        split_ifs <;> omega
      · refine ⟨b, d, if_neg hpast, if_neg hpast, hb, hbd, by omega, hcount, hfree, fun j hj => ?_⟩
        unfold SdVolume.around
        split_ifs <;> omega
    unfold search
    simp only [yields_bind, yields_ite, yields_pure, hb', hd']
    refine (fatGet_yields h hl hlt).mono (fun f w hw => ?_) fun _ w hw =>
      ⟨hw.1, fun hr => absurd hr hw.2⟩
    obtain ⟨hw, rfl⟩ := hw
    refine ⟨fun hused => ?_, fun hzero => ⟨fun hfound => ?_, fun hshort => ?_⟩⟩
    · refine (ih (d' + 1) (d' + 1) hw (by omega) (by omega) (by omega) (by omega) (by omega)
        fun c _ _ => by omega).mono (fun _ _ hr => hr) fun _ u hu => ⟨hu.1, fun hr hone j hj => ?_⟩
      rw [hturn j hj]
      split_ifs
      · exact hused
      · exact hu.2 hr hone (j - 1) (by omega)
    · refine ⟨hw, hb₂, hbd', hlt, by omega, fun c hc hcd => ?_⟩
      obtain rfl | hlt' := Nat.eq_or_lt_of_le hcd
      · exact not_not.mp hzero
      · exact hfree' c hc hlt'
    · refine (ih b' (d' + 1) hw hb₂ (by omega) (by omega) (by omega) (by omega) fun c hc hcd => ?_).mono
        (fun _ _ hr => hr) fun _ u hu => ⟨hu.1, fun _ hone => by omega⟩
      obtain rfl | hlt' := Nat.eq_or_lt_of_le (Nat.le_of_lt_succ hcd)
      · exact not_not.mp hzero
      · exact hfree' c hc hlt'

theorem SdVolume.around_surj (vol : SdVolume) (hd : 2 ≤ d ∧ d ≤ vol.clusterCount + 2)
    (hc : vol.Cluster c) : ∃ j, j < vol.clusterCount ∧ vol.around (d + j) = c := by
  unfold SdVolume.Cluster at hc
  unfold SdVolume.around
  by_cases h : d ≤ c
  · exact ⟨c - d, by omega, by split_ifs <;> omega⟩
  · exact ⟨c + vol.clusterCount - d, by omega, by split_ifs <;> omega⟩

theorem link_yields (hl : Laid vol D) (h : Holds D v) (hb : 2 ≤ b)
    (hn : b + n ≤ vol.clusterCount + 1) : Yields (link vol b n) v
      (fun _ w => ∃ D', Holds D' w ∧ Retabled vol (fun c => b ≤ c ∧ c < b + n) D D' ∧
        ∀ c, b ≤ c → c < b + n → vol.entry D' c = c + 1)
      (fun _ w => ∃ D', Holds D' w ∧ Retabled vol (fun c => b ≤ c ∧ c < b + n) D D' ∧
        ¬ D.reliable) := by
  induction n generalizing D v with
  | zero => exact ⟨D, h, hl.retabled _, fun c _ _ => by omega⟩
  | succ n ih =>
    have hc : vol.Cluster (b + n) := ⟨by omega, by omega⟩
    have hput : Retabled vol (fun c => b ≤ c ∧ c < b + (n + 1)) D
        (vol.withEntry D (b + n) (b + n + 1)) :=
      (hl.retabled_withEntry hc _).imp fun c hc => by omega
    unfold link
    simp only [yields_bind]
    refine (fatPut_yields h hl hc _).mono (fun _ w hw => ?_) fun _ w hw =>
      ⟨D, hw.1, hl.retabled _, hw.2⟩
    refine (ih (hl.withEntry _ _) hw (by omega)).mono (fun _ u hu => ?_) fun _ u hu => ?_
    · obtain ⟨D', hD', hre, hlinks⟩ := hu
      refine ⟨D', hD', hput.trans (hre.imp fun c hc => by omega), fun c hbc hcn => ?_⟩
      obtain rfl | hlt := Nat.eq_or_lt_of_le (show c ≤ b + n by omega)
      · rw [hre.entry _ hc.2 (by omega), vol.entry_withEntry]
        exact (hl.kept_cluster hn).1
      · exact hlinks c hbc hlt
    · obtain ⟨D', hD', hre, hrel⟩ := hu
      exact ⟨D', hD', hput.trans (hre.imp fun c hc => by omega), hrel⟩

/-- Clusters in a row, each linked to the next and the last marked, are a chain. -/
theorem Laid.clusterChain_range (hl : Laid vol D) (hb : 2 ≤ b)
    (hn : b + n ≤ vol.clusterCount + 1)
    (hlinks : ∀ c, b ≤ c → c < b + n → vol.entry D c = c + 1)
    (hend : vol.isEOC (vol.entry D (b + n)) = true) :
    ClusterChain vol D (some b) (List.range' b (n + 1)) := by
  induction n generalizing b with
  | zero =>
    have hne : vol.entry D b ≠ 0 := by
      intro h0
      rw [Nat.add_zero, h0, vol.isEOC_zero] at hend
      exact Bool.false_ne_true hend
    exact clusterChain_cons.mpr ⟨rfl, ⟨hb, hn⟩, hne, clusterChain_nil.mpr (if_pos hend)⟩
  | succ n ih =>
    have hnext := hlinks b (Nat.le_refl b) (by omega)
    rw [List.range'_succ, clusterChain_cons, hnext, (hl.kept_cluster (by omega)).2]
    refine ⟨rfl, ⟨hb, by omega⟩, by omega, ?_⟩
    exact ih (by omega) (by omega) (fun c hc hcn => hlinks c (by omega) (by omega))
      (by rwa [show b + 1 + n = b + (n + 1) by omega])

theorem Holds.restart (h : Holds D v) (n : Nat) :
    Holds { D with start := n } { v with allocSearchStart := n } :=
  ⟨h.contents, h.size, rfl, h.clean, h.unmirrored, h.mirrored, h.reliable, h.writable⟩

theorem Laid.restart (hl : Laid vol D) (hn : 2 ≤ n ∧ n ≤ vol.clusterCount + 2) :
    Laid vol { D with start := n } :=
  ⟨hl.toFits, hl.mirrorOf, hn⟩

theorem Retabled.restart (h : Retabled vol S D D') (hn : 2 ≤ n ∧ n ≤ vol.clusterCount + 2) :
    Retabled vol S D { D' with start := n } :=
  ⟨h.laid.restart hn, h.size, h.reliable, h.behind, h.entry⟩

/-- `count` free clusters in a row become a chain, behind the cluster `cur` unless that is zero.
When it fails, at most free clusters have been touched, and if no access fails nothing has. -/
theorem allocContiguous_yields (h : Holds D v) (hl : Laid vol D) (hcount : 0 < count) {cur : Nat}
    (hcur : cur ≠ 0 → vol.Cluster cur ∧ vol.entry D cur ≠ 0) :
    Yields (allocContiguous vol count cur) v
      (fun b w => ∃ D', Holds D' w ∧
        Retabled vol (fun c => c ∈ List.range' b count ∨ c = cur) D D' ∧
        (∀ c ∈ List.range' b count, vol.Cluster c ∧ vol.entry D c = 0) ∧
        ClusterChain vol D' (some b) (List.range' b count) ∧
        (cur ≠ 0 → vol.nodes D' cur = some ⟨(), some b⟩))
      (fun _ w => ∃ D', Holds D' w ∧ Retabled vol (fun c => vol.entry D c = 0) D D' ∧
        (D.reliable → D' = D ∧ (count = 1 → ∀ c, vol.Cluster c → vol.entry D c ≠ 0))) := by
  have hstart : 2 ≤ (if cur ≠ 0 then cur + 1 else v.allocSearchStart) ∧
      (if cur ≠ 0 then cur + 1 else v.allocSearchStart) ≤ vol.clusterCount + 2 := by
    split
    · rename_i hne
      have := (hcur hne).1
      unfold SdVolume.Cluster at this
      omega
    · exact h.start ▸ hl.start
  unfold allocContiguous fatPutEOC
  simp only [yields_bind, yields_get, yields_ite, yields_pure, yields_modify]
  refine (search_yields hl _ _ _ h hstart.1 (Nat.le_refl _) hstart.2 (Nat.le_refl _) (by omega)
    fun c _ _ => by omega).mono (fun r w hw => ?_) fun _ w hw => ?_
  · obtain ⟨b, e⟩ := r
    obtain ⟨hw, hb, hbe, he, hlen, hfree⟩ := hw
    have hce : vol.Cluster e := ⟨by omega, he⟩
    have hin {c : Nat} (hc : b ≤ c ∧ c < b + (e - b) ∨ c = e) : c ∈ List.range' b count := by
      rw [List.mem_range'_1]
      omega
    have hzero {c : Nat} (hc : c ∈ List.range' b count) :
        vol.Cluster c ∧ vol.entry D c = 0 := by
      rw [List.mem_range'_1] at hc
      exact ⟨⟨by omega, by omega⟩, hfree c hc.1 (by omega)⟩
    have hmark : Retabled vol (· ∈ List.range' b count) D (vol.withEntry D e 0x0FFFFFFF) :=
      (hl.retabled_withEntry hce _).imp fun c hc => hin (Or.inr hc)
    refine (fatPut_yields hw hl hce _).mono (fun _ u hu => ?_) fun _ u hu =>
      ⟨D, hu.1, hl.retabled _, fun hr => absurd hr hu.2⟩
    refine (link_yields hmark.laid hu hb (by omega)).mono (fun _ x hx => ?_) fun _ x hx => ?_
    · obtain ⟨D₁, hx, hre, hlinks⟩ := hx
      have hre₁ : Retabled vol (· ∈ List.range' b count) D D₁ :=
        hmark.trans (hre.imp fun c hc => hin (Or.inl hc))
      have hend : vol.isEOC (vol.entry D₁ (b + (e - b))) = true := by
        rw [show b + (e - b) = e by omega, hre.entry e he (by omega), vol.entry_withEntry]
        exact vol.isEOC_kept
      have hchain : ClusterChain vol D₁ (some b) (List.range' b count) := by
        have hchain := hre₁.laid.clusterChain_range hb (by omega) hlinks hend
        rwa [show e - b + 1 = count by omega] at hchain
      refine ⟨fun hne => ?_, fun h0 => ⟨fun hone => ?_, fun hmore => ?_⟩⟩
      · obtain ⟨hcc, hcne⟩ := hcur hne
        have hnot : cur ∉ List.range' b count := fun hc => hcne (hzero hc).2
        refine (fatPut_yields hx hre₁.laid hcc _).mono (fun _ y hy => ?_) fun _ y hy =>
          ⟨D₁, hy.1, hre₁.imp fun c hc => (hzero hc).2, fun hr => absurd (hre₁.reliable.mpr hr) hy.2⟩
        have hre₂ := hre₁.laid.retabled_withEntry hcc b
        have hkept := hl.kept_cluster (show b ≤ vol.clusterCount + 1 by omega)
        refine ⟨_, hy, (hre₁.imp fun c => Or.inl).trans (hre₂.imp fun c => Or.inr),
          fun c hc => hzero hc, hchain.retabled hre₂ fun c hc he => hnot (he ▸ hc), fun _ => ?_⟩
        simp only [SdVolume.nodes, vol.entry_withEntry, hkept.1, hkept.2]
        rw [if_neg (by omega)]
        rfl
      · refine ⟨_, hx.restart (b + 1), (hre₁.imp fun c => Or.inl).restart (by omega),
          fun c hc => hzero hc, ⟨hchain.chain, hchain.clusters⟩, fun hne => absurd hne h0⟩
      · exact ⟨_, hx, hre₁.imp fun c => Or.inl, fun c hc => hzero hc, hchain,
          fun hne => absurd hne h0⟩
    · obtain ⟨D₁, hx, hre, hrel⟩ := hx
      exact ⟨D₁, hx, (hmark.trans (hre.imp fun c hc => hin (Or.inl hc))).imp fun c hc => (hzero hc).2,
        fun hr => absurd hr hrel⟩
  · refine ⟨D, hw.1, hl.retabled _, fun hr => ⟨rfl, fun hone c hc => ?_⟩⟩
    obtain ⟨j, hj, rfl⟩ := vol.around_surj hstart hc
    exact hw.2 hr hone j hj

theorem freeFrom_yields (hl : Laid vol D) (h : Holds D v)
    (hc : ClusterChain vol D (some c) (c :: cs)) (hn : cs.length < n) :
    Yields (freeFrom vol n c) v
      (fun _ w => ∃ D', Holds D' w ∧ Retabled vol (· ∈ c :: cs) D D' ∧
        ∀ x ∈ c :: cs, vol.entry D' x = 0)
      (fun _ w => ∃ D', Holds D' w ∧ Retabled vol (· ∈ c :: cs) D D' ∧ ¬ D.reliable) := by
  induction cs generalizing c n v D with
  | nil =>
    obtain ⟨n, rfl⟩ := Nat.exists_eq_succ_of_ne_zero (Nat.pos_iff_ne_zero.mp hn)
    obtain ⟨hcc, hend⟩ := hc.single
    unfold freeFrom
    simp only [yields_bind, yields_ite, yields_pure]
    refine (fatGet_yields h hl hcc.2).mono (fun f w hw => ?_) fun _ w hw =>
      ⟨D, hw.1, hl.retabled _, hw.2⟩
    obtain ⟨hw, rfl⟩ := hw
    refine (fatPut_yields hw hl hcc 0).mono (fun _ u hu => ?_) fun _ u hu =>
      ⟨D, hu.1, hl.retabled _, hu.2⟩
    refine ⟨fun _ => ?_, fun hno => absurd hend hno⟩
    refine ⟨_, hu, (hl.retabled_withEntry hcc 0).imp fun x hx => by simp [hx], fun x hx => ?_⟩
    obtain rfl := List.mem_singleton.mp hx
    rw [vol.entry_withEntry, vol.kept_zero]
  | cons d cs ih =>
    obtain ⟨n, rfl⟩ := Nat.exists_eq_succ_of_ne_zero (Nat.ne_zero_of_lt hn)
    have hnd := hc.nodup
    obtain ⟨hcc, hno, hd, hnext⟩ := hc.link
    have hfirst := hl.retabled_withEntry hcc 0
    have htail : ClusterChain vol (vol.withEntry D c 0) (some d) (d :: cs) :=
      hnext.retabled hfirst fun x hx he =>
        (List.nodup_cons.mp hnd).1 (he ▸ hx)
    have hmore : ∀ x, x = c → x ∈ c :: d :: cs := fun x hx => by simp [hx]
    unfold freeFrom
    simp only [yields_bind, yields_ite, yields_pure]
    refine (fatGet_yields h hl hcc.2).mono (fun f w hw => ?_) fun _ w hw =>
      ⟨D, hw.1, hl.retabled _, hw.2⟩
    obtain ⟨hw, rfl⟩ := hw
    refine (fatPut_yields hw hl hcc 0).mono (fun _ u hu => ?_) fun _ u hu =>
      ⟨D, hu.1, hl.retabled _, hu.2⟩
    refine ⟨fun hend => absurd hend hno, fun _ => ?_⟩
    rw [hd]
    have hn' : cs.length < n := by
      simp only [List.length_cons] at hn
      omega
    refine (ih hfirst.laid hu htail hn').mono (fun _ x hx => ?_) fun _ x hx => ?_
    · obtain ⟨D', hx, hre, hfree⟩ := hx
      refine ⟨D', hx, (hfirst.imp hmore).trans (hre.imp fun y => List.mem_cons_of_mem c), ?_⟩
      intro y hy
      obtain rfl | hy := List.mem_cons.mp hy
      · rw [hre.entry y hcc.2 (List.nodup_cons.mp hnd).1, vol.entry_withEntry, vol.kept_zero]
      · exact hfree y hy
    · obtain ⟨D', hx, hre, hrel⟩ := hx
      exact ⟨D', hx, (hfirst.imp hmore).trans (hre.imp fun y => List.mem_cons_of_mem c), hrel⟩

theorem freeChain_yields (hl : Laid vol D) (h : Holds D v)
    (hc : ClusterChain vol D (some c) cs) : Yields (freeChain vol c) v
      (fun _ w => ∃ D', Holds D' w ∧ Retabled vol (· ∈ cs) D D' ∧ ∀ x ∈ cs, vol.entry D' x = 0)
      (fun _ w => ∃ D', Holds D' w ∧ Retabled vol (· ∈ cs) D D' ∧ ¬ D.reliable) := by
  have hstart : 2 ≤ 2 ∧ 2 ≤ vol.clusterCount + 2 := ⟨Nat.le_refl 2, by omega⟩
  cases cs with
  | nil => exact absurd (clusterChain_nil.mp hc) (by simp)
  | cons x cs =>
    obtain rfl : c = x := Option.some.inj (clusterChain_cons.mp hc).1
    have hlen := hc.length_le
    have hrestart := (hl.retabled (· ∈ c :: cs)).restart hstart
    unfold freeChain
    simp only [yields_bind, yields_modify]
    refine (freeFrom_yields (hl.restart hstart) (h.restart 2) ⟨hc.chain, hc.clusters⟩
      (by simp only [List.length_cons] at hlen; omega)).mono (fun _ w hw => ?_) fun _ w hw => ?_
    · obtain ⟨D', hw, hre, hfree⟩ := hw
      exact ⟨D', hw, hrestart.trans hre, hfree⟩
    · obtain ⟨D', hw, hre, hrel⟩ := hw
      exact ⟨D', hw, hrestart.trans hre, hrel⟩

theorem sizeFrom_yields (hl : Laid vol D) (h : Holds D v)
    (hc : ClusterChain vol D (some c) (c :: cs)) (hn : cs.length < n) (s : Nat) :
    Yields (sizeFrom vol n c s) v
      (fun r w => Holds D w ∧ r = (s + (cs.length + 1) * (512 * 2^vol.clusterSizeShift)) % 2^32)
      (fun _ w => Holds D w ∧ ¬ D.reliable) := by
  induction cs generalizing c n v s with
  | nil =>
    obtain ⟨n, rfl⟩ := Nat.exists_eq_succ_of_ne_zero (Nat.pos_iff_ne_zero.mp hn)
    obtain ⟨hcc, hend⟩ := hc.single
    unfold sizeFrom
    simp only [yields_bind, yields_ite, yields_pure]
    refine (fatGet_yields h hl hcc.2).mono (fun f w hw => ?_) fun _ w hw => hw
    obtain ⟨hw, rfl⟩ := hw
    exact ⟨fun _ => ⟨hw, by rw [List.length_nil, Nat.zero_add, Nat.one_mul]⟩,
      fun hno => absurd hend hno⟩
  | cons d cs ih =>
    obtain ⟨n, rfl⟩ := Nat.exists_eq_succ_of_ne_zero (Nat.ne_zero_of_lt hn)
    obtain ⟨hcc, hno, hd, hnext⟩ := hc.link
    unfold sizeFrom
    simp only [yields_bind, yields_ite, yields_pure]
    refine (fatGet_yields h hl hcc.2).mono (fun f w hw => ?_) fun _ w hw => hw
    obtain ⟨hw, rfl⟩ := hw
    refine ⟨fun hend => absurd hend hno, fun _ => ?_⟩
    rw [hd]
    have hn' : cs.length < n := by
      simp only [List.length_cons] at hn
      omega
    refine (ih hw hnext hn' _).mono (fun r u hu => ⟨hu.1, ?_⟩) fun _ u hu => hu
    rw [hu.2, Nat.mod_add_mod, List.length_cons, Nat.succ_mul (cs.length + 1), Nat.add_assoc,
      Nat.add_comm (512 * 2^vol.clusterSizeShift)]

theorem chainSize_yields (hl : Laid vol D) (h : Holds D v)
    (hc : ClusterChain vol D (some c) cs) : Yields (chainSize vol c) v
      (fun r w => Holds D w ∧ r = cs.length * (512 * 2^vol.clusterSizeShift) % 2^32)
      (fun _ w => Holds D w ∧ ¬ D.reliable) := by
  cases cs with
  | nil => exact absurd (clusterChain_nil.mp hc) (by simp)
  | cons x cs =>
    obtain rfl : c = x := Option.some.inj (clusterChain_cons.mp hc).1
    have hlen := hc.length_le
    refine (sizeFrom_yields hl h hc (by simp only [List.length_cons] at hlen; omega) 0).mono
      (fun r w hw => ?_) fun _ w hw => hw
    rwa [Nat.zero_add, ← List.length_cons (a := c)] at hw

end RasPiArduino.Sd
