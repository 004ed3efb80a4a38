import RasPiArduino.Ring
import RasPiArduino.SdAllocation
import RasPiArduino.SdFile

/-! Where the bytes of a file lie: the position in the file, the cluster of its chain, the block
of the cluster. What is done elsewhere on the volume leaves them alone. -/
namespace RasPiArduino.Sd
open LittleEndian RasPiArduino.Ring

def SdVolume.clusterBytes (vol : SdVolume) : Nat := 512 * 2^vol.clusterSizeShift

def SdVolume.firstBlock (vol : SdVolume) (c : Nat) : Nat :=
  vol.dataStartBlock + (c - 2) * 2^vol.clusterSizeShift

def SdVolume.InCluster (vol : SdVolume) (c b : Nat) : Prop :=
  vol.firstBlock c ≤ b ∧ b < vol.firstBlock c + 2^vol.clusterSizeShift

def SdVolume.blockAt (vol : SdVolume) (cs : List Nat) (p : Nat) : Nat :=
  vol.firstBlock (cs[p / vol.clusterBytes]?.getD 0) + p / 512 % 2^vol.clusterSizeShift

def byteAt (vol : SdVolume) (D : Disk) (cs : List Nat) (p : Nat) : UInt8 :=
  D.blocks (vol.blockAt cs p) (Fin.ofNat 512 p)

/-- The clusters `cs`, from `first` on, are a chain and have the bytes `xs`. -/
structure Content (vol : SdVolume) (D : Disk) (first : Nat) (cs : List Nat) (xs : List UInt8) :
    Prop where
  chain : ClusterChain vol D cs.head? cs
  first : first = cs.head?.getD 0
  room : xs.length ≤ cs.length * vol.clusterBytes
  bytes : ∀ p x, xs[p]? = some x → byteAt vol D cs p = x

variable {vol : SdVolume} {D D' : Disk} {b c d i n p q first : Nat} {cs ds : List Nat}
  {xs ys : List UInt8}

theorem SdVolume.clusterBytes_pos (vol : SdVolume) : 0 < vol.clusterBytes :=
  Nat.mul_pos (by decide) (Nat.two_pow_pos _)

theorem SdVolume.div_clusterBytes (vol : SdVolume) (p : Nat) :
    p / vol.clusterBytes = p / 512 / 2^vol.clusterSizeShift :=
  (Nat.div_div_eq_div_mul p 512 _).symm

theorem SdVolume.mod_clusterBytes_eq_zero (vol : SdVolume) (p : Nat) :
    p % vol.clusterBytes = 0 ↔ p / 512 % 2^vol.clusterSizeShift = 0 ∧ p % 512 = 0 := by
  rw [SdVolume.clusterBytes, Nat.mod_mul]
  omega

theorem Laid.blockOfCluster (hl : Laid vol D) (p : Nat) :
    vol.blockOfCluster p = p / 512 % 2^vol.clusterSizeShift := by
  rw [SdVolume.blockOfCluster, hl.blocksPerCluster, Nat.and_two_pow_sub_one_eq_mod]

theorem SdVolume.InCluster.unique (hc : vol.InCluster c b) (hd : vol.InCluster d b) (h2c : 2 ≤ c)
    (h2d : 2 ≤ d) : c = d := by
  have apart {c d : Nat} (hc : vol.InCluster c b) (hd : vol.InCluster d b) (hlt : c < d)
      (h2 : 2 ≤ c) : False := by
    unfold SdVolume.InCluster SdVolume.firstBlock at hc hd
    have := Nat.mul_le_mul_right (2^vol.clusterSizeShift) (show c - 2 + 1 ≤ d - 2 by omega)
    rw [Nat.add_mul] at this
    omega
  obtain hlt | he | hlt := Nat.lt_trichotomy c d
  · exact (apart hc hd hlt h2c).elim
  · exact he
  · exact (apart hd hc hlt h2d).elim

theorem Laid.inCluster_lt (hl : Laid vol D) (hc : vol.Cluster c) (hb : vol.InCluster c b) :
    vol.dataStartBlock ≤ b ∧ b < D.size := by
  unfold SdVolume.Cluster at hc
  unfold SdVolume.InCluster SdVolume.firstBlock at hb
  have hle := Nat.mul_le_mul_right (2^vol.clusterSizeShift) (show c - 2 + 1 ≤ vol.clusterCount by omega)
  rw [Nat.add_mul] at hle
  have := hl.size
  omega

theorem Laid.plain_inCluster (hl : Laid vol D) (hc : vol.Cluster c) (hb : vol.InCluster c b) :
    D.Plain b := by
  have hlt := hl.inCluster_lt hc hb
  exact hl.plain (hl.tables.trans hlt.1) hlt.2

theorem Laid.clusterStartBlock (hl : Laid vol D) (hc : vol.Cluster c) :
    vol.clusterStartBlock c = vol.firstBlock c := by
  have hpos := Nat.two_pow_pos vol.clusterSizeShift
  have hlt : vol.firstBlock c < 2^32 - 1 :=
    (hl.inCluster_lt hc ⟨Nat.le_refl _, by omega⟩).2.trans_le D.size_le
  have hc2 := hc.1
  unfold SdVolume.firstBlock at hlt ⊢
  have hsmall := Nat.le_mul_of_pos_right (c - 2) hpos
  have hmod : (c + 2^32 - 2) % 2^32 = c - 2 := by
    rw [show c + 2^32 - 2 = c - 2 + 2^32 by omega, Nat.add_mod_right]
    exact Nat.mod_eq_of_lt (by omega)
  rw [SdVolume.clusterStartBlock, hmod]
  exact Nat.mod_eq_of_lt (by omega)

theorem SdVolume.blockAt_inCluster (hc : cs[p / vol.clusterBytes]? = some c) :
    vol.InCluster c (vol.blockAt cs p) := by
  have := Nat.mod_lt (p / 512) (Nat.two_pow_pos vol.clusterSizeShift)
  unfold SdVolume.InCluster SdVolume.blockAt
  rw [hc, Option.getD_some]
  omega

theorem SdVolume.blockAt_congr (vol : SdVolume) (cs : List Nat) (h : p / 512 = q / 512) :
    vol.blockAt cs p = vol.blockAt cs q := by
  rw [SdVolume.blockAt, SdVolume.blockAt, vol.div_clusterBytes, vol.div_clusterBytes, h]

theorem SdVolume.index_lt (vol : SdVolume) (h : p < cs.length * vol.clusterBytes) :
    p / vol.clusterBytes < cs.length :=
  Nat.div_lt_of_lt_mul (by rwa [Nat.mul_comm])

theorem ClusterChain.blockAt_ne {o : Option Nat} (hc : ClusterChain vol D o cs)
    (hp : p < cs.length * vol.clusterBytes) (hq : q < cs.length * vol.clusterBytes)
    (h : p / 512 ≠ q / 512) : vol.blockAt cs p ≠ vol.blockAt cs q := by
  have hip := vol.index_lt hp
  have hiq := vol.index_lt hq
  have hcp := List.getElem?_eq_getElem hip
  have hcq := List.getElem?_eq_getElem hiq
  intro he
  have hin := SdVolume.blockAt_inCluster hcp
  rw [he] at hin
  have hsame : cs[p / vol.clusterBytes] = cs[q / vol.clusterBytes] :=
    hin.unique (SdVolume.blockAt_inCluster hcq) (hc.clusters _ (List.getElem_mem hip)).1
      (hc.clusters _ (List.getElem_mem hiq)).1
  have hindex : p / vol.clusterBytes = q / vol.clusterBytes :=
    (List.Nodup.getElem_inj_iff hc.nodup).mp hsame
  unfold SdVolume.blockAt at he
  rw [hindex] at he
  rw [vol.div_clusterBytes, vol.div_clusterBytes] at hindex
  have hp' := Nat.div_add_mod (p / 512) (2^vol.clusterSizeShift)
  have hq' := Nat.div_add_mod (q / 512) (2^vol.clusterSizeShift)
  rw [hindex] at hp'
  omega

theorem ClusterChain.entry_at (hc : ClusterChain vol D cs.head? cs) (hi : cs[i]? = some c) :
    match cs[i+1]? with
    | some d => vol.entry D c = d ∧ ¬ vol.isEOC (vol.entry D c) = true
    | none => vol.isEOC (vol.entry D c) = true := by
  induction cs generalizing i with
  | nil => simp at hi
  | cons x cs ih =>
    rw [List.head?_cons] at hc
    cases cs with
    | nil =>
      obtain rfl : i = 0 := by
        by_contra hne
        rw [List.getElem?_eq_none (by simp; omega)] at hi
        exact absurd hi (by simp)
      obtain rfl : x = c := by simpa using hi
      simpa using hc.single.2
    | cons y cs =>
      obtain ⟨-, hno, hxy, htail⟩ := hc.link
      cases i with
      | zero =>
        obtain rfl : x = c := by simpa using hi
        simpa using ⟨hxy, by simpa using hno⟩
      | succ i => exact ih htail (by simpa using hi)

theorem Content.cluster_at (hs : Content vol D first cs xs) (hp : p < xs.length) :
    ∃ c, cs[p / vol.clusterBytes]? = some c :=
  ⟨_, List.getElem?_eq_getElem (vol.index_lt (hp.trans_le hs.room))⟩

theorem Content.head (hs : Content vol D first cs xs) (hc : cs[0]? = some c) : first = c := by
  rw [hs.first, List.head?_eq_getElem?, hc, Option.getD_some]

theorem Content.cluster (hs : Content vol D first cs xs) (hc : cs[i]? = some c) : vol.Cluster c :=
  hs.chain.clusters c (List.mem_of_getElem? hc)

theorem Content.slice_block (hs : Content vol D first cs xs) (hn : p % 512 + n ≤ 512)
    (hp : p + n ≤ xs.length) :
    slice (D.blocks (vol.blockAt cs p)) (p % 512) n = (xs.drop p).take n := by
  refine List.ext_getElem (by simp; omega) fun k hk _ => ?_
  have hk : k < n := by simpa using hk
  have hbyte := hs.bytes (p + k) _ (List.getElem?_eq_getElem (by omega))
  have hblock : vol.blockAt cs (p + k) = vol.blockAt cs p := vol.blockAt_congr cs (by omega)
  have hfin : (Fin.ofNat 512 (p + k)) = Fin.ofNat 512 (p % 512 + k) :=
    Fin.ext (show (p + k) % 512 = (p % 512 + k) % 512 by omega)
  rw [byteAt, hblock, hfin] at hbyte
  simp only [slice, List.getElem_map, List.getElem_range, List.getElem_take, List.getElem_drop]
  exact hbyte

/-- The stores differ at most in the entries and the blocks of clusters of `S`, and in the bytes
`E` of blocks. Under the condition `C` the one is as reliable as the other. -/
structure Touched (vol : SdVolume) (C : Prop) (S : Nat → Prop) (E : Nat → Fin 512 → Prop)
    (D D' : Disk) : Prop where
  laid : Laid vol D'
  size : D'.size = D.size
  reliable : D'.reliable → D.reliable
  kept : C → D.reliable → D'.reliable
  entry : ∀ c, vol.Cluster c → ¬ S c → vol.entry D' c = vol.entry D c
  byte : ∀ b i, vol.fatStartBlock + vol.fatCount * vol.blocksPerFat ≤ b →
    (∀ c, S c → ¬ vol.InCluster c b) → ¬ E b i → D'.blocks b i = D.blocks b i

variable {D'' : Disk} {C : Prop} {S S' : Nat → Prop} {E : Nat → Fin 512 → Prop} {data : Block}

theorem Laid.touched (hl : Laid vol D) : Touched vol C S E D D :=
  ⟨hl, rfl, id, fun _ => id, fun _ _ _ => rfl, fun _ _ _ _ _ => rfl⟩

theorem Touched.trans (h : Touched vol C S E D D') (h' : Touched vol C S E D' D'') :
    Touched vol C S E D D'' where
  laid := h'.laid
  size := h'.size.trans h.size
  reliable := fun hr => h.reliable (h'.reliable hr)
  kept := fun hC hr => h'.kept hC (h.kept hC hr)
  entry := fun c hc hS => (h'.entry c hc hS).trans (h.entry c hc hS)
  byte := fun b i hb hS hE => (h'.byte b i hb hS hE).trans (h.byte b i hb hS hE)

theorem Touched.imp (h : Touched vol C S E D D') (hS : ∀ c, S c → S' c) : Touched vol C S' E D D' :=
  ⟨h.laid, h.size, h.reliable, h.kept, fun c hc hn => h.entry c hc (mt (hS c) hn),
    fun b i hb hn => h.byte b i hb fun c hc => hn c (hS c hc)⟩

theorem Touched.within (h : Touched vol C S (fun _ _ => False) D D') : Touched vol C S E D D' :=
  ⟨h.laid, h.size, h.reliable, h.kept, h.entry, fun b i hb hS _ => h.byte b i hb hS id⟩

theorem Touched.unless (h : Touched vol C S E D D') {p : Prop} (hp : C → ¬ p) :
    Touched vol C S E D (D'.unless p) :=
  ⟨h.laid.unless p, h.size, fun hr => h.reliable hr.1, fun hC hr => ⟨h.kept hC hr, hp hC⟩, h.entry,
    h.byte⟩

theorem Retabled.touched (h : Retabled vol S D D') : Touched vol C S E D D' :=
  ⟨h.laid, h.size, h.reliable.mp, fun _ => h.reliable.mpr, fun c hc => h.entry c hc.2,
    fun b i hb _ _ => congrFun (h.behind b hb) i⟩

theorem Laid.touched_put (hl : Laid vol D) (hc : vol.Cluster c) (hb : vol.InCluster c b) (hS : S c) :
    Touched vol C S E D (D.put b data) := by
  have hin := hl.inCluster_lt hc hb
  refine ⟨hl.put b data, rfl, id, fun _ => id, fun d hd _ =>
    hl.entry_put hd.2 (hl.tables.trans hin.1) hin.2 data, fun b' i _ hS' _ => ?_⟩
  have hne : b' ≠ b := by
    rintro rfl
    exact hS' c hS hb
  rw [(hl.plain_inCluster hc hb).put_apply, Function.update_of_ne hne]

theorem Content.touched (hs : Content vol D first cs xs) (ht : Touched vol C S E D D')
    (hS : ∀ c, S c → vol.Cluster c ∧ c ∉ cs)
    (hE : ∀ c ∈ cs, ∀ b, vol.InCluster c b → ∀ i, ¬ E b i) : Content vol D' first cs xs where
  chain := hs.chain.congr fun c hc =>
    ht.entry c (hs.chain.clusters c hc) fun hSc => (hS c hSc).2 hc
  first := hs.first
  room := hs.room
  bytes := fun p x hx => by
    obtain ⟨c, hc⟩ := hs.cluster_at (List.getElem?_eq_some_iff.mp hx).1
    have hmem := List.mem_of_getElem? hc
    have hcluster := hs.cluster hc
    have hin := SdVolume.blockAt_inCluster hc
    rw [← hs.bytes p x hx]
    refine ht.byte _ _ ?_ (fun d hd hind => ?_) (hE c hmem _ hin _)
    · have hlaid := ht.laid
      exact hlaid.tables.trans (hlaid.inCluster_lt hcluster hin).1
    · obtain ⟨hdc, hno⟩ := hS d hd
      exact hno (hind.unique hin hdc.1 hcluster.1 ▸ hmem)

theorem Content.unless (hs : Content vol D first cs xs) (p : Prop) :
    Content vol (D.unless p) first cs xs :=
  ⟨⟨hs.chain.chain, hs.chain.clusters⟩, hs.first, hs.room, hs.bytes⟩

/-- Bytes of a new block `data` of a chain: those of the block before, but for what is written. -/
theorem Content.put (hl : Laid vol D) (hs : Content vol D first cs xs)
    (hc : cs[p / vol.clusterBytes]? = some c) (hp : p ≤ xs.length)
    (hn : p % 512 + ys.length ≤ 512) (old : Block)
    (hold : old = D.blocks (vol.blockAt cs p) ∨ p % 512 = 0 ∧ xs.length ≤ p) :
    Content vol (D.put (vol.blockAt cs p) (splice old (p % 512) ys)) first cs (overwrite xs p ys) := by
  have hcluster := hs.cluster hc
  have hin := SdVolume.blockAt_inCluster hc
  have hbehind := hl.inCluster_lt hcluster hin
  have hroom : p + ys.length ≤ cs.length * vol.clusterBytes := by
    have hlt := (List.getElem?_eq_some_iff.mp hc).1
    have hle := Nat.mul_le_mul_right vol.clusterBytes (Nat.succ_le_of_lt hlt)
    have hdiv := Nat.div_add_mod' p vol.clusterBytes
    have hmod := Nat.mod_mul (x := p) (a := 512) (b := 2^vol.clusterSizeShift)
    have hlast := Nat.mod_lt (p / 512) (Nat.two_pow_pos vol.clusterSizeShift)
    rw [Nat.succ_mul] at hle
    unfold SdVolume.clusterBytes at hle hdiv ⊢
    omega
  have hblocks := (hl.plain_inCluster hcluster hin).put_apply (splice old (p % 512) ys)
  refine ⟨hs.chain.congr fun d hd => hl.entry_put (hs.chain.clusters d hd).2
    (hl.tables.trans hbehind.1) hbehind.2 _, hs.first, ?_, fun q x hx => ?_⟩
  · rw [length_overwrite_of_le hp]
    have := hs.room
    omega
  · rw [getElem?_overwrite_of_le hp] at hx
    unfold byteAt
    rw [hblocks]
    split at hx
    · have hsame : vol.blockAt cs q = vol.blockAt cs p := vol.blockAt_congr cs (by omega)
      have hfin : Fin.ofNat 512 q = Fin.ofNat 512 (p % 512 + (q - p)) :=
        Fin.ext (show q % 512 = (p % 512 + (q - p)) % 512 by omega)
      rw [hsame, Function.update_self, hfin]
      exact splice_of_mem hx (by omega)
    · have hq := (List.getElem?_eq_some_iff.mp hx).1
      by_cases hdiv : q / 512 = p / 512
      · have hsame : vol.blockAt cs q = vol.blockAt cs p := vol.blockAt_congr cs hdiv
        obtain rfl | hfresh := hold
        · have hval : (Fin.ofNat 512 q).val = q % 512 := rfl
          rw [hsame, Function.update_self, ← hs.bytes q x hx, byteAt, hsame]
          obtain hlt | hge : q < p ∨ p + ys.length ≤ q := by omega
          · exact splice_of_lt (by omega)
          · exact splice_of_ge (by omega)
        · omega
      · have hpin := (Nat.div_lt_iff_lt_mul vol.clusterBytes_pos).mp
          (List.getElem?_eq_some_iff.mp hc).1
        have hne := hs.chain.blockAt_ne (hq.trans_le hs.room) hpin hdiv
        rw [Function.update_of_ne hne]
        exact hs.bytes q x hx

end RasPiArduino.Sd
