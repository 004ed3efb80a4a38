import RasPiArduino.SdBytes

/-! Reading and seeking in a file: the chain of clusters is followed to where the bytes lie. -/
namespace RasPiArduino.Sd
open LittleEndian Outcome

section
variable {α : Type} {h : Handle} {m : Attempt α} {g : SdFile → SdFile} {k : FileAttempt α}
  {Q : α → Handle → Prop} {R : Stop → Handle → Prop}

@[simp] theorem yields_onVolume : Yields (onVolume m) h Q R ↔
    Yields m h.volume (fun a v => Q a { h with volume := v }) fun e v => R e { h with volume := v } := by
  unfold Yields onVolume
  cases m h.volume <;> rfl

@[simp] theorem yields_onFile {Q : Unit → Handle → Prop} :
    Yields (onFile g) h Q R ↔ Q () { h with file := g h.file } := Iff.rfl

@[simp] theorem yields_getFile {Q : SdFile → Handle → Prop} :
    Yields getFile h Q R ↔ Q h.file h := Iff.rfl

@[simp] theorem yields_noteError : Yields (noteError k) h Q R ↔
    Yields k h Q fun e t => R e { t with file := { t.file with writeError := true } } := by
  unfold noteError onFile
  simp only [yields_tryCatch, yields_bind, yields_modify, yields_throw]

end

/-- A file with the clusters `cs` has the bytes `xs`, and its current cluster is that of the byte
before its position. -/
structure Stored (vol : SdVolume) (D : Disk) (f : SdFile) (cs : List Nat) (xs : List UInt8) :
    Prop extends Content vol D f.firstCluster cs xs where
  type : f.type = .normal
  position : f.curPosition ≤ xs.length
  start : f.curPosition = 0 → f.curCluster = 0
  cluster : 0 < f.curPosition →
    cs[(f.curPosition - 1) / vol.clusterBytes]? = some f.curCluster

variable {vol : SdVolume} {D D' : Disk} {h : Handle} {b c d i n p q : Nat} {cs ds : List Nat}
  {f : SdFile} {xs ys : List UInt8}

theorem div_pred (hn : 0 < n) (hp : p % n ≠ 0) : (p - 1) / n = p / n := by
  have hdiv := Nat.div_add_mod' p n
  have hlt := Nat.mod_lt p hn
  refine Nat.div_eq_of_lt_le (by omega) ?_
  rw [Nat.add_mul, Nat.one_mul]
  omega

theorem div_pred_of_mod (hn : 0 < n) (hp : p % n = 0) (hpos : 0 < p) :
    (p - 1) / n + 1 = p / n := by
  obtain ⟨k, rfl⟩ := Nat.dvd_of_mod_eq_zero hp
  rw [Nat.mul_div_cancel_left k hn]
  obtain ⟨k, rfl⟩ : ∃ m, k = m + 1 := ⟨k - 1, by
    have : k ≠ 0 := by
      rintro rfl
      simp at hpos
    omega⟩
  rw [Nat.mul_add, Nat.mul_one] at hpos ⊢
  have hk : (n * k + n - 1) / n = k := by
    refine Nat.div_eq_of_lt_le ?_ ?_
    · rw [Nat.mul_comm]
      omega
    · rw [Nat.add_mul, Nat.one_mul, Nat.mul_comm]
      omega
  rw [hk]

/-- For a reader the current cluster becomes that of its position. -/
theorem blockToRead_yields (hD : Holds D h.volume) (hl : Laid vol D)
    (hs : Stored vol D h.file cs xs) (hp : h.file.curPosition < xs.length) :
    Yields (blockToRead vol) h
      (fun b t => Holds D t.volume ∧ b = vol.blockAt cs h.file.curPosition ∧
        ∃ c, cs[h.file.curPosition / vol.clusterBytes]? = some c ∧
          t.file = { h.file with curCluster := c })
      (fun _ t => Holds D t.volume ∧ ¬ D.reliable) := by
  obtain ⟨c, hc⟩ := hs.cluster_at hp
  have hblock : vol.clusterStartBlock c + vol.blockOfCluster h.file.curPosition =
      vol.blockAt cs h.file.curPosition := by
    rw [SdVolume.blockAt, hc, Option.getD_some, hl.blockOfCluster,
      hl.clusterStartBlock (hs.toContent.cluster hc)]
  have hno16 : h.file.type ≠ .root16 := by simp [hs.type]
  have hmod := vol.mod_clusterBytes_eq_zero h.file.curPosition
  unfold blockToRead
  simp only [yields_bind, yields_getFile, yields_ite, yields_pure, yields_onFile, yields_onVolume]
  refine ⟨fun h16 => absurd h16 hno16, fun _ => ⟨fun hstart => ⟨fun hzero => ?_, fun hpos => ?_⟩,
    fun hin => ?_⟩⟩
  · have hfirst : h.file.firstCluster = c := hs.head (by simpa [hzero] using hc)
    rw [hfirst]
    exact ⟨hD, hblock, c, hc, rfl⟩
  · rw [hl.blockOfCluster] at hstart
    have hpos := Nat.pos_of_ne_zero hpos
    have hindex := div_pred_of_mod vol.clusterBytes_pos (hmod.mpr ⟨hstart.2, hstart.1⟩) hpos
    have hcur := hs.cluster hpos
    have hnext := hs.chain.entry_at hcur
    rw [hindex, hc] at hnext
    have hcluster := (hs.chain.clusters _ (List.mem_of_getElem? hcur)).2
    refine (fatGet_yields hD hl hcluster).mono (fun x v hv => ?_) fun _ v hv => hv
    obtain ⟨hv, rfl⟩ := hv
    refine ⟨hv, ?_, c, hc, ?_⟩
    · rw [hnext.1]
      exact hblock
    · rw [hnext.1]
  · rw [hl.blockOfCluster] at hin
    have hne : h.file.curPosition % vol.clusterBytes ≠ 0 := fun h0 =>
      hin ⟨(hmod.mp h0).2, (hmod.mp h0).1⟩
    have hpos : 0 < h.file.curPosition := by
      by_contra h0
      rw [show h.file.curPosition = 0 by omega] at hne
      exact hne (Nat.zero_mod _)
    have hcur := hs.cluster hpos
    rw [div_pred vol.clusterBytes_pos hne, hc, Option.some.injEq] at hcur
    subst hcur
    exact ⟨hD, hblock, _, hc, rfl⟩

theorem Stored.advance (hs : Stored vol D f cs xs) (hn : 0 < n) (hp : p % 512 + n ≤ 512)
    (hlen : p + n ≤ xs.length) (hc : cs[p / vol.clusterBytes]? = some c) :
    Stored vol D { f with curCluster := c, curPosition := p + n } cs xs where
  toContent := hs.toContent
  type := hs.type
  position := hlen
  start := fun h0 => absurd h0 (by simp only; omega)
  cluster := fun _ => by
    have hdiv : (p + n - 1) / 512 = p / 512 := by omega
    rw [vol.div_clusterBytes] at hc ⊢
    simp only [hdiv]
    exact hc

theorem readLoop_yields (hl : Laid vol D) (hD : Holds D h.volume)
    (hs : Stored vol D h.file cs xs) (hlt : xs.length < 2^32)
    (hn : h.file.curPosition + n ≤ xs.length) (hi : n ≤ i) :
    Yields (readLoop vol i n) h
      (fun ys t => ys = (xs.drop h.file.curPosition).take n ∧ Holds D t.volume ∧
        Stored vol D t.file cs xs ∧ ∃ c, t.file = { h.file with
          curCluster := c, curPosition := h.file.curPosition + n })
      (fun _ t => Holds D t.volume ∧ ¬ D.reliable) := by
  induction i generalizing h n with
  | zero =>
    obtain rfl : n = 0 := by omega
    exact ⟨by simp, hD, hs, _, rfl⟩
  | succ i ih =>
    unfold readLoop
    simp only [yields_bind, yields_getFile, yields_ite, yields_pure, yields_onFile, yields_onVolume]
    refine ⟨fun h0 => ?_, fun hne => ?_⟩
    · subst h0
      exact ⟨by simp, hD, hs, _, rfl⟩
    · refine (blockToRead_yields hD hl hs (by omega)).mono (fun b t ht => ?_) fun _ t ht => ht
      obtain ⟨hv, rfl, c, hc, hfile⟩ := ht
      obtain ⟨k, hk⟩ : ∃ k, min n (512 - h.file.curPosition % 512) = k := ⟨_, rfl⟩
      have hplain : D.Plain (vol.blockAt cs h.file.curPosition) :=
        hl.plain_inCluster (hs.toContent.cluster hc) (SdVolume.blockAt_inCluster hc)
      have hmod : (h.file.curPosition + k) % 2^32 = h.file.curPosition + k :=
        Nat.mod_eq_of_lt (by omega)
      rw [hk]
      refine (readPart_yields hv hplain (by omega) _).mono (fun ys v hys => ?_) fun _ v hv => hv
      obtain ⟨hv, rfl⟩ := hys
      have hadvance := hs.advance (n := k) (by omega) (by omega) (by omega) hc
      simp only [hfile, hmod]
      refine (ih (h := ⟨{ h.file with curCluster := c, curPosition := h.file.curPosition + k }, v⟩)
        (n := n - k) hv hadvance (by simp only; omega) (by omega)).mono (fun zs u hu => ?_)
        fun _ u hu => hu
      obtain ⟨rfl, hu, hsu, c', hfile'⟩ := hu
      refine ⟨?_, hu, hsu, c', ?_⟩
      · rw [hs.slice_block (by omega) (by omega), ← List.drop_drop, ← List.take_add]
        congr 1
        omega
      · rw [hfile']
        simp only [SdFile.mk.injEq, true_and, and_true]
        omega

/-- A read gives the bytes from the position on, as many as there are, and goes on behind them. -/
theorem read_yields (hl : Laid vol D) (hD : Holds D h.volume) (hs : Stored vol D h.file cs xs)
    (hsize : h.file.fileSize = xs.length) (hlt : xs.length < 2^32) (n : Nat) :
    Yields (read vol n) h
      (fun r t => h.file.forRead ∧ r.2 = (xs.drop h.file.curPosition).take n ∧
        r.1 = int16 r.2.length ∧ Holds D t.volume ∧ Stored vol D t.file cs xs ∧
        ∃ c, t.file = { h.file with
          curCluster := c, curPosition := h.file.curPosition + r.2.length })
      (fun _ t => Holds D t.volume ∧ if h.file.forRead then ¬ D.reliable else t.file = h.file) := by
  have hleft : (h.file.fileSize + 2^32 - h.file.curPosition) % 2^32 =
      xs.length - h.file.curPosition := by
    have := hs.position
    omega
  unfold read
  simp only [yields_bind, yields_getFile, yields_ite, yields_pure, yields_throw, hleft]
  refine ⟨fun hno => ⟨hD, ?_⟩, fun hok => ?_⟩
  · have hfor : h.file.forRead = false := by simpa [SdFile.isOpen, hs.type] using hno
    simp [hfor]
  · have hfor : h.file.forRead := by
      by_contra hr
      exact hok (Or.inr hr)
    have hpos := hs.position
    refine (readLoop_yields hl hD hs hlt (by omega) (Nat.le_refl _)).mono (fun ys t ht => ?_)
      fun _ t ht => ⟨ht.1, by rw [if_pos hfor]; exact ht.2⟩
    obtain ⟨rfl, ht, hst, c, hfile⟩ := ht
    have htake : (xs.drop h.file.curPosition).take (min n (xs.length - h.file.curPosition)) =
        (xs.drop h.file.curPosition).take n := by
      rw [← List.length_drop, ← List.take_take, List.take_length]
    have hlen : ((xs.drop h.file.curPosition).take n).length =
        min n (xs.length - h.file.curPosition) := by simp
    rw [htake, hlen]
    exact ⟨hfor, rfl, rfl, ht, hst, c, hfile⟩

theorem follow_yields (hl : Laid vol D) (hD : Holds D h.volume)
    (hc : ClusterChain vol D cs.head? cs) (hi : cs[i]? = some h.file.curCluster)
    (hn : cs[i + n]? = some c) :
    Yields (follow vol n) h
      (fun _ t => Holds D t.volume ∧ t.file = { h.file with curCluster := c })
      (fun _ t => Holds D t.volume ∧ ¬ D.reliable) := by
  induction n generalizing h i with
  | zero =>
    obtain rfl : h.file.curCluster = c := by simpa using hi.symm.trans hn
    exact ⟨hD, rfl⟩
  | succ n ih =>
    have hlt : i + 1 < cs.length := by
      have := (List.getElem?_eq_some_iff.mp hn).1
      omega
    have hnext := hc.entry_at hi
    rw [List.getElem?_eq_getElem hlt] at hnext
    unfold follow
    simp only [yields_bind, yields_getFile, yields_onFile, yields_onVolume]
    refine (fatGet_yields hD hl (hc.clusters _ (List.mem_of_getElem? hi)).2).mono
      (fun x v hv => ?_) fun _ v hv => hv
    obtain ⟨hv, rfl⟩ := hv
    refine (ih (h := ⟨{ h.file with curCluster := vol.entry D h.file.curCluster }, v⟩)
      (i := i + 1) hv ?_ ?_).mono (fun _ t ht => ht) fun _ t ht => ht
    · rw [List.getElem?_eq_getElem hlt, hnext.1]
    · rw [← hn]
      congr 1
      omega

theorem Stored.moved (hs : Stored vol D f cs xs) (hp : p ≤ xs.length) (h0 : p = 0 → c = 0)
    (hc : 0 < p → cs[(p - 1) / vol.clusterBytes]? = some c) :
    Stored vol D { f with curCluster := c, curPosition := p } cs xs :=
  ⟨hs.toContent, hs.type, hp, h0, hc⟩

theorem seekSet_yields (hl : Laid vol D) (hD : Holds D h.volume)
    (hs : Stored vol D h.file cs xs) (hsize : h.file.fileSize = xs.length) (p : Nat) :
    Yields (seekSet vol p) h
      (fun _ t => p ≤ xs.length ∧ Holds D t.volume ∧ Stored vol D t.file cs xs ∧
        ∃ c, t.file = { h.file with curCluster := c, curPosition := p })
      (fun _ t => Holds D t.volume ∧ if p ≤ xs.length then ¬ D.reliable else t.file = h.file) := by
  have hno16 : h.file.type ≠ .root16 := by simp [hs.type]
  have hopen : h.file.isOpen = true := by simp [SdFile.isOpen, hs.type]
  unfold seekSet
  simp only [yields_bind, yields_getFile, yields_ite, yields_throw, yields_onFile]
  refine ⟨fun hno => ⟨hD, ?_⟩, fun hok => ⟨fun h16 => absurd h16 hno16,
    fun _ => ⟨fun hzero => ?_, fun hne => ?_⟩⟩⟩
  · rw [if_neg (by simp [hopen] at hno; omega)]
    trivial
  · subst hzero
    exact ⟨Nat.zero_le _, hD, hs.moved (Nat.zero_le _) (fun _ => rfl) fun h0 => absurd h0 (by omega),
      0, rfl⟩
  · have hle : p ≤ xs.length := by
      by_contra hgt
      exact hok (Or.inr (by omega))
    have hpos : 0 < p := by omega
    obtain ⟨c, hc⟩ := hs.cluster_at (p := p - 1) (by omega)
    have hdone {t : Handle} (ht : Holds D t.volume ∧ ∃ d, t.file =
        { h.file with curCluster := d } ∧ d = c) : p ≤ xs.length ∧ Holds D t.volume ∧
          Stored vol D { t.file with curPosition := p } cs xs ∧
          ∃ c, { t.file with curPosition := p } = { h.file with curCluster := c, curPosition := p } := by
      obtain ⟨ht, d, hfile, rfl⟩ := ht
      rw [hfile]
      exact ⟨hle, ht, hs.moved hle (fun h0 => absurd h0 (by omega)) fun _ => hc, d, rfl⟩
    refine ⟨fun hback => ?_, fun hon => ?_⟩
    · have hfirst : cs[0]? = some h.file.firstCluster := by
        have hlt := (List.getElem?_eq_some_iff.mp hc).1
        have hhead := List.getElem?_eq_getElem (Nat.zero_lt_of_lt hlt)
        rw [hs.head hhead]
        exact hhead
      refine (follow_yields (h := ⟨{ h.file with curCluster := h.file.firstCluster }, h.volume⟩)
        (i := 0) hl hD hs.chain hfirst (by rw [Nat.zero_add]; exact hc)).mono
          (fun _ t ht => hdone ⟨ht.1, c, ht.2, rfl⟩) fun _ t ht => ⟨ht.1, by rw [if_pos hle]; exact ht.2⟩
    · have hcur := hs.cluster (by omega)
      refine (follow_yields hl hD hs.chain hcur (c := c) ?_).mono
        (fun _ t ht => hdone ⟨ht.1, c, ht.2, rfl⟩) fun _ t ht => ⟨ht.1, by rw [if_pos hle]; exact ht.2⟩
      rw [← hc]
      congr 1
      unfold SdVolume.clusterBytes
      omega

end RasPiArduino.Sd
