import RasPiArduino.Outcome
import RasPiArduino.SdVolume

/-! The cache of one block does not show: to its users the card is a store of blocks. -/
namespace RasPiArduino.Sd
open LittleEndian Outcome

/-- The block in the cache, or its mirror, is still to be written. -/
abbrev State.Pending (v : State) (b : Nat) : Prop :=
  v.cacheDirty ∧ b ≠ noBlock ∧
    (b = v.cacheBlockNumber ∨ v.cacheMirrorBlock ≠ 0 ∧ b = v.cacheMirrorBlock)

/-- The blocks as the users of the volume see them. -/
def State.contents (v : State) (b : Nat) : Block :=
  if v.Pending b then v.cacheBuffer else v.sdCard.blocks b

/-- A store of blocks. Some of them have a mirror, which is not block zero; no access fails if the
store is `reliable`. -/
@[ext] structure Disk where
  blocks : Nat → Block
  size : Nat
  start : Nat
  size_le : size ≤ noBlock
  mirrorOf : Nat → Nat
  mirrorOf_lt : ∀ b, mirrorOf b < size
  reliable : Prop

def Disk.put (D : Disk) (b : Nat) (data : Block) : Disk :=
  { D with blocks := fun c =>
      if c = b ∨ D.mirrorOf b ≠ 0 ∧ c = D.mirrorOf b then data else D.blocks c }

def Disk.write (D : Disk) (b i : Nat) (data : List UInt8) : Disk :=
  D.put b (splice (D.blocks b) i data)

def Disk.unless (D : Disk) (p : Prop) : Disk := { D with reliable := D.reliable ∧ ¬ p }

/-- A block that may be written, which has no mirror and is none. -/
structure Disk.Plain (D : Disk) (b : Nat) : Prop where
  pos : 0 < b
  lt : b < D.size
  unmirrored : D.mirrorOf b = 0
  noMirror : ∀ c, D.mirrorOf c ≠ b

/-- The state implements the store. -/
structure Holds (D : Disk) (v : State) : Prop where
  contents : v.contents = D.blocks
  size : v.sdCard.size = D.size
  start : v.allocSearchStart = D.start
  clean : v.cacheDirty = false →
    v.cacheBlockNumber < D.size → v.cacheBuffer = v.sdCard.blocks v.cacheBlockNumber
  unmirrored : v.cacheDirty = false → v.cacheMirrorBlock = 0
  mirrored : v.cacheMirrorBlock ≠ 0 → v.cacheMirrorBlock = D.mirrorOf v.cacheBlockNumber
  reliable : D.reliable → v.sdCard.accesses = []
  writable : D.reliable → v.cacheDirty → 0 < v.cacheBlockNumber ∧ v.cacheBlockNumber < D.size

variable {D : Disk} {v w : State} {b i n : Nat} {data : Block} {xs : List UInt8}

theorem contents_of_clean (h : v.cacheDirty = false) : v.contents = v.sdCard.blocks := by
  funext b
  exact if_neg fun hp => absurd (h.symm.trans hp.1) Bool.false_ne_true

theorem contents_store (hb : v.Pending b) (data : Block) :
    (v.store b data).contents = v.contents := by
  funext c
  have hiff : (v.store b data).Pending c ↔ v.Pending c := Iff.rfl
  by_cases hc : v.Pending c
  · simp only [State.contents, if_pos (hiff.mpr hc), if_pos hc]
    rfl
  · have hne : c ≠ b := by
      rintro rfl
      exact hc hb
    simp only [State.contents, if_neg (mt hiff.mp hc), if_neg hc]
    exact Function.update_of_ne hne _ _

theorem Holds.buffer (h : Holds D v) (hb : v.cacheBlockNumber < D.size) :
    v.cacheBuffer = D.blocks v.cacheBlockNumber := by
  rw [← h.contents]
  cases hd : v.cacheDirty with
  | true =>
    have := D.size_le
    exact (if_pos ⟨hd, by omega, Or.inl rfl⟩).symm
  | false => rw [contents_of_clean hd, h.clean hd hb]

theorem Holds.card (h : Holds D v) (hd : v.cacheDirty = false) : v.sdCard.blocks = D.blocks := by
  rw [← h.contents, contents_of_clean hd]

theorem Holds.store (h : Holds D v) (hb : v.Pending b) (data : Block) :
    Holds D (v.store b data) where
  contents := (contents_store hb data).trans h.contents
  size := h.size
  start := h.start
  clean := fun hc => absurd hb.1 (by simpa [State.store] using hc)
  unmirrored := fun hc => absurd hb.1 (by simpa [State.store] using hc)
  mirrored := h.mirrored
  reliable := h.reliable
  writable := h.writable

theorem Holds.flushed (h : Holds D v) (hb : v.sdCard.blocks v.cacheBlockNumber = v.cacheBuffer)
    (hm : v.cacheMirrorBlock ≠ 0 → v.sdCard.blocks v.cacheMirrorBlock = v.cacheBuffer) :
    Holds D { v with cacheMirrorBlock := 0, cacheDirty := false } where
  contents := by
    rw [← h.contents, contents_of_clean rfl]
    funext c
    unfold State.contents
    split
    · rename_i hc
      obtain ⟨-, -, rfl | ⟨hne, rfl⟩⟩ := hc
      · exact hb
      · exact hm hne
    · rfl
  size := h.size
  start := h.start
  clean := fun _ _ => hb.symm
  unmirrored := fun _ => rfl
  mirrored := fun hne => absurd rfl hne
  reliable := h.reliable
  writable := fun _ hd => absurd hd Bool.false_ne_true

theorem Holds.mirror_lt (h : Holds D v) (hm : v.cacheMirrorBlock ≠ 0) :
    v.cacheMirrorBlock < v.sdCard.size := by
  rw [h.mirrored hm, h.size]
  exact D.mirrorOf_lt _

def Used (v w : State) : Prop :=
  ∃ l, w = { v with sdCard.accesses := l } ∧ (v.sdCard.accesses = [] → l = [])

theorem Holds.used (h : Holds D v) (hw : Used v w) : Holds D w := by
  obtain ⟨l, rfl, hl⟩ := hw
  exact ⟨h.contents, h.size, h.start, h.clean, h.unmirrored, h.mirrored,
    fun hr => hl (h.reliable hr), h.writable⟩

theorem access_yields (v : State) : Yields access v
    (fun r w => Used v w ∧ (v.sdCard.accesses = [] → r = none)) (fun _ _ => False) := by
  unfold access
  simp only [yields_bind, yields_get]
  cases hl : v.sdCard.accesses with
  | nil => exact ⟨⟨[], by rw [← hl], fun _ => rfl⟩, fun _ => rfl⟩
  | cons a l =>
    exact ⟨⟨l, rfl, fun hn => absurd (hl.symm.trans hn) (List.cons_ne_nil a l)⟩,
      fun hn => absurd hn (List.cons_ne_nil a l)⟩

theorem readBlock_yields (v : State) (b : Nat) : Yields (readBlock b) v
    (fun data w => data = v.sdCard.blocks b ∧ Used v w)
    (fun _ w => Used v w ∧ (v.sdCard.accesses = [] → v.sdCard.size ≤ b)) := by
  unfold readBlock
  simp only [yields_bind, yields_get, yields_ite, yields_throw]
  refine ⟨fun hb => ⟨⟨_, rfl, id⟩, fun _ => hb⟩, fun _ => ?_⟩
  refine (access_yields v).mono (fun r w hw => ?_) fun _ _ h => h.elim
  obtain ⟨hused, hr⟩ := hw
  cases r with
  | none => exact ⟨rfl, hused⟩
  | some left => exact ⟨hused, fun hn => absurd (hr hn) (Option.some_ne_none left)⟩

theorem writeBlock_yields (v : State) (b : Nat) (data : Block) : Yields (writeBlock b data) v
    (fun _ w => b < v.sdCard.size ∧ Used (v.store b data) w)
    (fun _ w => (Used v w ∨ b < v.sdCard.size ∧ ∃ left, Used (v.store b left) w) ∧
      (v.sdCard.accesses = [] → ¬ (0 < b ∧ b < v.sdCard.size))) := by
  unfold writeBlock
  simp only [yields_bind, yields_get, yields_ite, yields_throw]
  refine ⟨fun hb => ⟨Or.inl ⟨_, rfl, id⟩, fun _ => by omega⟩, fun hb => ?_⟩
  have hlt : b < v.sdCard.size := by omega
  refine (access_yields v).mono (fun r w hw => ?_) fun _ _ h => h.elim
  obtain ⟨⟨l, rfl, hl⟩, hr⟩ := hw
  cases r with
  | none => exact ⟨hlt, l, rfl, hl⟩
  | some left =>
    exact ⟨Or.inr ⟨hlt, left, l, rfl, hl⟩, fun hn => absurd (hr hn) (Option.some_ne_none left)⟩

/-- Whether it can write or not, the cache shows the same blocks. -/
theorem cacheFlush_yields (h : Holds D v) : Yields cacheFlush v
    (fun _ w => Holds D w ∧ w.cacheDirty = false ∧ w.cacheBuffer = v.cacheBuffer ∧
      w.cacheBlockNumber = v.cacheBlockNumber)
    (fun _ w => Holds D w ∧ ¬ D.reliable) := by
  have hle := D.size_le
  have hsize := h.size
  unfold cacheFlush
  simp only [yields_bind, yields_get, yields_ite, yields_pure, yields_modify]
  refine ⟨fun hd => ?_, fun hd => ⟨h, by simpa using hd, trivial, trivial⟩⟩
  refine (writeBlock_yields v _ _).mono (fun _ w hw => ?_) fun _ w hw => ?_
  · obtain ⟨hlt, hw⟩ := hw
    have hpending : v.Pending v.cacheBlockNumber := ⟨hd, by omega, Or.inl rfl⟩
    have hw' : Holds D w := (h.store hpending _).used hw
    obtain ⟨l, rfl, hl⟩ := hw
    refine ⟨fun hm => ?_, fun hm => ?_⟩
    · have hmlt := h.mirror_lt hm
      have hpending' : v.Pending v.cacheMirrorBlock := ⟨hd, by omega, Or.inr ⟨hm, rfl⟩⟩
      refine (writeBlock_yields _ _ _).mono (fun _ u hu => ?_) fun _ u hu => ?_
      · obtain ⟨-, hu⟩ := hu
        have hu' : Holds D u := (hw'.store hpending' _).used hu
        obtain ⟨l', rfl, hl'⟩ := hu
        refine ⟨hu'.flushed ?_ fun _ => ?_, trivial, rfl, rfl⟩
        · by_cases he : v.cacheBlockNumber = v.cacheMirrorBlock
          · simp [State.store, he]
          · simp [State.store, Function.update_of_ne he]
        · simp [State.store]
      · obtain ⟨hu, hno⟩ := hu
        refine ⟨?_, fun hr => hno (hl (h.reliable hr)) ⟨Nat.pos_of_ne_zero hm, hmlt⟩⟩
        obtain hu | ⟨-, left, hu⟩ := hu
        · exact hw'.used hu
        · exact (hw'.store hpending' left).used hu
    · have hmirror : v.cacheMirrorBlock = 0 := not_not.mp hm
      have hflushed := hw'.flushed (by simp [State.store]) fun hne => absurd hmirror hne
      refine ⟨?_, trivial, rfl, rfl⟩
      convert hflushed using 2
      exact hmirror
  · obtain ⟨hw, hno⟩ := hw
    refine ⟨?_, fun hr => hno (h.reliable hr) (h.size ▸ h.writable hr hd)⟩
    obtain hw | ⟨hlt, left, hw⟩ := hw
    · exact h.used hw
    · exact (h.store ⟨hd, by omega, Or.inl rfl⟩ left).used hw

theorem Holds.moved (h : Holds D v) (hd : v.cacheDirty = false) (b : Nat) (data : Block)
    (hs : b < D.size → data = v.sdCard.blocks b) :
    Holds D { v with cacheBuffer := data, cacheBlockNumber := b } where
  contents := by
    rw [← h.contents, contents_of_clean hd]
    exact contents_of_clean hd
  size := h.size
  start := h.start
  clean := fun _ hlt => hs hlt
  unmirrored := h.unmirrored
  mirrored := fun hm => absurd (h.unmirrored hd) hm
  reliable := h.reliable
  writable := fun _ hc => absurd (hd.symm.trans hc) Bool.false_ne_true

theorem Holds.marked (h : Holds D v) (hb : 0 < v.cacheBlockNumber ∧ v.cacheBlockNumber < D.size) :
    Holds D { v with cacheDirty := true } := by
  cases hd : v.cacheDirty with
  | true =>
    convert h using 1
    rw [← hd]
  | false =>
    have hm := h.unmirrored hd
    refine ⟨?_, h.size, h.start, fun hc => absurd hc (by simp), fun hc => absurd hc (by simp),
      h.mirrored, h.reliable, fun _ _ => hb⟩
    funext c
    rw [← h.contents, contents_of_clean hd]
    unfold State.contents
    split
    · rename_i hc
      obtain ⟨-, -, rfl | ⟨hne, -⟩⟩ := hc
      · exact h.clean hd hb.2
      · exact absurd hm hne
    · rfl

theorem cacheRawBlock_yields (h : Holds D v) (hb : 0 < b ∧ b < D.size) (forWrite : Bool) :
    Yields (cacheRawBlock b forWrite) v
      (fun _ w => Holds D w ∧ w.cacheBlockNumber = b ∧ w.cacheBuffer = D.blocks b ∧
        (forWrite → w.cacheDirty))
      (fun _ w => Holds D w ∧ ¬ D.reliable) := by
  have hmark {u : State} (hu : Holds D u) (hn : u.cacheBlockNumber = b) :
      Holds D { u with cacheDirty := u.cacheDirty || forWrite } ∧ u.cacheBlockNumber = b ∧
        u.cacheBuffer = D.blocks b ∧ (forWrite → (u.cacheDirty || forWrite)) := by
    subst hn
    refine ⟨?_, rfl, hu.buffer hb.2, fun hw => by simp [hw]⟩
    cases forWrite with
    | true => simpa using hu.marked hb
    | false => simpa using hu
  unfold cacheRawBlock
  simp only [yields_bind, yields_get, yields_ite, yields_modify]
  refine ⟨fun hne => ?_, fun he => hmark h (not_not.mp he)⟩
  refine (cacheFlush_yields h).mono (fun _ w hw => ?_) fun _ w hw => hw
  obtain ⟨hw, hclean, -, -⟩ := hw
  refine (readBlock_yields w b).mono (fun data u hu => ?_) fun _ u hu => ?_
  · obtain ⟨hdata, l, rfl, hl⟩ := hu
    obtain ⟨hheld, -, hmarked⟩ := hmark ((hw.used ⟨l, rfl, hl⟩).moved hclean b data fun _ => hdata) rfl
    exact ⟨hheld, trivial, hmarked⟩
  · obtain ⟨hused, hno⟩ := hu
    refine ⟨hw.used hused, fun hr => ?_⟩
    have := hno (hw.reliable hr)
    have := hw.size
    omega

theorem Holds.put (h : Holds D v) (hb : v.cacheBlockNumber = b) (hpos : 0 < b) (hlt : b < D.size)
    (data : Block) : Holds (D.put b data)
      { v with cacheBuffer := data, cacheDirty := true, cacheMirrorBlock := D.mirrorOf b } where
  contents := by
    subst hb
    funext c
    have hle := D.size_le
    have hmlt := D.mirrorOf_lt v.cacheBlockNumber
    by_cases hc : c = v.cacheBlockNumber ∨
      D.mirrorOf v.cacheBlockNumber ≠ 0 ∧ c = D.mirrorOf v.cacheBlockNumber
    · have hne : c ≠ noBlock := by
        obtain rfl | ⟨-, rfl⟩ := hc <;> omega
      exact (if_pos ⟨rfl, hne, hc⟩).trans (if_pos hc).symm
    · have hv : ¬ v.Pending c := by
        rintro ⟨-, -, he | ⟨hne, rfl⟩⟩
        · exact hc (Or.inl he)
        · exact hc (Or.inr ⟨h.mirrored hne ▸ hne, h.mirrored hne⟩)
      rw [show (D.put v.cacheBlockNumber data).blocks c = D.blocks c from if_neg hc, ← h.contents]
      exact (if_neg fun hp => hc hp.2.2).trans (if_neg hv).symm
  size := h.size
  start := h.start
  clean := fun hc => absurd hc (by simp)
  unmirrored := fun hc => absurd hc (by simp)
  mirrored := fun _ => by rw [← hb]; rfl
  reliable := h.reliable
  writable := fun _ _ => by subst hb; exact ⟨hpos, hlt⟩

theorem Holds.replaced (h : Holds D v) (hd : v.cacheDirty = false) (hb : D.Plain b)
    (data : Block) : Holds (D.put b data)
      { v with cacheBuffer := data, cacheBlockNumber := b, cacheDirty := true } := by
  have hput := (h.moved hd b (v.sdCard.blocks b) fun _ => rfl).put rfl hb.pos hb.lt data
  convert hput using 2
  rw [h.unmirrored hd, hb.unmirrored]

theorem cacheZeroBlock_yields (h : Holds D v) (hb : D.Plain b) : Yields (cacheZeroBlock b) v
    (fun _ w => Holds (D.put b fun _ => 0) w ∧ w.cacheBlockNumber = b)
    (fun _ w => Holds D w ∧ ¬ D.reliable) := by
  unfold cacheZeroBlock cacheSetDirty
  simp only [yields_bind, yields_modify]
  refine (cacheFlush_yields h).mono (fun _ w hw => ?_) fun _ w hw => hw
  exact ⟨hw.1.replaced hw.2.1 hb _, trivial⟩

theorem Holds.edited (h : Holds D v) (hn : v.cacheBlockNumber = b) (hd : v.cacheDirty)
    (hb : D.Plain b) (data : Block) : Holds (D.put b data) { v with cacheBuffer := data } := by
  have hm : v.cacheMirrorBlock = 0 := by
    by_contra hm
    exact hm ((h.mirrored hm).trans (hn ▸ hb.unmirrored))
  have hput := h.put hn hb.pos hb.lt data
  rwa [hb.unmirrored, ← hm, ← show v.cacheDirty = true from hd] at hput

theorem Holds.direct (h : Holds D v) (hb : D.Plain b) (hne : b ≠ v.cacheBlockNumber) :
    v.sdCard.blocks b = D.blocks b := by
  rw [← h.contents]
  refine (if_neg ?_).symm
  rintro ⟨-, -, he | ⟨hm, he⟩⟩
  · exact hne he
  · exact hb.noMirror _ (he.trans (h.mirrored hm)).symm

theorem readPart_yields (h : Holds D v) (hb : D.Plain b) (hn : 0 < n ∧ i + n ≤ 512)
    (unbuffered : Bool) : Yields (readPart b i n unbuffered) v
      (fun xs w => Holds D w ∧ xs = slice (D.blocks b) i n)
      (fun _ w => Holds D w ∧ ¬ D.reliable) := by
  unfold readPart readData
  simp only [yields_bind, yields_get, yields_ite, yields_pure, yields_throw]
  refine ⟨fun hdirect => ⟨fun h0 => absurd h0 (by omega), fun _ => ⟨fun hlong => ?_, fun _ => ?_⟩⟩,
    fun _ => ?_⟩
  · omega
  · refine (readBlock_yields v b).mono (fun data w hw => ?_) fun _ w hw => ?_
    · exact ⟨h.used hw.2, by rw [hw.1, h.direct hb hdirect.2]⟩
    · refine ⟨h.used hw.1, fun hr => ?_⟩
      have := hw.2 (h.reliable hr)
      have := h.size
      have := hb.lt
      omega
  · refine (cacheRawBlock_yields h ⟨hb.pos, hb.lt⟩ false).mono (fun _ w hw => ?_) fun _ w hw => hw
    exact ⟨hw.1, by rw [hw.2.2.1]⟩

theorem Disk.Plain.put_apply (hb : D.Plain b) (data : Block) :
    (D.put b data).blocks = Function.update D.blocks b data := by
  funext c
  simp [Disk.put, hb.unmirrored, Function.update_apply]

theorem Disk.Plain.put_self (hb : D.Plain b) : D.put b (D.blocks b) = D :=
  Disk.ext ((hb.put_apply _).trans (Function.update_eq_self _ _)) rfl rfl rfl rfl

theorem Holds.bypassed (h : Holds D v) (hb : D.Plain b) (hne : v.cacheBlockNumber ≠ b)
    (data : Block) : Holds (D.put b data) (v.store b data) where
  contents := by
    rw [hb.put_apply, ← h.contents]
    funext c
    have hiff : (v.store b data).Pending c ↔ v.Pending c := Iff.rfl
    by_cases hp : v.Pending c
    · have hc : c ≠ b := by
        rintro rfl
        obtain ⟨-, -, he | ⟨hm, he⟩⟩ := hp
        · exact hne he.symm
        · exact hb.noMirror _ (he.trans (h.mirrored hm)).symm
      rw [Function.update_of_ne hc]
      exact (if_pos (hiff.mpr hp)).trans (if_pos hp).symm
    · simp only [State.contents, if_neg (mt hiff.mp hp), Function.update_apply, if_neg hp]
      exact Function.update_apply _ _ _ _
  size := h.size
  start := h.start
  clean := fun hd hlt => (h.clean hd hlt).trans (Function.update_of_ne hne _ _).symm
  unmirrored := h.unmirrored
  mirrored := h.mirrored
  reliable := h.reliable
  writable := h.writable

/-- A block that is written past the cache, which forgets it. If it was still to be written from
there, the cache can no longer be. -/
theorem Holds.forgotten (h : Holds D v) (hb : D.Plain b) (he : v.cacheBlockNumber = b)
    (data : Block) : Holds ((D.put b data).unless v.cacheDirty)
      ({ v with cacheBlockNumber := noBlock }.store b data) := by
  have hm : v.cacheMirrorBlock = 0 := by
    by_contra hm
    exact hm ((h.mirrored hm).trans (he ▸ hb.unmirrored))
  refine ⟨?_, h.size, h.start, fun _ hlt => absurd hlt (Nat.not_lt.mpr D.size_le), h.unmirrored,
    fun hne => absurd hm hne, fun hr => h.reliable hr.1, fun hr hd => absurd hd hr.2⟩
  refine Eq.trans ?_ (hb.put_apply data).symm
  rw [← h.contents]
  funext c
  have hnone : ¬ ({ v with cacheBlockNumber := noBlock }.store b data).Pending c := by
    rintro ⟨-, hne, hc | ⟨hm', -⟩⟩
    · exact hne hc
    · exact hm' hm
  refine (if_neg hnone).trans ?_
  by_cases hc : c = b
  · simp [State.store, hc]
  · have hno : ¬ v.Pending c := by
      rintro ⟨-, -, hc' | ⟨hm', -⟩⟩
      · exact hc (hc'.trans he)
      · exact hm' hm
    simp [State.store, State.contents, hc, hno]

theorem Holds.of_unless {p : Prop} (h : Holds (D.unless p) v) (hp : D.reliable → ¬ p) :
    Holds D v where
  contents := h.contents
  size := h.size
  start := h.start
  clean := h.clean
  unmirrored := h.unmirrored
  mirrored := h.mirrored
  reliable := fun hr => h.reliable ⟨hr, hp hr⟩
  writable := fun hr => h.writable ⟨hr, hp hr⟩

theorem Holds.unless (h : Holds D v) (p : Prop) : Holds (D.unless p) v where
  contents := h.contents
  size := h.size
  start := h.start
  clean := h.clean
  unmirrored := h.unmirrored
  mirrored := h.mirrored
  reliable := fun hr => h.reliable hr.1
  writable := fun hr => h.writable hr.1

theorem store_self (v : State) (b : Nat) : v.store b (v.sdCard.blocks b) = v := by
  unfold State.store
  rw [Function.update_eq_self]

/-- A whole block is written past the cache. -/
theorem writeWhole_yields (h : Holds D v) (hb : D.Plain b) (data : Block) :
    Yields (writeBlock b data)
      (if v.cacheBlockNumber = b then { v with cacheBlockNumber := noBlock } else v)
      (fun _ w => Holds ((D.put b data).unless (v.cacheDirty ∧ v.cacheBlockNumber = b)) w)
      (fun _ w => ∃ old, Holds (D.put b old) w ∧ ¬ D.reliable) := by
  have hlt : b < v.sdCard.size := h.size ▸ hb.lt
  by_cases he : v.cacheBlockNumber = b
  · have hstored (x : Block) : Holds ((D.put b x).unless v.cacheDirty)
        ({ v with cacheBlockNumber := noBlock }.store b x) := h.forgotten hb he x
    simp only [he, if_true, and_true]
    refine (writeBlock_yields _ b data).mono (fun _ w hw => (hstored data).used hw.2)
      fun _ w hw => ?_
    obtain ⟨hw, hno⟩ := hw
    have hrel : ¬ D.reliable := fun hr => hno (h.reliable hr) ⟨hb.pos, hlt⟩
    have hfree {x : Block} {u : State} (hu : Holds ((D.put b x).unless v.cacheDirty) u) :
        Holds (D.put b x) u := hu.of_unless fun hr => absurd hr hrel
    obtain hw | ⟨-, left, hw⟩ := hw
    · refine ⟨v.sdCard.blocks b, ?_, hrel⟩
      have hsame := hstored (v.sdCard.blocks b)
      rw [store_self { v with cacheBlockNumber := noBlock } b] at hsame
      exact (hfree hsame).used hw
    · exact ⟨left, (hfree (hstored left)).used hw, hrel⟩
  · simp only [he, if_false, and_false]
    refine (writeBlock_yields v b data).mono (fun _ w hw => ?_) fun _ w hw => ?_
    · exact ((h.bypassed hb he data).used hw.2).unless _
    · obtain ⟨hw, hno⟩ := hw
      have hrel : ¬ D.reliable := fun hr => hno (h.reliable hr) ⟨hb.pos, hlt⟩
      obtain hw | ⟨-, left, hw⟩ := hw
      · refine ⟨v.sdCard.blocks b, ?_, hrel⟩
        have hsame := h.bypassed hb he (v.sdCard.blocks b)
        rw [store_self v b] at hsame
        exact hsame.used hw
      · exact ⟨left, (h.bypassed hb he left).used hw, hrel⟩

/-- A writer changes the bytes that it writes, through the cache or past it. The rest of a fresh
block may be anything. -/
theorem writePart_yields (h : Holds D v) (hb : D.Plain b) (hn : i + xs.length ≤ 512)
    (fresh : Bool) : Yields (writePart b i xs fresh) v
      (fun _ w => ∃ old, (fresh = false → old = D.blocks b) ∧
        Holds ((D.put b (splice old i xs)).unless
          (xs.length = 512 ∧ v.cacheDirty ∧ v.cacheBlockNumber = b)) w)
      (fun _ w => ∃ old, Holds (D.put b old) w ∧ ¬ D.reliable) := by
  have hfails {u : State} (hu : Holds D u ∧ ¬ D.reliable) :
      ∃ old, Holds (D.put b old) u ∧ ¬ D.reliable :=
    ⟨D.blocks b, hb.put_self.symm ▸ hu.1, hu.2⟩
  unfold writePart cacheSetDirty
  simp only [yields_bind, yields_ite, yields_modify]
  refine ⟨fun hfull => ?_, fun hpart => ⟨fun hfresh => ?_, fun hold => ?_⟩⟩
  · refine (writeWhole_yields h hb _).mono (fun _ w hw => ⟨D.blocks b, fun _ => rfl, ?_⟩)
      fun _ w hw => hw
    obtain rfl : i = 0 := by omega
    rw [splice_all hfull (fun _ => 0) (D.blocks b)] at hw
    simpa only [hfull, true_and] using hw
  · refine (cacheFlush_yields h).mono (fun _ w hw => ?_) fun _ w hw => hfails hw
    obtain ⟨hw, hclean, hbuf, -⟩ := hw
    refine ⟨w.cacheBuffer, fun hf => absurd (hfresh.symm.trans hf) (by simp), ?_⟩
    have hput := hw.replaced hclean hb (splice w.cacheBuffer i xs)
    exact hput.unless _
  · refine (cacheRawBlock_yields h ⟨hb.pos, hb.lt⟩ true).mono (fun _ w hw => ?_)
      fun _ w hw => hfails hw
    obtain ⟨hw, hnum, hbuf, hdirty⟩ := hw
    refine ⟨D.blocks b, fun _ => rfl, ?_⟩
    have hput := hw.edited hnum (hdirty rfl) hb (splice (D.blocks b) i xs)
    unfold State.edit
    rw [hbuf]
    exact hput.unless _

end RasPiArduino.Sd
