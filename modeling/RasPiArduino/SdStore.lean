import RasPiArduino.Machine
import RasPiArduino.SdTable

/-! Runs of a volume: what its users see of the blocks and of the table, whatever becomes of the
accesses to the card. -/
namespace RasPiArduino.Sd
open LittleEndian Outcome Machine

inductive Operation where
  | flush
  | read (block offset n : Nat) (unbuffered : Bool)
  | write (block offset : Nat) (data : List UInt8) (fresh : Bool)
  | zero (block : Nat)
  | get (cluster : Nat)
  | put (cluster value : Nat)

inductive Answer where
  | done
  | bytes (xs : List UInt8)
  | entry (f : Nat)

def perform (vol : SdVolume) : Operation → Attempt Answer
  | .flush => do cacheFlush; return .done
  | .read block offset n unbuffered => do return .bytes (← readPart block offset n unbuffered)
  | .write block offset data fresh => do writePart block offset data fresh; return .done
  | .zero block => do cacheZeroBlock block; return .done
  | .get cluster => do return .entry (← fatGet vol cluster)
  | .put cluster value => do fatPut vol cluster value; return .done

def step (vol : SdVolume) (s : State) (o : Operation) : Option (Except Stop Answer × State) :=
  some (outcome (perform vol o) s)

def SdVolume.Behind (vol : SdVolume) (size b : Nat) : Prop :=
  vol.fatStartBlock + vol.fatCount * vol.blocksPerFat ≤ b ∧ b < size

/-- The operation is about parts of blocks behind the tables, or about entries of the table. -/
def Proper (vol : SdVolume) (size : Nat) : Operation → Prop
  | .flush => True
  | .read block offset n _ => vol.Behind size block ∧ 0 < n ∧ offset + n ≤ 512
  | .write block offset data _ => vol.Behind size block ∧ offset + data.length ≤ 512
  | .zero block => vol.Behind size block
  | .get cluster => cluster ≤ vol.clusterCount + 1
  | .put cluster _ => 2 ≤ cluster ∧ cluster ≤ vol.clusterCount + 1

/-- The volume shows a store of blocks: `s` before the operation, `t` after it. An operation that
fails may change the block that it writes, and else nothing. -/
def Shows (vol : SdVolume) (s : State) (o : Operation) (r : Except Stop Answer) (t : State) :
    Prop :=
  match o, r with
  | .flush, .ok a => a = .done ∧ t.contents = s.contents ∧ t.sdCard.blocks = s.contents
  | .read block offset n _, .ok a =>
    a = .bytes (slice (s.contents block) offset n) ∧ t.contents = s.contents
  | .write block offset data fresh, .ok a => a = .done ∧
    ∃ old, (fresh = false → old = s.contents block) ∧
      t.contents = Function.update s.contents block (splice old offset data)
  | .zero block, .ok a => a = .done ∧ t.contents = Function.update s.contents block fun _ => 0
  | .get cluster, .ok a =>
    a = .entry (vol.entryIn (s.contents (vol.fatBlock cluster)) cluster) ∧ t.contents = s.contents
  | .put cluster value, .ok a => a = .done ∧
    (∀ c, c ≤ vol.clusterCount + 1 → vol.entryIn (t.contents (vol.fatBlock c)) c =
      if c = cluster then vol.kept value else vol.entryIn (s.contents (vol.fatBlock c)) c) ∧
    (∀ b, vol.fatStartBlock + vol.fatCount * vol.blocksPerFat ≤ b → t.contents b = s.contents b) ∧
    (1 < vol.fatCount → t.contents (vol.fatBlock cluster + vol.blocksPerFat) =
      t.contents (vol.fatBlock cluster))
  | .write block _ _ _, .error _ => ∀ b, b ≠ block → t.contents b = s.contents b
  | _, .error _ => t.contents = s.contents

/-- A whole block is written past the cache while the cache still has it to write. -/
def Overwrites (s : State) : Operation → Prop
  | .write block _ data _ => data.length = 512 ∧ s.cacheDirty ∧ s.cacheBlockNumber = block
  | _ => False

instance (s : State) : DecidablePred (Overwrites s)
  | .write _ _ _ _ => inferInstanceAs (Decidable (_ ∧ _))
  | .flush | .read _ _ _ _ | .zero _ | .get _ | .put _ _ => inferInstanceAs (Decidable False)

def Coherent (vol : SdVolume) (v : State) : Prop := ∃ D, Laid vol D ∧ Holds D v

variable {vol : SdVolume} {D : Disk} {v : State} {o : Operation}

theorem Proper.plain {b : Nat} (hl : Laid vol D) (hb : vol.Behind D.size b) : D.Plain b :=
  hl.plain hb.1 hb.2

def After (vol : SdVolume) (D : Disk) (p : Prop) (w : State) : Prop :=
  ∃ D', D'.size = D.size ∧ Laid vol D' ∧ Holds D' w ∧ (D.reliable → p → D'.reliable)

theorem perform_yields (hl : Laid vol D) (h : Holds D v) (ho : Proper vol D.size o) :
    Yields (perform vol o) v
      (fun a w => Shows vol v o (.ok a) w ∧ After vol D (¬ Overwrites v o) w)
      (fun e w => Shows vol v o (.error e) w ∧ After vol D False w ∧ ¬ D.reliable) := by
  have hv := h.contents
  have hsame {p : Prop} {w : State} (hw : Holds D w) : w.contents = v.contents ∧ After vol D p w :=
    ⟨hw.contents.trans hv.symm, D, rfl, hl, hw, fun hr _ => hr⟩
  have hfail {w : State} (hw : Holds D w ∧ ¬ D.reliable) :
      w.contents = v.contents ∧ After vol D False w ∧ ¬ D.reliable :=
    ⟨(hsame (p := False) hw.1).1, (hsame hw.1).2, hw.2⟩
  have hnew {D' : Disk} {p : Prop} (hl' : Laid vol D') (hs : D'.size = D.size) {w : State}
      (hw : Holds D' w) (hr : D.reliable → p → D'.reliable) : After vol D p w :=
    ⟨D', hs, hl', hw, hr⟩
  cases o with
  | flush =>
    unfold perform
    simp only [yields_bind, yields_pure]
    refine (cacheFlush_yields h).mono (fun _ w hw => ?_) fun _ w hw => hfail hw
    obtain ⟨hc, hD⟩ := hsame hw.1
    exact ⟨⟨rfl, hc, (hw.1.card hw.2.1).trans hv.symm⟩, hD⟩
  | read block offset n unbuffered =>
    unfold perform
    simp only [yields_bind, yields_pure]
    refine (readPart_yields h (Proper.plain hl ho.1) ho.2 unbuffered).mono (fun xs w hw => ?_)
      fun _ w hw => hfail hw
    obtain ⟨hc, hD⟩ := hsame hw.1
    exact ⟨⟨by rw [hw.2, hv], hc⟩, hD⟩
  | write block offset data fresh =>
    unfold perform
    simp only [yields_bind, yields_pure]
    have hb := Proper.plain hl ho.1
    refine (writePart_yields h hb ho.2 fresh).mono (fun _ w hw => ?_) fun _ w hw => ?_
    · obtain ⟨old, hold, hw⟩ := hw
      refine ⟨⟨rfl, old, fun hf => (hold hf).trans (by rw [hv]), ?_⟩,
        hnew ((hl.put _ _).unless _) rfl hw fun hr hno => ⟨hr, hno⟩⟩
      rw [hw.contents, hv]
      exact hb.put_apply _
    · obtain ⟨old, hw, hrel⟩ := hw
      refine ⟨fun b hne => ?_, hnew (hl.put _ _) rfl hw fun hr _ => hr, hrel⟩
      rw [hw.contents, hv, hb.put_apply, Function.update_of_ne hne]
  | zero block =>
    unfold perform
    simp only [yields_bind, yields_pure]
    have hb := Proper.plain hl ho
    refine (cacheZeroBlock_yields h hb).mono (fun _ w hw => ?_) fun _ w hw => hfail hw
    exact ⟨⟨rfl, by rw [hw.1.contents, hv, hb.put_apply]⟩, hnew (hl.put _ _) rfl hw.1 fun hr _ => hr⟩
  | get cluster =>
    unfold perform
    simp only [yields_bind, yields_pure]
    refine (fatGet_yields h hl ho).mono (fun f w hw => ?_) fun _ w hw => hfail hw
    obtain ⟨hc, hD⟩ := hsame hw.1
    exact ⟨⟨by rw [hw.2, hv]; rfl, hc⟩, hD⟩
  | put cluster value =>
    unfold perform
    simp only [yields_bind, yields_pure]
    refine (fatPut_yields h hl ho value).mono (fun _ w hw => ?_) fun _ w hw => hfail hw
    refine ⟨⟨rfl, fun c hc => ?_, fun b hb => ?_, fun hm => ?_⟩,
      hnew (hl.withEntry _ _) rfl hw fun hr _ => hr⟩
    · rw [hw.contents, hv]
      split
      · rename_i he
        subst he
        exact vol.entry_withEntry D c value
      · rename_i hne
        exact hl.entry_withEntry_of_ne hne hc value
    · rw [hw.contents, hv]
      exact hl.blocks_withEntry ho.2 hb value
    · rw [hw.contents]
      have hmirror : D.mirrorOf (vol.fatBlock cluster) = vol.fatBlock cluster + vol.blocksPerFat := by
        rw [hl.mirrorOf, SdVolume.mirrorOf, if_pos ⟨hm, vol.le_fatBlock _, hl.fatBlock_lt ho.2⟩]
      have hpos := (hl.inStore ho.2).1
      refine (if_pos (Or.inr ⟨?_, hmirror.symm⟩)).trans (if_pos (Or.inl rfl)).symm
      omega

/-- Whatever becomes of the accesses to the card, over any run the volume shows a store of blocks
with a table in it. Reads give what was written last, a flush puts on the card what is shown, and
an operation that fails changes at most the block that it writes. -/
theorem run_shows_store (h : Coherent vol v) {ops : List Operation}
    (hops : ∀ o ∈ ops, Proper vol v.sdCard.size o) : Keeps (step vol) (Shows vol) ops v := by
  obtain ⟨D, hl, h⟩ := h
  rw [h.size] at hops
  induction ops generalizing D v with
  | nil => trivial
  | cons o ops ih =>
    obtain ⟨ho, hops⟩ := List.forall_mem_cons.mp hops
    have hout := ((perform_yields hl h ho).mono
      (fun a w hw => ⟨hw.1, hw.2.imp fun D' hD => ⟨hD.1, hD.2.1, hD.2.2.1⟩⟩)
      fun e w hw => ⟨hw.1, hw.2.1.imp fun D' hD => ⟨hD.1, hD.2.1, hD.2.2.1⟩⟩).outcome
        (P := fun r w => Shows vol v o r w ∧ ∃ D', D'.size = D.size ∧ Laid vol D' ∧ Holds D' w)
    obtain ⟨hshows, D', hsize, hl', h'⟩ := hout
    exact ⟨hshows, ih D' (by rwa [hsize]) hl' h'⟩

theorem run_shows_store_smallVolume :
    Keeps (step smallVolume) (Shows smallVolume)
      [.put 2 0xFFFF, .write 4 0 [1, 2] true, .read 4 1 1 false, .flush]
      { sdCard := blankCard [.succeeds, .fails fun _ => 9] } :=
  run_shows_store ⟨_, blank_laid _, blank_holds _⟩
    (by simp [Proper, SdVolume.Behind, smallVolume, blankCard])

/-- The cache has something to write, but no longer knows to which block. -/
def Stuck (v : State) : Prop :=
  v.cacheDirty ∧ v.cacheBlockNumber = noBlock ∧ v.sdCard.size ≤ noBlock

theorem Stuck.cacheFlush_yields (h : Stuck v) :
    Yields cacheFlush v (fun _ _ => False) fun _ _ => True := by
  obtain ⟨hd, hn, hs⟩ := h
  unfold cacheFlush
  simp only [yields_bind, yields_get, yields_ite, yields_pure, yields_modify]
  refine ⟨fun _ => ?_, fun hno => absurd hd hno⟩
  exact (writeBlock_yields v _ _).mono (fun _ w hw => absurd hw.1 (by omega)) fun _ _ _ => trivial

theorem Stuck.cacheRawBlock_yields {b : Nat} (h : Stuck v) (hb : b < noBlock) (forWrite : Bool) :
    Yields (cacheRawBlock b forWrite) v (fun _ _ => False) fun _ _ => True := by
  unfold cacheRawBlock
  simp only [yields_bind, yields_get, yields_ite]
  refine ⟨fun _ => h.cacheFlush_yields.mono (fun _ _ hf => hf.elim) fun _ _ _ => trivial,
    fun he => ?_⟩
  have := h.2.1
  omega

/-- The cache stays stuck whatever is done, and it cannot be written. -/
theorem Stuck.perform_yields (h : Stuck v) (hf : vol.Fits v.sdCard.size)
    (ho : Proper vol v.sdCard.size o) :
    Yields (perform vol o) v
      (fun _ w => o ≠ .flush ∧ Stuck w ∧ w.sdCard.size = v.sdCard.size) fun _ _ => True := by
  have hlt := h.2.2
  have hnum := h.2.1
  have htable {c : Nat} (hc : c ≤ vol.clusterCount + 1) : vol.fatBlock c < noBlock := by
    have := (vol.fatBlock_mono hc).trans_lt hf.covers
    have := Nat.le_mul_of_pos_left vol.blocksPerFat hf.fatCount
    have := hf.tables
    have := hf.size
    omega
  cases o with
  | flush =>
    unfold perform
    simp only [yields_bind, yields_pure]
    exact h.cacheFlush_yields.mono (fun _ _ hf => hf.elim) fun _ _ _ => trivial
  | read block offset n unbuffered =>
    unfold perform readPart readData
    simp only [yields_bind, yields_get, yields_ite, yields_pure, yields_throw]
    refine ⟨fun _ => ⟨fun h0 => absurd h0 (by have := ho.2.1; omega), fun _ => ⟨fun _ => trivial,
      fun _ => ?_⟩⟩, fun _ => ?_⟩
    · refine (readBlock_yields v block).mono (fun _ w hw => ?_) fun _ _ _ => trivial
      obtain ⟨-, l, rfl, -⟩ := hw
      exact ⟨by simp, h, rfl⟩
    · have hb : block < noBlock := by
        have := ho.1.2
        omega
      exact (h.cacheRawBlock_yields hb false).mono (fun _ _ hf => hf.elim) fun _ _ _ => trivial
  | write block offset data fresh =>
    have hb : block < noBlock := by
      have := ho.1.2
      omega
    unfold perform writePart cacheSetDirty
    simp only [yields_bind, yields_ite, yields_pure, yields_modify]
    refine ⟨fun _ => ?_, fun _ => ⟨fun _ => ?_, fun _ => ?_⟩⟩
    · rw [if_neg (by omega)]
      refine (writeBlock_yields v block _).mono (fun _ w hw => ?_) fun _ _ _ => trivial
      obtain ⟨-, l, rfl, -⟩ := hw
      exact ⟨by simp, h, rfl⟩
    · exact h.cacheFlush_yields.mono (fun _ _ hf => hf.elim) fun _ _ _ => trivial
    · exact (h.cacheRawBlock_yields hb true).mono (fun _ _ hf => hf.elim) fun _ _ _ => trivial
  | zero block =>
    unfold perform cacheZeroBlock cacheSetDirty
    simp only [yields_bind, yields_pure, yields_modify]
    exact h.cacheFlush_yields.mono (fun _ _ hf => hf.elim) fun _ _ _ => trivial
  | get cluster =>
    have hb := htable ho
    unfold perform fatGet
    simp only [yields_bind, yields_get, yields_ite, yields_pure, yields_throw]
    refine ⟨fun _ => trivial, fun _ => ⟨fun _ => ?_, fun he => by omega⟩⟩
    exact (h.cacheRawBlock_yields hb false).mono (fun _ _ hf => hf.elim) fun _ _ _ => trivial
  | put cluster value =>
    have hb := htable ho.2
    unfold perform fatPut
    simp only [yields_bind, yields_get, yields_ite, yields_pure, yields_throw]
    refine ⟨fun _ => trivial, fun _ => ⟨fun _ => trivial, fun _ => ⟨fun _ => ?_, fun he => by omega⟩⟩⟩
    exact (h.cacheRawBlock_yields hb false).mono (fun _ _ hf => hf.elim) fun _ _ _ => trivial

theorem perform_overwrites (h : Overwrites v o) (hs : v.sdCard.size ≤ noBlock) :
    Yields (perform vol o) v (fun _ w => Stuck w ∧ w.sdCard.size = v.sdCard.size)
      fun _ _ => True := by
  cases o with
  | write block offset data fresh =>
    obtain ⟨hfull, hd, he⟩ := h
    unfold perform writePart
    simp only [yields_bind, yields_ite, yields_pure, yields_modify]
    refine ⟨fun _ => ?_, fun hno => absurd hfull hno⟩
    rw [if_pos he]
    refine (writeBlock_yields _ block _).mono (fun _ w hw => ?_) fun _ _ _ => trivial
    obtain ⟨-, l, rfl, -⟩ := hw
    exact ⟨⟨hd, rfl, hs⟩, rfl⟩
  | flush => exact h.elim
  | read => exact h.elim
  | zero => exact h.elim
  | get => exact h.elim
  | put => exact h.elim

def Succeeds (r : Except Stop Answer) : Prop := ∃ a, r = .ok a

theorem perform_of_step {r : Except Stop Answer} {w : State}
    (h : step vol v o = some (r, w)) (hr : Succeeds r) : ∃ a, perform vol o v = .ok a w := by
  obtain ⟨a, rfl⟩ := hr
  unfold step outcome at h
  cases hp : perform vol o v with
  | ok b t =>
    simp only [hp, Option.some.injEq, Prod.mk.injEq, Except.ok.injEq] at h
    exact ⟨b, by rw [h.2]⟩
  | error e t => simp [hp] at h

theorem Stuck.not_keeps (hf : vol.Fits v.sdCard.size) (h : Stuck v) {ops : List Operation}
    (hops : ∀ o ∈ ops, Proper vol v.sdCard.size o) :
    ¬ Keeps (step vol) (fun _ _ r _ => Succeeds r) (ops ++ [.flush]) v := by
  induction ops generalizing v with
  | nil =>
    intro hk
    obtain ⟨r, t, hstep, hr, -⟩ := keeps_cons.mp hk
    obtain ⟨a, hp⟩ := perform_of_step hstep hr
    exact ((h.perform_yields hf (o := .flush) trivial).of_ok hp).1 rfl
  | cons o ops ih =>
    obtain ⟨ho, hops⟩ := List.forall_mem_cons.mp hops
    intro hk
    obtain ⟨r, t, hstep, hr, hk⟩ := keeps_cons.mp hk
    obtain ⟨a, hp⟩ := perform_of_step hstep hr
    obtain ⟨-, hstuck, hsize⟩ := (h.perform_yields hf ho).of_ok hp
    exact ih (hsize ▸ hf) hstuck (fun o ho => hsize ▸ hops o ho) hk

/-- On a card that never fails, a run comes through to a flush at its end if and only if it
writes no whole block past the cache while the cache has it to write. -/
theorem run_flushes_iff (hl : Laid vol D) (h : Holds D v) (hr : D.reliable)
    {ops : List Operation} (hops : ∀ o ∈ ops, Proper vol v.sdCard.size o) :
    Keeps (step vol) (fun _ _ r _ => Succeeds r) (ops ++ [.flush]) v ↔
      While (step vol) (fun s o => ¬ Overwrites s o) (ops ++ [.flush]) v := by
  have hproper : ∀ o ∈ ops, Proper vol D.size o := h.size ▸ hops
  clear hops
  induction ops generalizing D v with
  | nil =>
    refine ⟨fun _ => ⟨id, by cases step vol v .flush <;> trivial⟩, fun _ => ?_⟩
    obtain ⟨a, t, hp, hw⟩ := (perform_yields hl h (o := .flush) trivial).total fun e w hw => hw.2.2 hr
    exact keeps_cons.mpr ⟨.ok a, t, by simp only [step, outcome, hp], ⟨a, rfl⟩, trivial⟩
  | cons o ops ih =>
    obtain ⟨ho, hops⟩ := List.forall_mem_cons.mp hproper
    obtain ⟨a, t, hp, -, D', hsize, hl', h', hr'⟩ :=
      (perform_yields hl h ho).total fun e w hw => hw.2.2 hr
    have hstep : step vol v o = some (.ok a, t) := by simp only [step, outcome, hp]
    have hopt : ∀ o ∈ ops, Proper vol D'.size o := fun o ho => hsize ▸ hops o ho
    constructor
    · intro hk
      obtain ⟨r, t', hstep', -, hk⟩ := keeps_cons.mp hk
      obtain ⟨rfl, rfl⟩ : .ok a = r ∧ t = t' := by simpa using hstep.symm.trans hstep'
      have hno : ¬ Overwrites v o := by
        intro hover
        have hle : v.sdCard.size ≤ noBlock := h.size ▸ D.size_le
        obtain ⟨hstuck, hs⟩ := (perform_overwrites hover hle).of_ok hp
        have hfits : vol.Fits t.sdCard.size := by
          rw [h'.size]
          exact hl'.toFits
        exact hstuck.not_keeps hfits (h'.size ▸ hopt) hk
      refine ⟨hno, ?_⟩
      simp only [List.append_eq, hstep]
      exact (ih hl' h' (hr' hr hno) hopt).mp hk
    · rintro ⟨hno, hw⟩
      simp only [List.append_eq, hstep] at hw
      exact keeps_cons.mpr ⟨.ok a, t, hstep, ⟨a, rfl⟩, (ih hl' h' (hr' hr hno) hopt).mpr hw⟩

theorem run_flushes_iff_smallVolume :
    Keeps (step smallVolume) (fun _ _ r _ => Succeeds r)
      ([.write 4 0 [1, 2] true, .put 2 3, .read 4 0 2 false] ++ [.flush])
      { sdCard := blankCard [] } :=
  (run_flushes_iff (blank_laid []) (blank_holds []) rfl
    (by simp [Proper, SdVolume.Behind, smallVolume, blankCard])).mpr (by decide +kernel)

/-- The second write is of the block in the cache, which is not written yet. -/
example : ¬ While (step smallVolume) (fun s o => ¬ Overwrites s o)
    [.write 4 0 [1, 2] true, .write 4 0 (List.replicate 512 7) false, .flush]
    { sdCard := blankCard [] } := by
  decide +kernel

end RasPiArduino.Sd
