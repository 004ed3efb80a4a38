import RasPiArduino.Machine
import RasPiArduino.SdClusters

/-! Files that share the clusters of a volume: whatever is allocated and freed, in any order, and
whatever becomes of the accesses to the card, each file keeps its own chain. -/
namespace RasPiArduino.Sd
open LittleEndian Outcome LinkedList Machine

/-- A volume with the clusters of each file, by its number. A file of which the release has failed
is lost: it has its first cluster still, but no chain. -/
structure Shared where
  state : State
  files : Nat → List Nat
  lost : List Nat

/-- The clusters of the files that are not lost. -/
def Shared.kept (s : Shared) (j : Nat) : List Nat := if j ∈ s.lost then [] else s.files j

/-- What the files ask of the table: `count` more clusters in a row, or to free all. -/
inductive Request where
  | grow (file count : Nat)
  | release (file : Nat)

def Request.file : Request → Nat
  | .grow j _ => j
  | .release j => j

/-- A file that grows passes its last cluster, or zero; one that is freed passes its first. -/
def serve (vol : SdVolume) (s : Shared) : Request → Option (Except Stop Nat × Shared)
  | .grow j count =>
    match allocContiguous vol count ((s.files j).getLast?.getD 0) s.state with
    | .ok b v =>
      some (.ok b, { s with
        state := v, files := Function.update s.files j (s.files j ++ List.range' b count) })
    | .error e v => some (.error e, { s with state := v })
  | .release j =>
    match s.files j with
    | [] => some (.ok 0, s)
    | c :: _ =>
      match freeChain vol c s.state with
      | .ok _ v => some (.ok c, { s with state := v, files := Function.update s.files j [] })
      | .error e v => some (.error e, { s with state := v, lost := j :: s.lost })

/-- The clusters of the files are chains in the table, and no cluster is in two of them. -/
structure Owned (vol : SdVolume) (D : Disk) (files : Nat → List Nat) : Prop where
  chain : ∀ j, ClusterChain vol D (files j).head? (files j)
  disjoint : ∀ i j, i ≠ j → (files i).Disjoint (files j)

/-- The clusters that are not free are those of the files. -/
def Exact (vol : SdVolume) (D : Disk) (files : Nat → List Nat) : Prop :=
  ∀ c, vol.Cluster c → vol.entry D c ≠ 0 → ∃ j, c ∈ files j

def Request.Sane : Request → Prop
  | .grow _ count => 0 < count
  | .release _ => True

instance : DecidablePred Request.Sane
  | .grow _ count => inferInstanceAs (Decidable (0 < count))
  | .release _ => inferInstanceAs (Decidable True)

/-- A file that is lost is not used again. -/
def Asked (s : Shared) (q : Request) : Prop := q.Sane ∧ q.file ∉ s.lost

instance (s : Shared) : DecidablePred (Asked s) := fun _ => inferInstanceAs (Decidable (_ ∧ _))

variable {vol : SdVolume} {D D' : Disk} {v : State} {b c n value count j : Nat} {p : Option Nat}
  {cs ds : List Nat} {S : Nat → Prop} {never : Prop} {files : Nat → List Nat}

theorem ClusterChain.extend (hc : ClusterChain vol D p (cs ++ [c]))
    (hre : Retabled vol (fun x => x ∈ ds ∨ x = c) D D')
    (hfree : ∀ x ∈ ds, vol.Cluster x ∧ vol.entry D x = 0)
    (hnew : ClusterChain vol D' (some b) ds) (hlink : vol.nodes D' c = some ⟨(), some b⟩) :
    ClusterChain vol D' p (cs ++ [c] ++ ds) where
  chain := by
    have hnot := (List.nodup_append.mp hc.nodup).2.2
    have hsegment := hc.chain
    rw [List.map_append] at hsegment
    obtain ⟨q, hcs, rfl, -⟩ := segment_append.mp hsegment
    rw [List.append_assoc, List.map_append]
    refine segment_append.mpr ⟨some c, hcs.congr fun a ha => ?_, ?_⟩
    · have ha : a ∈ cs := by simpa [addresses] using ha
      have hmem : a ∈ cs ++ [c] := List.mem_append_left _ ha
      refine hre.nodes (hc.clusters a hmem) ?_
      rintro (hd | rfl)
      · exact hc.entry_ne_zero hmem (hfree a hd).2
      · exact hnot a ha a (by simp) rfl
    · exact ⟨rfl, some b, hlink, hnew.chain⟩
  clusters := by
    intro x hx
    obtain hx | hx := List.mem_append.mp hx
    · exact hc.clusters x hx
    · exact (hfree x hx).1

theorem mem_of_getLast?_getD (h : cs.getLast?.getD 0 ≠ 0) : cs.getLast?.getD 0 ∈ cs := by
  cases hlast : cs.getLast? with
  | none => simp [hlast] at h
  | some x => exact List.mem_of_getLast? hlast

theorem ClusterChain.grown (hc : ClusterChain vol D cs.head? cs)
    (hre : Retabled vol (fun c => c ∈ ds ∨ c = cs.getLast?.getD 0) D D')
    (hfree : ∀ c ∈ ds, vol.Cluster c ∧ vol.entry D c = 0)
    (hnew : ClusterChain vol D' (some b) ds)
    (hlink : cs.getLast?.getD 0 ≠ 0 → vol.nodes D' (cs.getLast?.getD 0) = some ⟨(), some b⟩) :
    ClusterChain vol D' (cs ++ ds).head? (cs ++ ds) := by
  obtain rfl | ⟨cs, x, rfl⟩ := List.eq_nil_or_concat cs
  · cases ds with
    | nil => exact absurd (clusterChain_nil.mp hnew) (by simp)
    | cons d ds =>
      obtain rfl : b = d := Option.some.inj (clusterChain_cons.mp hnew).1
      simpa using hnew
  · rw [List.concat_eq_append] at hc hre hlink ⊢
    have hlast : (cs ++ [x]).getLast?.getD 0 = x := by simp
    rw [hlast] at hre hlink
    have hxc := (hc.clusters x (by simp)).1
    rw [List.head?_append_of_ne_nil _ (by simp)]
    exact hc.extend hre hfree hnew (hlink (by omega))

/-- One file has other clusters, which are its own or were free, and the rest of the table is as
before. -/
theorem Owned.update (ho : Owned vol D files) (hre : Retabled vol S D D')
    (hS : ∀ c, S c → c ∈ files j ∨ vol.entry D c = 0 ∨ ¬ vol.Cluster c)
    (hds : ∀ c ∈ ds, c ∈ files j ∨ vol.entry D c = 0)
    (hchain : ClusterChain vol D' ds.head? ds) : Owned vol D' (Function.update files j ds) where
  chain := by
    intro i
    by_cases hi : i = j
    · subst hi
      rwa [Function.update_self]
    · rw [Function.update_of_ne hi]
      refine (ho.chain i).retabled hre fun c hc hs => ?_
      obtain hmem | h0 | hno := hS c hs
      · exact ho.disjoint i j hi hc hmem
      · exact (ho.chain i).entry_ne_zero hc h0
      · exact hno ((ho.chain i).clusters c hc)
  disjoint := by
    have hapart : ∀ i, i ≠ j → (files i).Disjoint ds := by
      intro i hi c hc hd
      obtain hmem | h0 := hds c hd
      · exact ho.disjoint i j hi hc hmem
      · exact (ho.chain i).entry_ne_zero hc h0
    intro i k hik
    by_cases hi : i = j
    · subst hi
      rw [Function.update_self, Function.update_of_ne (Ne.symm hik)]
      exact (hapart k (Ne.symm hik)).symm
    · rw [Function.update_of_ne hi]
      by_cases hk : k = j
      · subst hk
        rw [Function.update_self]
        exact hapart i hi
      · rw [Function.update_of_ne hk]
        exact ho.disjoint i k hik

/-- The table of the volume has the chains of the files, and if no access fails from now on,
which `never` says, no other cluster is in use. -/
def Represents (vol : SdVolume) (never : Prop) (v : State) (files : Nat → List Nat) : Prop :=
  ∃ D, Laid vol D ∧ Holds D v ∧ Owned vol D files ∧ (never → D.reliable) ∧
    (D.reliable → Exact vol D files)

/-- What one more piece of a file does, if there is room for it and if there is not. -/
theorem grow_yields (hl : Laid vol D) (h : Holds D v) (ho : Owned vol D files)
    (hnever : never → D.reliable) (hex : D.reliable → Exact vol D files)
    (hcount : 0 < count) (j : Nat) :
    Yields (allocContiguous vol count ((files j).getLast?.getD 0)) v
      (fun b w => Represents vol never w (Function.update files j (files j ++ List.range' b count)) ∧
        ∀ c ∈ List.range' b count, vol.Cluster c ∧ vol.entry D c = 0)
      (fun _ w => Represents vol never w files ∧
        (D.reliable → count = 1 → ∀ c, vol.Cluster c → vol.entry D c ≠ 0)) := by
  have hcur (hne : (files j).getLast?.getD 0 ≠ 0) :
      vol.Cluster ((files j).getLast?.getD 0) ∧ vol.entry D ((files j).getLast?.getD 0) ≠ 0 :=
    ⟨(ho.chain j).clusters _ (mem_of_getLast?_getD hne),
      (ho.chain j).entry_ne_zero (mem_of_getLast?_getD hne)⟩
  refine (allocContiguous_yields h hl hcount hcur).mono (fun b w hw => ?_) fun _ w hw => ?_
  · obtain ⟨D', hw, hre, hfree, hnew, hlink⟩ := hw
    refine ⟨⟨D', hre.laid, hw, ?_, fun hn => hre.reliable.mpr (hnever hn),
      fun hr c hc hne => ?_⟩, hfree⟩
    · refine ho.update hre (fun c hc => ?_) (fun c hc => ?_) ((ho.chain j).grown hre hfree hnew hlink)
      · obtain hc | rfl := hc
        · exact Or.inr (Or.inl (hfree c hc).2)
        · by_cases hzero : (files j).getLast?.getD 0 = 0
          · refine Or.inr (Or.inr fun hcluster => ?_)
            have := hcluster.1
            omega
          · exact Or.inl (mem_of_getLast?_getD hzero)
      · exact (List.mem_append.mp hc).imp_right fun hc => (hfree c hc).2
    · by_cases hmem : c ∈ files j ++ List.range' b count
      · exact ⟨j, by rwa [Function.update_self]⟩
      · have hkept : vol.entry D' c = vol.entry D c := by
          refine hre.entry c hc.2 ?_
          rintro (hnew | rfl)
          · exact hmem (List.mem_append_right _ hnew)
          · refine hmem (List.mem_append_left _ (mem_of_getLast?_getD fun h0 => ?_))
            have := hc.1
            omega
        obtain ⟨i, hi⟩ := hex (hre.reliable.mp hr) c hc (hkept ▸ hne)
        have hij : i ≠ j := by
          rintro rfl
          exact hmem (List.mem_append_left _ hi)
        exact ⟨i, by rwa [Function.update_of_ne hij]⟩
  · obtain ⟨D', hw, hre, hrel⟩ := hw
    refine ⟨⟨D', hre.laid, hw, ⟨fun i => (ho.chain i).retabled hre fun c hc h0 =>
      (ho.chain i).entry_ne_zero hc h0, ho.disjoint⟩, fun hn => hre.reliable.mpr (hnever hn),
      fun hr => ?_⟩, fun hr => (hrel hr).2⟩
    have hr' := hre.reliable.mp hr
    exact (hrel hr').1 ▸ hex hr'

theorem Owned.released (ho : Owned vol D files) (hnever : never → D.reliable)
    (hex : D.reliable → Exact vol D files) (hw : Holds D' v)
    (hre : Retabled vol (· ∈ files j) D D')
    (hfree : D.reliable → ∀ x ∈ files j, vol.entry D' x = 0) :
    Represents vol never v (Function.update files j []) := by
  refine ⟨D', hre.laid, hw, ho.update hre (fun c hc => Or.inl hc)
    (fun c hc => absurd hc List.not_mem_nil) (clusterChain_nil.mpr rfl),
    fun hn => hre.reliable.mpr (hnever hn), fun hr c hc hne => ?_⟩
  have hr' := hre.reliable.mp hr
  have hmem : c ∉ files j := fun hmem => hne (hfree hr' c hmem)
  obtain ⟨i, hi⟩ := hex hr' c hc (hre.entry c hc.2 hmem ▸ hne)
  have hij : i ≠ j := by
    rintro rfl
    exact hmem hi
  exact ⟨i, by rwa [Function.update_of_ne hij]⟩

theorem release_yields (hl : Laid vol D) (h : Holds D v) (ho : Owned vol D files)
    (hnever : never → D.reliable) (hex : D.reliable → Exact vol D files) (hj : files j = c :: cs) :
    Yields (freeChain vol c) v
      (fun _ w => Represents vol never w (Function.update files j []))
      (fun _ w => Represents vol never w (Function.update files j []) ∧ ¬ D.reliable) := by
  have hc := ho.chain j
  rw [hj, List.head?_cons] at hc
  refine (freeChain_yields hl h hc).mono (fun _ w hw => ?_) fun _ w hw => ?_
  · obtain ⟨D', hw, hre, hfree⟩ := hw
    rw [← hj] at hre hfree
    exact ho.released hnever hex hw hre fun _ => hfree
  · obtain ⟨D', hw, hre, hrel⟩ := hw
    rw [← hj] at hre
    exact ⟨ho.released hnever hex hw hre fun hr => absurd hr hrel, hrel⟩

theorem serve_total (vol : SdVolume) (s : Shared) (q : Request) : ∃ a, serve vol s q = some a := by
  unfold serve
  cases q with
  | grow j count =>
    dsimp only
    split <;> exact ⟨_, rfl⟩
  | release j =>
    dsimp only
    split
    · exact ⟨_, rfl⟩
    · split <;> exact ⟨_, rfl⟩

theorem Shared.kept_of_not_mem {s : Shared} (hj : j ∉ s.lost) : s.kept j = s.files j := by
  rw [Shared.kept, if_neg hj]

theorem Shared.kept_update {s : Shared} (hj : j ∉ s.lost) (v : State) (ds : List Nat) :
    Shared.kept { s with state := v, files := Function.update s.files j ds } =
      Function.update s.kept j ds := by
  funext i
  by_cases hi : i = j
  · subst hi
    simp only [Shared.kept, if_neg hj, Function.update_self]
  · simp only [Shared.kept, Function.update_of_ne hi]

theorem Shared.kept_lost (s : Shared) (v : State) (j : Nat) :
    Shared.kept { s with state := v, lost := j :: s.lost } = Function.update s.kept j [] := by
  funext i
  by_cases hi : i = j
  · subst hi
    simp only [Shared.kept, List.mem_cons_self, if_true, Function.update_self]
  · simp only [Shared.kept, List.mem_cons, hi, false_or, Function.update_of_ne hi]

/-- The files that are not lost have their chains, and on a card that does not fail none is lost. -/
theorem serve_represents {s t : Shared} {q : Request} {r : Except Stop Nat} (hq : Asked s q)
    (h : Represents vol never s.state s.kept) (hs : serve vol s q = some (r, t)) :
    Represents vol never t.state t.kept ∧ (never → t.lost = s.lost) := by
  have hrep := h
  obtain ⟨hsane, hlost⟩ := hq
  obtain ⟨D, hl, h, ho, hnever, hex⟩ := h
  cases q with
  | grow j count =>
    have hlost : j ∉ s.lost := hlost
    have hgrow := grow_yields hl h ho hnever hex hsane j
    rw [Shared.kept_of_not_mem hlost] at hgrow
    unfold serve at hs
    cases hm : allocContiguous vol count ((s.files j).getLast?.getD 0) s.state with
    | ok b v =>
      simp only [hm, Option.some.injEq, Prod.mk.injEq] at hs
      obtain ⟨-, rfl⟩ := hs
      rw [Shared.kept_update hlost]
      exact ⟨(hgrow.of_ok hm).1, fun _ => rfl⟩
    | error e v =>
      simp only [hm, Option.some.injEq, Prod.mk.injEq] at hs
      obtain ⟨-, rfl⟩ := hs
      exact ⟨(hgrow.of_error hm).1, fun _ => rfl⟩
  | release j =>
    have hlost : j ∉ s.lost := hlost
    unfold serve at hs
    cases hj : s.files j with
    | nil =>
      simp only [hj, Option.some.injEq, Prod.mk.injEq] at hs
      obtain ⟨-, rfl⟩ := hs
      exact ⟨hrep, fun _ => rfl⟩
    | cons c cs =>
      have hrelease := release_yields hl h ho hnever hex
        ((Shared.kept_of_not_mem hlost).trans hj)
      simp only [hj] at hs
      cases hm : freeChain vol c s.state with
      | ok b v =>
        simp only [hm, Option.some.injEq, Prod.mk.injEq] at hs
        obtain ⟨-, rfl⟩ := hs
        rw [Shared.kept_update hlost]
        exact ⟨hrelease.of_ok hm, fun _ => rfl⟩
      | error e v =>
        simp only [hm, Option.some.injEq, Prod.mk.injEq] at hs
        obtain ⟨-, rfl⟩ := hs
        rw [Shared.kept_lost]
        exact ⟨(hrelease.of_error hm).1, fun hn => absurd (hnever hn) (hrelease.of_error hm).2⟩

/-- Whatever files grow and are freed in a run, and whichever accesses to the card fail in it, at
its end the table has the chains of the files that are not lost, and no cluster belongs to two of
them. -/
theorem run_keeps_chains {s t : Shared} {qs : List Request} {rs : List (Except Stop Nat)}
    (hs : Represents vol never s.state s.kept) (hqs : While (serve vol) Asked qs s)
    (hrun : answers (serve vol) qs s = some (rs, t)) : Represents vol never t.state t.kept :=
  While.invariant (I := fun s => Represents vol never s.state s.kept) (C := Asked)
    (fun _ _ _ _ hs hq ht => (serve_represents hq hs ht).1) hs hqs hrun

theorem blank_represents :
    Represents smallVolume True { sdCard := blankCard [] } fun _ => [] :=
  ⟨_, blank_laid [], blank_holds [], ⟨fun _ => clusterChain_nil.mpr rfl, fun _ _ _ => by simp⟩,
    fun _ => rfl, fun _ _ hc hne => absurd (blank_entry [] hc) hne⟩

theorem run_keeps_chains_smallVolume : ∃ rs t,
    answers (serve smallVolume) [.grow 0 2, .grow 1 1, .release 0, .grow 1 1]
        ⟨{ sdCard := blankCard [] }, fun _ => [], []⟩ = some (rs, t) ∧
      Represents smallVolume True t.state t.kept := by
  obtain ⟨⟨rs, t⟩, h⟩ := answers_total (serve_total smallVolume)
    [.grow 0 2, .grow 1 1, .release 0, .grow 1 1] ⟨{ sdCard := blankCard [] }, fun _ => [], []⟩
  exact ⟨rs, t, h, run_keeps_chains blank_represents (by decide +kernel) h⟩

/-- After any run on a card that never fails, a file can grow by a cluster if and only if there is
one that belongs to no file: none is lost. -/
theorem run_grows_iff {s t : Shared} {qs : List Request} {rs : List (Except Stop Nat)}
    (hs : Represents vol True s.state s.files) (hlost : s.lost = []) (hqs : ∀ q ∈ qs, q.Sane)
    (hrun : answers (serve vol) qs s = some (rs, t)) (j : Nat) :
    (∃ b u, serve vol t (.grow j 1) = some (.ok b, u)) ↔
      ∃ c, vol.Cluster c ∧ ∀ i, c ∉ t.files i := by
  have hkept {s : Shared} (hlost : s.lost = []) : s.kept = s.files :=
    funext fun i => Shared.kept_of_not_mem (by rw [hlost]; exact List.not_mem_nil)
  have ht : Represents vol True t.state t.kept ∧ t.lost = [] :=
    answers_invariant (D := Request.Sane)
      (I := fun s => Represents vol True s.state s.kept ∧ s.lost = [])
      (fun s q r t hq hs ht => by
        have hask : Asked s q := ⟨hq, by rw [hs.2]; exact List.not_mem_nil⟩
        obtain ⟨hrep, hsame⟩ := serve_represents hask hs.1 ht
        exact ⟨hrep, (hsame trivial).trans hs.2⟩) hqs ⟨hkept hlost ▸ hs, hlost⟩ hrun
  obtain ⟨ht, hlost⟩ := ht
  rw [hkept hlost] at ht
  obtain ⟨D, hl, h, ho, hnever, hex⟩ := ht
  have hgrow := grow_yields hl h ho hnever hex Nat.one_pos j
  cases hm : allocContiguous vol 1 ((t.files j).getLast?.getD 0) t.state with
  | ok b v =>
    obtain ⟨hb, h0⟩ := (hgrow.of_ok hm).2 b (by simp)
    exact ⟨fun _ => ⟨b, hb, fun i hi => (ho.chain i).entry_ne_zero hi h0⟩,
      fun _ => ⟨b, _, by unfold serve; simp only [hm]; rfl⟩⟩
  | error e v =>
    have hfull := (hgrow.of_error hm).2 (hnever trivial) rfl
    constructor
    · rintro ⟨b, u, hserve⟩
      simp [serve, hm] at hserve
    · rintro ⟨c, hc, hno⟩
      obtain ⟨i, hi⟩ := hex (hnever trivial) c hc (hfull c hc)
      exact absurd hi (hno i)

theorem run_grows_iff_smallVolume : ∃ rs t,
    answers (serve smallVolume) [.grow 0 2, .grow 1 1, .release 0]
        ⟨{ sdCard := blankCard [] }, fun _ => [], []⟩ = some (rs, t) ∧
      ((∃ b u, serve smallVolume t (.grow 1 1) = some (.ok b, u)) ↔
        ∃ c, smallVolume.Cluster c ∧ ∀ i, c ∉ t.files i) := by
  obtain ⟨⟨rs, t⟩, h⟩ := answers_total (serve_total smallVolume)
    [.grow 0 2, .grow 1 1, .release 0] ⟨{ sdCard := blankCard [] }, fun _ => [], []⟩
  exact ⟨rs, t, h, run_grows_iff blank_represents rfl (by simp [Request.Sane]) h 1⟩

end RasPiArduino.Sd
