import RasPiArduino.SdFileTruncate
import RasPiArduino.SdFileWrite

/-! Files that are open on one volume: each is a list of bytes with a position in it, whatever is
done to the others and whatever becomes of the accesses to the card. -/
namespace RasPiArduino.Sd
open LittleEndian Outcome Machine RasPiArduino.Ring

structure Filing where
  state : State
  files : Nat → SdFile

/-- What is done to a file. With it comes the date and the time, if the user has a callback. -/
inductive Action where
  | read (n : Nat)
  | write (data : List UInt8) (dateTime : Option (Nat × Nat))
  | seek (pos : Nat)
  | truncate (length : Nat) (dateTime : Option (Nat × Nat))
  | sync (dateTime : Option (Nat × Nat))

inductive Reply where
  | bytes (count : Int) (xs : List UInt8)
  | written (count : Nat)
  | done
  deriving DecidableEq

def act (vol : SdVolume) : Action → FileAttempt Reply
  | .read n => do
    let r ← read vol n
    return .bytes r.1 r.2
  | .write data dateTime => do return .written (← write vol data dateTime)
  | .seek pos => do seekSet vol pos; return .done
  | .truncate length dateTime => do truncate vol length dateTime; return .done
  | .sync dateTime => do sync dateTime; return .done

def operate (vol : SdVolume) (s : Filing) (o : Nat × Action) :
    Option (Except Stop Reply × Filing) :=
  let r := outcome (act vol o.2) ⟨s.files o.1, s.state⟩
  some (r.1, ⟨r.2.volume, Function.update s.files o.1 r.2.file⟩)

/-- A file as its user sees it: its bytes, the position in them, and what it is open for. -/
structure Text where
  bytes : List UInt8
  position : Nat
  forRead : Bool
  forWrite : Bool
  append : Bool

def Text.place (T : Text) : Nat := if T.append then T.bytes.length else T.position

/-- What the file answers and what it is then, or `none` if it has to refuse. -/
def Text.answer (T : Text) : Action → Option (Reply × Text)
  | .read n =>
    let xs := (T.bytes.drop T.position).take n
    if T.forRead then
      some (.bytes (int16 xs.length) xs, { T with position := T.position + xs.length })
    else none
  | .write data _ =>
    if T.forWrite then some (.written data.length, { T with
      bytes := overwrite T.bytes T.place data
      position := T.place + data.length })
    else none
  | .seek pos => if pos ≤ T.bytes.length then some (.done, { T with position := pos }) else none
  | .truncate length _ =>
    if T.forWrite ∧ length ≤ T.bytes.length then some (.done, { T with
      bytes := T.bytes.take length
      position := min T.position length })
    else none
  | .sync _ => some (.done, T)

/-- The file stays smaller than 4 GiB. -/
def Text.Fits (T : Text) : Action → Prop
  | .write data _ => T.place + data.length < 2^32
  | _ => True

instance (T : Text) : DecidablePred T.Fits
  | .write _ _ => inferInstanceAs (Decidable (_ < _))
  | .read _ | .seek _ | .truncate _ _ | .sync _ => inferInstanceAs (Decidable True)

def Action.Small : Action → Prop
  | .write data _ => data.length < 512
  | _ => True

instance : DecidablePred Action.Small
  | .write _ _ => inferInstanceAs (Decidable (_ < _))
  | .read _ | .seek _ | .truncate _ _ | .sync _ => inferInstanceAs (Decidable True)

def Action.isWrite : Action → Bool
  | .write _ _ => true
  | _ => false

structure Kept (vol : SdVolume) (D : Disk) (f : SdFile) (cs : List Nat) (T : Text) : Prop where
  stored : Stored vol D f cs T.bytes
  seated : Seated vol D f
  recorded : f.dirDirty = false → Recorded D f
  fileSize : f.fileSize = T.bytes.length
  position : f.curPosition = T.position
  lt : T.bytes.length < 2^32
  forRead : f.forRead = T.forRead
  forWrite : f.forWrite = T.forWrite
  append : f.append = T.append

variable {vol : SdVolume} {D D' : Disk} {v : State} {f g : SdFile} {cs ds : List Nat}
  {xs : List UInt8} {p j : Nat} {C : Prop} {T : Text} {a : Action} {t : Handle}

theorem Kept.renewed (hk : Kept vol D f cs T) (hr : Renewed vol C D cs f xs p t)
    (hlt : xs.length < 2^32) : f.Alike t.file ∧ ∃ D' ds, Holds D' t.volume ∧
      Touched vol C (vol.Own D cs) f.record D D' ∧ (∀ c ∈ ds, vol.Own D cs c) ∧
      Kept vol D' t.file ds { T with bytes := xs, position := p } := by
  obtain ⟨D', ds, hv, ht, hds, hs, hseat, hrec⟩ := hr.stored
  refine ⟨hr.alike, D', ds, hv, ht, hds, hs, hseat, hrec, hr.fileSize, hr.position, hlt, ?_, ?_, ?_⟩
  all_goals rw [show t.file = _ from hr.alike]
  · exact hk.forRead
  · exact hk.forWrite
  · exact hk.append

theorem Kept.noted (hk : Kept vol D f cs T) : Kept vol D { f with writeError := true } cs T :=
  ⟨⟨hk.stored.toContent, hk.stored.type, hk.stored.position, hk.stored.start, hk.stored.cluster⟩,
    hk.seated.alike rfl, fun hd => (hk.recorded hd).alike rfl rfl rfl, hk.fileSize, hk.position, hk.lt,
    hk.forRead, hk.forWrite, hk.append⟩

def Acted (vol : SdVolume) (C : Prop) (D : Disk) (cs : List Nat) (f : SdFile) (T : Text) (a : Action)
    (r : Reply) (t : Handle) : Prop :=
  ∃ T', T.answer a = some (r, T') ∧ f.Alike t.file ∧ ∃ D' ds, Holds D' t.volume ∧
    Touched vol C (vol.Own D cs) f.record D D' ∧ (∀ c ∈ ds, vol.Own D cs c) ∧
    Kept vol D' t.file ds T'

/-- The file fails, and nothing but its own is touched. What it has to refuse changes nothing. -/
def Refused (vol : SdVolume) (C : Prop) (D : Disk) (cs : List Nat) (f : SdFile) (T : Text)
    (a : Action) (t : Handle) : Prop :=
  if (T.answer a).isSome then
    ∃ D', Holds D' t.volume ∧ Touched vol C (vol.Own D cs) f.record D D' ∧
      (D'.reliable → a.isWrite ∧ vol.Full D')
  else Holds D t.volume ∧ f.Alike t.file ∧ Kept vol D t.file cs T

theorem Kept.acted (hk : Kept vol D f cs T) (hr : Renewed vol C D cs f xs p t)
    (hlt : xs.length < 2^32) {r : Reply}
    (ha : T.answer a = some (r, { T with bytes := xs, position := p })) :
    Acted vol C D cs f T a r t := by
  obtain ⟨halike, hafter⟩ := hk.renewed hr hlt
  exact ⟨_, ha, halike, hafter⟩

theorem Refused.of_faulted (ha : (T.answer a).isSome) (ht : Faulted vol C D cs f t.volume) :
    Refused vol C D cs f T a t := by
  obtain ⟨D', hv, ht, hrel⟩ := ht
  rw [Refused, if_pos ha]
  exact ⟨D', hv, ht, fun hr => absurd hr hrel⟩

theorem Refused.of_unreliable (hl : Laid vol D) (ha : (T.answer a).isSome) (hv : Holds D t.volume)
    (hrel : ¬ D.reliable) : Refused vol C D cs f T a t := by
  rw [Refused, if_pos ha]
  exact ⟨D, hv, hl.touched, fun hr => absurd hr hrel⟩

theorem Refused.of_none (ha : T.answer a = none) (hv : Holds D t.volume) (hg : t.file = g)
    (hf : f.Alike g) (hk : Kept vol D g cs T) : Refused vol C D cs f T a t := by
  rw [Refused, if_neg (by simp [ha]), hg]
  exact ⟨hv, hf, hk⟩

theorem Kept.moved (hl : Laid vol D) (hk : Kept vol D f cs T) (ht : Holds D t.volume)
    (hst : Stored vol D t.file cs T.bytes)
    (hfile : ∃ c, t.file = { f with curCluster := c, curPosition := p }) :
    Renewed vol C D cs f T.bytes p t :=
  hst.renewed hl ht hfile hk.seated hk.fileSize hk.recorded

section
variable (hl : Laid vol D) (hD : Holds D v) (hk : Kept vol D f cs T)
include hl hD hk

theorem act_read (n : Nat) : Yields (act vol (.read n)) ⟨f, v⟩
    (Acted vol C D cs f T (.read n)) fun _ => Refused vol C D cs f T (.read n) := by
  unfold act
  simp only [yields_bind, yields_pure]
  refine (read_yields (h := ⟨f, v⟩) hl hD hk.stored hk.fileSize hk.lt n).mono
    (fun r t ht => ?_) fun _ t ht => ?_
  · obtain ⟨hfor, hxs, hcount, ht, hst, hfile⟩ := ht
    refine hk.acted (hk.moved hl ht hst hfile) hk.lt ?_
    rw [hcount, hxs, hk.position]
    exact if_pos (hk.forRead ▸ hfor)
  · obtain ⟨ht, hrel⟩ := ht
    by_cases hfor : T.forRead
    · rw [if_pos (hk.forRead ▸ hfor)] at hrel
      exact Refused.of_unreliable hl (by simp [Text.answer, hfor]) ht hrel
    · rw [if_neg (hk.forRead ▸ hfor)] at hrel
      exact Refused.of_none (by simp [Text.answer, hfor]) ht hrel rfl hk

theorem act_write (hfree : ∀ c, vol.Own D cs c → ¬ vol.InCluster c f.dirBlock) {data : List UInt8}
    {dateTime : Option (Nat × Nat)} (hfits : T.Fits (.write data dateTime))
    (hsmall : C → (Action.write data dateTime).Small) :
    Yields (act vol (.write data dateTime)) ⟨f, v⟩ (Acted vol C D cs f T (.write data dateTime))
      fun _ => Refused vol C D cs f T (.write data dateTime) := by
  have hplace : f.place = T.place := by
    rw [SdFile.place, Text.place, hk.append, hk.fileSize, hk.position]
  have hlength : (overwrite T.bytes f.place data).length =
      max T.bytes.length (f.place + data.length) :=
    length_overwrite_of_le (hk.stored.place_le hk.fileSize)
  have hfit : f.place + data.length < 2^32 := hplace ▸ hfits
  unfold act
  simp only [yields_bind, yields_pure]
  refine (write_yields (h := ⟨f, v⟩) hl hD hk.stored hk.seated hfree hk.fileSize hk.lt hk.recorded
    hfit hsmall).mono (fun r t ht => ?_) fun _ t ht => ?_
  · obtain ⟨hfor, rfl, hr⟩ := ht
    have hlt : (overwrite T.bytes f.place data).length < 2^32 := by
      have := hk.lt
      omega
    rw [hplace] at hr hlt
    exact hk.acted hr hlt (if_pos (hk.forWrite ▸ hfor))
  · by_cases hfor : T.forWrite
    · rw [if_pos (hk.forWrite ▸ hfor)] at ht
      obtain ⟨D', hv, ht, hfull⟩ := ht
      rw [Refused, if_pos (by simp [Text.answer, hfor])]
      exact ⟨D', hv, ht, fun hr => ⟨rfl, hfull hr⟩⟩
    · rw [if_neg (hk.forWrite ▸ hfor)] at ht
      exact Refused.of_none (by simp [Text.answer, hfor]) ht.1 ht.2 rfl hk.noted

theorem act_seek (pos : Nat) : Yields (act vol (.seek pos)) ⟨f, v⟩
    (Acted vol C D cs f T (.seek pos)) fun _ => Refused vol C D cs f T (.seek pos) := by
  unfold act
  simp only [yields_bind, yields_pure]
  refine (seekSet_yields (h := ⟨f, v⟩) hl hD hk.stored hk.fileSize pos).mono
    (fun _ t ht => ?_) fun _ t ht => ?_
  · obtain ⟨hle, ht, hst, hfile⟩ := ht
    exact hk.acted (hk.moved hl ht hst hfile) hk.lt (if_pos hle)
  · obtain ⟨ht, hrel⟩ := ht
    by_cases hle : pos ≤ T.bytes.length
    · rw [if_pos hle] at hrel
      exact Refused.of_unreliable hl (by simp [Text.answer, hle]) ht hrel
    · rw [if_neg hle] at hrel
      exact Refused.of_none (by simp [Text.answer, hle]) ht hrel rfl hk

theorem act_truncate (hfree : ∀ c, vol.Own D cs c → ¬ vol.InCluster c f.dirBlock) (length : Nat)
    (dateTime : Option (Nat × Nat)) : Yields (act vol (.truncate length dateTime)) ⟨f, v⟩
      (Acted vol C D cs f T (.truncate length dateTime))
      fun _ => Refused vol C D cs f T (.truncate length dateTime) := by
  unfold act
  simp only [yields_bind, yields_pure]
  refine (truncate_yields (h := ⟨f, v⟩) (C := C) hl hD hk.stored hk.seated hfree hk.fileSize hk.lt
    hk.recorded length).mono (fun _ t ht => ?_) fun _ t ht => ?_
  · obtain ⟨hfor, hle, hr⟩ := ht
    have hlt := hk.lt
    rw [hk.position] at hr
    exact hk.acted hr (by simp only [List.length_take]; omega) (if_pos ⟨hk.forWrite ▸ hfor, hle⟩)
  · by_cases hok : T.forWrite ∧ length ≤ T.bytes.length
    · rw [if_pos ⟨hk.forWrite ▸ hok.1, hok.2⟩] at ht
      exact Refused.of_faulted (by simp [Text.answer, hok]) ht
    · rw [if_neg (hk.forWrite ▸ hok)] at ht
      exact Refused.of_none (if_neg hok) ht.1 ht.2 rfl hk

theorem act_sync (hfree : ∀ c, vol.Own D cs c → ¬ vol.InCluster c f.dirBlock)
    (dateTime : Option (Nat × Nat)) : Yields (act vol (.sync dateTime)) ⟨f, v⟩
      (Acted vol C D cs f T (.sync dateTime)) fun _ => Refused vol C D cs f T (.sync dateTime) := by
  have hr : Renewed vol C D cs f T.bytes f.curPosition ⟨f, v⟩ :=
    hk.moved hl hD hk.stored ⟨_, rfl⟩
  unfold act
  simp only [yields_bind, yields_pure]
  refine (hr.synced hfree hk.lt).mono (fun _ t ht => ?_) fun _ t ht => Refused.of_faulted rfl ht
  obtain ⟨hr, -⟩ := ht
  rw [hk.position] at hr
  exact hk.acted hr hk.lt rfl

theorem act_yields (hfree : ∀ c, vol.Own D cs c → ¬ vol.InCluster c f.dirBlock) (hfits : T.Fits a)
    (hsmall : C → a.Small) :
    Yields (act vol a) ⟨f, v⟩ (Acted vol C D cs f T a) fun _ => Refused vol C D cs f T a := by
  cases a with
  | read n => exact act_read hl hD hk n
  | write data dateTime => exact act_write hl hD hk hfree hfits hsmall
  | seek pos => exact act_seek hl hD hk pos
  | truncate length dateTime => exact act_truncate hl hD hk hfree length dateTime
  | sync dateTime => exact act_sync hl hD hk hfree dateTime

end

/-- The files whose texts are known are these texts. No cluster is in two of them, and where one
may write there is no directory entry of another. -/
structure Filed (vol : SdVolume) (D : Disk) (files : Nat → SdFile) (clusters : Nat → List Nat)
    (texts : Nat → Option Text) : Prop where
  kept : ∀ j T, texts j = some T → Kept vol D (files j) (clusters j) T
  disjoint : ∀ i j, i ≠ j → (texts i).isSome → (texts j).isSome →
    (clusters i).Disjoint (clusters j)
  slots : ∀ i j, i ≠ j → (texts i).isSome → (texts j).isSome →
    ∀ b k, (files i).slot b k → ¬ (files j).slot b k
  free : ∀ i j, (texts i).isSome → (texts j).isSome →
    ∀ c, vol.Own D (clusters i) c → ¬ vol.InCluster c (files j).dirBlock

variable {files : Nat → SdFile} {clusters : Nat → List Nat} {texts : Nat → Option Text}
  {text : Option Text}

theorem Filed.other (hf : Filed vol D files clusters texts) {i : Nat} (hij : i ≠ j)
    (hj : (texts j).isSome) (hi : texts i = some T)
    (ht : Touched vol C (vol.Own D (clusters j)) (files j).record D D') :
    Kept vol D' (files i) (clusters i) T := by
  have hk := hf.kept i T hi
  have hisome : (texts i).isSome := by rw [hi]; rfl
  have hS := hf.free j i hj hisome
  have hE : ∀ b k, (files i).slot b k → ¬ (files j).record b k :=
    fun b k hi hr => hf.slots i j hij hisome hj b k hi hr.1
  refine ⟨⟨hk.stored.toContent.touched ht (fun c hc => ⟨hc.1, fun hmem => ?_⟩)
      fun c hc b hb k hslot => ?_, hk.stored.type, hk.stored.position, hk.stored.start,
      hk.stored.cluster⟩, hk.seated.touched ht hS hE,
    fun hd => (hk.recorded hd).touched hk.seated ht hS hE, hk.fileSize, hk.position, hk.lt,
    hk.forRead, hk.forWrite, hk.append⟩
  · obtain hother | h0 := hc.2
    · exact hf.disjoint i j hij hisome hj hmem hother
    · exact hk.stored.chain.entry_ne_zero hmem h0
  · exact hf.free i j hisome hj c (hk.stored.chain.own c hc) (hslot.1.1 ▸ hb)

theorem Filed.own (hj : Touched vol C (vol.Own D (clusters j)) (files j).record D D')
    (hds : ∀ c ∈ ds, vol.Own D (clusters j) c) {i c : Nat}
    (hc : vol.Own D' (Function.update clusters j ds i) c) :
    vol.Own D (clusters i) c ∨ vol.Own D (clusters j) c := by
  by_cases hij : i = j
  · subst hij
    rw [Function.update_self] at hc
    exact Or.inr (hj.own hds hc)
  · rw [Function.update_of_ne hij] at hc
    by_cases hown : vol.Own D (clusters j) c
    · exact Or.inr hown
    · exact Or.inl ⟨hc.1, hc.2.imp_right fun h0 => (hj.entry c hc.1 hown).symm.trans h0⟩

theorem known_place (hj : (texts j).isSome) (halike : ∀ T, text = some T → (files j).Alike g)
    {i : Nat} (hi : (Function.update texts j text i).isSome) : (texts i).isSome ∧
      (Function.update files j g i).dirBlock = (files i).dirBlock ∧
      (Function.update files j g i).dirIndex = (files i).dirIndex := by
  by_cases hij : i = j
  · subst hij
    rw [Function.update_self] at hi ⊢
    obtain ⟨T, hT⟩ := Option.isSome_iff_exists.mp hi
    rw [show g = _ from halike T hT]
    exact ⟨hj, rfl, rfl⟩
  · rw [Function.update_of_ne hij] at hi ⊢
    exact ⟨hi, rfl, rfl⟩

/-- One of the files has touched its own, and is another text now or none. -/
theorem Filed.update (hf : Filed vol D files clusters texts) (hj : (texts j).isSome)
    (ht : Touched vol C (vol.Own D (clusters j)) (files j).record D D')
    (hds : ∀ c ∈ ds, vol.Own D (clusters j) c)
    (hk : ∀ T, text = some T → (files j).Alike g ∧ Kept vol D' g ds T) :
    Filed vol D' (Function.update files j g) (Function.update clusters j ds)
      (Function.update texts j text) := by
  have hknown {i : Nat} (hi : (Function.update texts j text i).isSome) :
      (texts i).isSome ∧ (Function.update files j g i).slot = (files i).slot ∧
        (Function.update files j g i).dirBlock = (files i).dirBlock := by
    obtain ⟨hsome, hblock, hindex⟩ := known_place hj (fun T hT => (hk T hT).1) hi
    exact ⟨hsome, by unfold SdFile.slot; rw [hblock, hindex], hblock⟩
  have hapart {i : Nat} (hij : i ≠ j) (hi : (texts i).isSome) : (clusters i).Disjoint ds := by
    obtain ⟨T, hT⟩ := Option.isSome_iff_exists.mp hi
    intro c hc hd
    obtain ⟨-, hmem | h0⟩ := hds c hd
    · exact hf.disjoint i j hij hi hj hc hmem
    · exact (hf.kept i T hT).stored.chain.entry_ne_zero hc h0
  refine ⟨fun i T hi => ?_, fun i k hik hi hk' => ?_, fun i k hik hi hk' => ?_,
    fun i k hi hk' c hc => ?_⟩
  · by_cases hij : i = j
    · subst hij
      rw [Function.update_self] at hi ⊢
      rw [Function.update_self]
      exact (hk T hi).2
    · rw [Function.update_of_ne hij] at hi ⊢
      rw [Function.update_of_ne hij]
      exact hf.other hij hj hi ht
  · have hiknown := (hknown hi).1
    have hkknown := (hknown hk').1
    by_cases hij : i = j
    · subst hij
      rw [Function.update_self, Function.update_of_ne (Ne.symm hik)]
      exact (hapart (Ne.symm hik) hkknown).symm
    · rw [Function.update_of_ne hij]
      by_cases hkj : k = j
      · subst hkj
        rw [Function.update_self]
        exact hapart hij hiknown
      · rw [Function.update_of_ne hkj]
        exact hf.disjoint i k hik hiknown hkknown
  · rw [(hknown hi).2.1, (hknown hk').2.1]
    exact hf.slots i k hik (hknown hi).1 (hknown hk').1
  · rw [(hknown hk').2.2]
    obtain hown | hown := Filed.own ht hds hc
    · exact hf.free i k (hknown hi).1 (hknown hk').1 c hown
    · exact hf.free j k hj (hknown hk').1 c hown

/-- The files, and of each the text that its user knows: none once an operation on it has
failed. -/
structure Watched where
  filing : Filing
  texts : Nat → Option Text

def known (texts : Nat → Option Text) (o : Nat × Action) (r : Except Stop Reply) :
    Nat → Option Text :=
  match (texts o.1).bind fun T => T.answer o.2, r with
  | some (_, T), .ok _ => Function.update texts o.1 (some T)
  | some _, .error _ => Function.update texts o.1 none
  | none, _ => texts

def observe (vol : SdVolume) (w : Watched) (o : Nat × Action) :
    Option (Except Stop Reply × Watched) :=
  (operate vol w.filing o).map fun (r, t) => (r, ⟨t, known w.texts o r⟩)

/-- No operation on the file has failed, and it stays smaller than 4 GiB. -/
def InUse (w : Watched) (o : Nat × Action) : Prop := ∃ T, w.texts o.1 = some T ∧ T.Fits o.2

instance (w : Watched) (o : Nat × Action) : Decidable (InUse w o) :=
  match h : w.texts o.1 with
  | some T => decidable_of_iff (T.Fits o.2) (by simp [InUse, h])
  | none => isFalse (by simp [InUse, h])

/-- The file answers as its text does, or fails; what the text refuses is refused. -/
def AsText (w : Watched) (o : Nat × Action) (r : Except Stop Reply) : Prop :=
  ∀ T, w.texts o.1 = some T → match T.answer o.2 with
    | some (a, _) => r = .ok a ∨ ∃ e, r = .error e
    | none => ∃ e, r = .error e

/-- The files are the texts that are known of them. If no access fails from now on, which `never`
says, the store is reliable. -/
def Watched.Sound (vol : SdVolume) (never : Prop) (w : Watched) : Prop :=
  ∃ D clusters, Laid vol D ∧ Holds D w.filing.state ∧
    Filed vol D w.filing.files clusters w.texts ∧ (never → D.reliable)

/-- No cluster of the volume is free. -/
def Exhausted (vol : SdVolume) (v : State) : Prop :=
  ∀ c, vol.Cluster c → vol.entryIn (v.contents (vol.fatBlock c)) c ≠ 0

/-- What the file has not to refuse fails only if it is a write and no cluster is free. -/
def Unfailing (vol : SdVolume) (w : Watched) (o : Nat × Action) (r : Except Stop Reply)
    (u : Watched) : Prop :=
  ∀ T a T', w.texts o.1 = some T → T.answer o.2 = some (a, T') →
    r = .ok a ∨ o.2.isWrite ∧ Exhausted vol u.filing.state

section
variable {w : Watched} {o : Nat × Action} {r : Except Stop Reply}

/-- What comes of an operation on a file, whose state is that of `t` afterwards. -/
def Observed (vol : SdVolume) (C : Prop) (D : Disk) (clusters : Nat → List Nat) (w : Watched)
    (o : Nat × Action) (r : Except Stop Reply) (t : Handle) : Prop :=
  AsText w o r ∧ ∃ D' ds,
    Touched vol C (vol.Own D (clusters o.1)) (w.filing.files o.1).record D D' ∧
      Holds D' t.volume ∧
      Filed vol D' (Function.update w.filing.files o.1 t.file) (Function.update clusters o.1 ds)
        (known w.texts o r) ∧
      (D'.reliable → Unfailing vol w o r
        ⟨⟨t.volume, Function.update w.filing.files o.1 t.file⟩, known w.texts o r⟩) ∧
      ∀ i, (known w.texts o r i).isSome → (w.texts i).isSome ∧
        (Function.update w.filing.files o.1 t.file i).dirBlock = (w.filing.files i).dirBlock ∧
        (Function.update w.filing.files o.1 t.file i).dirIndex = (w.filing.files i).dirIndex

variable (hT : w.texts o.1 = some T)
include hT

theorem Observed.of_known {l : List Nat} {x : Option Text}
    (hf : Filed vol D w.filing.files clusters w.texts)
    (hD : Holds D' t.volume)
    (ht : Touched vol C (vol.Own D (clusters o.1)) (w.filing.files o.1).record D D')
    (hds : ∀ c ∈ l, vol.Own D (clusters o.1) c)
    (hk : ∀ S, x = some S → (w.filing.files o.1).Alike t.file ∧ Kept vol D' t.file l S)
    (hknown : known w.texts o r = Function.update w.texts o.1 x) (has : AsText w o r)
    (hun : D'.reliable → ∀ a T', T.answer o.2 = some (a, T') →
      r = .ok a ∨ o.2.isWrite ∧ Exhausted vol t.volume) :
    Observed vol C D clusters w o r t := by
  have hsome : (w.texts o.1).isSome := by rw [hT]; rfl
  refine ⟨has, D', l, ht, hD, ?_, fun hrel S a T' hS ha => ?_, fun i hi => ?_⟩
  · rw [hknown]
    exact hf.update hsome ht hds hk
  · obtain rfl : T = S := Option.some.inj (hT.symm.trans hS)
    exact hun hrel a T' ha
  · rw [hknown] at hi
    exact known_place hsome (fun S hS => (hk S hS).1) hi

theorem Acted.observed {b : Reply} (hf : Filed vol D w.filing.files clusters w.texts)
    (ht : Acted vol C D (clusters o.1) (w.filing.files o.1) T o.2 b t) :
    Observed vol C D clusters w o (.ok b) t := by
  obtain ⟨T', hanswer, halike, D', ds, hv, ht, hds, hk⟩ := ht
  refine .of_known hT hf hv ht hds (x := some T')
    (fun S hS => Option.some.inj hS ▸ ⟨halike, hk⟩) ?_ (fun S hS => ?_) fun _ a S ha => ?_
  · simp only [known, hT, Option.bind_some, hanswer]
  · obtain rfl : T = S := Option.some.inj (hT.symm.trans hS)
    rw [hanswer]
    exact Or.inl rfl
  · obtain ⟨rfl, -⟩ := Prod.mk.inj (Option.some.inj (hanswer.symm.trans ha))
    exact Or.inl rfl

theorem Refused.observed {e : Stop} (hl : Laid vol D)
    (hf : Filed vol D w.filing.files clusters w.texts)
    (ht : Refused vol C D (clusters o.1) (w.filing.files o.1) T o.2 t) :
    Observed vol C D clusters w o (.error e) t := by
  unfold Refused at ht
  cases hanswer : T.answer o.2 with
  | none =>
    rw [hanswer] at ht
    obtain ⟨hv, halike, hk⟩ := ht
    refine .of_known hT hf hv hl.touched (hf.kept o.1 T hT).stored.chain.own (x := some T)
      (fun S hS => Option.some.inj hS ▸ ⟨halike, hk⟩) ?_ (fun S hS => ?_) fun _ a S ha => ?_
    · rw [← hT, Function.update_eq_self]
      simp only [known, hT, Option.bind_some, hanswer]
    · obtain rfl : T = S := Option.some.inj (hT.symm.trans hS)
      rw [hanswer]
      exact ⟨e, rfl⟩
    · exact absurd (hanswer.symm.trans ha) (by simp)
  | some b =>
    rw [hanswer] at ht
    obtain ⟨D', hv, ht, hfull⟩ := ht
    -- nothing is known any more of a file that should have answered
    refine .of_known hT hf hv ht (l := []) (by simp) (x := none)
      (fun S hS => absurd hS (by simp)) ?_ (fun S hS => ?_) fun hrel a S _ => Or.inr ?_
    · simp only [known, hT, Option.bind_some, hanswer]
    · obtain rfl : T = S := Option.some.inj (hT.symm.trans hS)
      rw [hanswer]
      exact Or.inr ⟨e, rfl⟩
    · obtain ⟨hwrite, hfull⟩ := hfull hrel
      refine ⟨hwrite, fun c hc => ?_⟩
      rw [hv.contents]
      exact hfull c hc

end

/-- What an operation on a file that is known does to the store and to what is known. -/
theorem observe_filed {w : Watched} {o : Nat × Action} {clusters : Nat → List Nat}
    (hl : Laid vol D) (hD : Holds D w.filing.state)
    (hf : Filed vol D w.filing.files clusters w.texts) (ho : InUse w o)
    (hsmall : C → o.2.Small) : ∃ r u, observe vol w o = some (r, u) ∧ AsText w o r ∧
      ∃ D' ds, Touched vol C (vol.Own D (clusters o.1)) (w.filing.files o.1).record D D' ∧
        Holds D' u.filing.state ∧
        Filed vol D' u.filing.files (Function.update clusters o.1 ds) u.texts ∧
        (D'.reliable → Unfailing vol w o r u) ∧
        ∀ i, (u.texts i).isSome → (w.texts i).isSome ∧
          (u.filing.files i).dirBlock = (w.filing.files i).dirBlock ∧
          (u.filing.files i).dirIndex = (w.filing.files i).dirIndex := by
  obtain ⟨T, hT, hfits⟩ := ho
  have hsome : (w.texts o.1).isSome := by rw [hT]; rfl
  have hyields := act_yields hl hD (hf.kept o.1 T hT) (hf.free o.1 o.1 hsome hsome) hfits hsmall
  unfold observe operate
  simp only [Option.map_some, Option.some.injEq, Prod.mk.injEq]
  have hout := (hyields.mono (fun _ _ ht => ht.observed hT hf)
    fun e _ ht => ht.observed (e := e) hT hl hf).outcome (P := Observed vol C D clusters w o)
  exact ⟨_, _, ⟨rfl, rfl⟩, hout⟩

theorem observe_sound {never : Prop} {w : Watched} {o : Nat × Action} (hw : w.Sound vol never)
    (ho : InUse w o) (hsmall : never → o.2.Small) : ∃ r u, observe vol w o = some (r, u) ∧
      (AsText w o r ∧ (never → Unfailing vol w o r u)) ∧ u.Sound vol never := by
  obtain ⟨D, clusters, hl, hD, hf, hnever⟩ := hw
  obtain ⟨r, u, hobs, htext, D', ds, ht, hD', hf', hunf, -⟩ :=
    observe_filed (C := never) hl hD hf ho hsmall
  exact ⟨r, u, hobs, ⟨htext, fun hn => hunf (ht.kept hn (hnever hn))⟩, D', _, ht.laid, hD', hf',
    fun hn => ht.kept hn (hnever hn)⟩

def emptyFile (i : Nat) : SdFile where
  type := .normal
  forRead := true
  forWrite := true
  append := false
  syncAlways := false
  unbufferedRead := false
  dirDirty := false
  curCluster := 0
  curPosition := 0
  dirBlock := 3
  dirIndex := i
  fileSize := 0
  firstCluster := 0
  writeError := false

def twoFiles (accesses : List Access) : Watched where
  filing := ⟨{ sdCard := blankCard accesses }, emptyFile⟩
  texts := fun k => if k < 2 then some ⟨[], 0, true, true, false⟩ else none

theorem blank_field {i : Nat} (hi : i = 0 ∨ i = 1) :
    field (fun _ => 0) (32 * i + 11) 1 &&& 0x18 = 0 ∧ field (fun _ => 0) (32 * i + 28) 4 = 0 ∧
      field (fun _ => 0) (32 * i + 20) 2 * 2^16 + field (fun _ => 0) (32 * i + 26) 2 = 0 := by
  obtain rfl | rfl := hi <;> decide

theorem twoFiles_sound {never : Prop} {accesses : List Access} (h : never → accesses = []) :
    (twoFiles accesses).Sound smallVolume never := by
  have hdir (c : Nat) : ¬ smallVolume.InCluster c 3 := by
    rintro ⟨hle, -⟩
    have : 4 ≤ smallVolume.firstBlock c := Nat.le_add_right _ _
    omega
  refine ⟨blankDisk accesses, fun _ => [], blank_laid _, blank_holds _, ⟨fun k T hT => ?_,
    fun _ _ _ _ _ => by simp, fun i k hik _ _ b x hi hk => hik (hi.2.symm.trans hk.2),
    fun _ _ _ _ c _ => hdir c⟩, h⟩
  obtain ⟨hk, rfl⟩ : k < 2 ∧ ⟨[], 0, true, true, false⟩ = T := by
    simpa [twoFiles] using hT
  have hblank := blank_field (i := k) (by omega)
  exact ⟨⟨⟨clusterChain_nil.mpr rfl, rfl, Nat.zero_le _, by simp⟩, rfl, Nat.zero_le _, fun _ => rfl,
      fun h0 => absurd h0 (Nat.lt_irrefl 0)⟩,
    ⟨(by decide : 3 ≤ 3), (by decide : 3 < 7), hk.trans (by decide), hblank.1⟩,
    fun _ => ⟨hblank.2.1, hblank.2.2⟩, rfl, rfl, by decide, rfl, rfl, rfl⟩

/-- In every run, whichever accesses to the card fail, each file answers as a list of bytes of its
own with a position in it, as long as no operation on it has failed. -/
theorem run_answers_as_texts {w : Watched} (hw : w.Sound vol False) {ops : List (Nat × Action)}
    (hops : While (observe vol) InUse ops w) :
    Keeps (observe vol) (fun w o r _ => AsText w o r) ops w :=
  keeps_of_while (I := Watched.Sound vol False) (fun _ _ hs ho => by
    obtain ⟨r, u, hf, has, hu⟩ := observe_sound hs ho False.elim
    exact ⟨r, u, hf, has.1, hu⟩) hw hops

theorem run_answers_as_texts_twoFiles :
    Keeps (observe smallVolume) (fun w o r _ => AsText w o r)
      [(0, .write [1, 2, 3] none), (1, .write [4] none), (0, .seek 1), (0, .read 5), (1, .sync none)]
      (twoFiles [.succeeds, .succeeds]) :=
  run_answers_as_texts (twoFiles_sound False.elim) (by decide +kernel)

/-- In every run on a card that never fails, of writes of less than a block, in which no file is used
again after a write to it has failed, nothing that a file does not have to refuse fails but a write
when no cluster is free. -/
theorem run_fails_only_if_full {w : Watched} (hw : w.Sound vol True) {ops : List (Nat × Action)}
    (hops : While (observe vol) (fun w o => InUse w o ∧ o.2.Small) ops w) :
    Keeps (observe vol) (Unfailing vol) ops w :=
  keeps_of_while (I := Watched.Sound vol True) (fun _ _ hs ho => by
    obtain ⟨r, u, hf, has, hu⟩ := observe_sound hs ho.1 fun _ => ho.2
    exact ⟨r, u, hf, has.2 trivial, hu⟩) hw hops

theorem run_fails_only_if_full_twoFiles :
    Keeps (observe smallVolume) (Unfailing smallVolume)
      [(0, .write [1, 2, 3] none), (1, .write [4] none), (0, .truncate 1 none), (0, .read 5)]
      (twoFiles []) :=
  run_fails_only_if_full (twoFiles_sound fun _ => rfl) (by decide +kernel)

end RasPiArduino.Sd
