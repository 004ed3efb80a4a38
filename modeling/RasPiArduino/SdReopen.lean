import RasPiArduino.SdFiles
import RasPiArduino.SdStore

/-! What has been brought up to date is on the card: whoever opens the file later, with nothing
but the card, finds the same bytes. -/
namespace RasPiArduino.Sd
open LittleEndian Outcome Machine

def opened (h : Handle) (xs : List UInt8) (oflag : OpenMode) : Watched where
  filing := ⟨h.volume, fun _ => h.file⟩
  texts := fun k => if k = 0 then some ⟨xs, 0, oflag.read, oflag.write, oflag.append⟩ else none

variable {vol : SdVolume} {D D' : Disk} {h : Handle} {f g : SdFile} {cs : List Nat}
  {xs : List UInt8} {first : Nat} {oflag : OpenMode}

theorem openCachedEntry_yields (hD : Holds D h.volume) (hseat : Seated vol D f)
    (hrec : Recorded D f) (hs : Content vol D f.firstCluster cs xs) (hsize : f.fileSize = xs.length)
    (hlt : xs.length < 2^32) (htrunc : oflag.trunc = false)
    (hwrite : oflag.write →
      field (D.blocks f.dirBlock) (32 * f.dirIndex + 11) 1 &&& 0x11 = 0)
    (hnum : h.volume.cacheBlockNumber = f.dirBlock) (dateTime : Option (Nat × Nat)) :
    Yields (openCachedEntry vol f.dirIndex oflag dateTime) h
      (fun _ t => Holds D t.volume ∧ t.file.dirIndex = f.dirIndex ∧ t.file.dirBlock = f.dirBlock ∧
        Kept vol D t.file cs ⟨xs, 0, oflag.read, oflag.write, oflag.append⟩)
      (fun _ _ => False) := by
  have hbuf : h.volume.cacheBuffer = D.blocks f.dirBlock := by
    rw [← hnum]
    exact hD.buffer (hnum ▸ hseat.lt)
  have hmode : ¬ (field (D.blocks f.dirBlock) (32 * f.dirIndex + 11) 1 &&& 0x11 ≠ 0 ∧
      (oflag.write = true ∨ false = true)) := by
    rintro ⟨hne, hw | hf⟩
    · exact hne (hwrite hw)
    · exact absurd hf Bool.false_ne_true
  unfold openCachedEntry
  simp only [yields_bind, yields_get, yields_ite, yields_throw, yields_onFile, yields_onVolume,
    yields_pure, hbuf, hnum, htrunc]
  refine ⟨fun hno => absurd hno hmode, fun _ => ⟨fun _ => ?_, fun hno => absurd hseat.isFile hno⟩⟩
  refine ⟨fun hf => absurd hf Bool.false_ne_true, fun _ => ⟨hD, trivial, trivial, ?_⟩⟩
  rw [hrec.firstCluster, hrec.fileSize]
  exact ⟨⟨hs, rfl, Nat.zero_le _, fun _ => rfl, fun hlt => absurd hlt (Nat.lt_irrefl 0)⟩,
    ⟨hseat.behind, hseat.lt, hseat.index, hseat.isFile⟩,
    fun _ => ⟨hrec.fileSize, hrec.firstCluster⟩, hsize, rfl, hlt, rfl, rfl, rfl⟩

theorem Kept.sound {clusters : List Nat} (hl : Laid vol D) (hD : Holds D h.volume)
    (hk : Kept vol D h.file clusters ⟨xs, 0, oflag.read, oflag.write, oflag.append⟩)
    (hfree : ∀ c, vol.Own D clusters c → ¬ vol.InCluster c h.file.dirBlock) :
    (opened h xs oflag).Sound vol False := by
  have hzero {i : Nat} (hi : ((opened h xs oflag).texts i).isSome) : i = 0 := by
    by_contra hne
    simp [opened, hne] at hi
  refine ⟨D, fun _ => clusters, hl, hD, ⟨fun j T hT => ?_, fun i j hij hi hj => ?_,
    fun i j hij hi hj => ?_, fun _ _ _ _ => hfree⟩, False.elim⟩
  · obtain rfl := hzero (i := j) (by rw [hT]; rfl)
    obtain rfl : _ = T := Option.some.inj hT
    exact hk
  · exact absurd ((hzero hi).trans (hzero hj).symm) hij
  · exact absurd ((hzero hi).trans (hzero hj).symm) hij

end RasPiArduino.Sd
