import RasPiArduino.BridgeFile

/-! Reading and writing blocks of a file, where the C library counts items and the class bytes. -/
namespace RasPiArduino.BridgeFile

/-- A block read takes what is left of `n` bytes, says how many these are and goes on behind
them. -/
def ReadsBlock (f : OpenFile) (n : Nat) : Prop := ∃ g,
  readBlock (some f) n = (f.left.take n, ((f.left.take n).length : Int), some g) ∧
    g.contents = f.contents ∧ g.pos = f.pos + min n f.left.length

/-- A loop that reads blocks until it is told that there is none, and keeps of each as many bytes as
it is told. -/
def readLoop (n : Nat) : Nat → File → Option (List UInt8 × File)
  | 0, _ => none
  | fuel+1, f =>
    let (buf, k, f) := readBlock f n
    if k > 0 then (readLoop n fuel f).map fun (bs, f) => (buf.take k.toNat ++ bs, f)
    else some ([], f)

def ReadsAll (f : OpenFile) (n : Nat) : Prop :=
  ∃ fuel g, readLoop n fuel (some f) = some (f.left, g)

/-- A write returns how many bytes it has put into the file: all, or as many as that takes. -/
def WritesBlock (write : File → List UInt8 → Nat × File) (f : OpenFile) (data : List UInt8) :
    Prop :=
  ∃ (k : Nat) (h : (data.take k).length ≤ f.accepts), k ≤ data.length ∧
    (k = data.length ∨ k = f.accepts) ∧ write (some f) data = (k, some (f.put (data.take k) h))

variable {f : OpenFile} {n : Nat} {data : List UInt8}

theorem readBlock_eq (f : OpenFile) (n : Nat) : ∃ g,
    readBlock (some f) n =
      (f.readableLeft.take n, (((f.readableLeft.take n).length / n : Nat) : Int), some g) ∧ g.contents = f.contents ∧ g.readable = f.readable ∧
      g.pos = f.pos + min n f.readableLeft.length := by
  refine ⟨(fread f n 1).2.2, ?_, rfl, rfl, ?_⟩
  · simp only [readBlock, fread, Nat.mul_one]
  · simp only [fread, Nat.mul_one, List.length_take]

theorem OpenFile.readableLeft_of_readable (h : f.readable) : f.readableLeft = f.left := by
  rw [OpenFile.readableLeft, if_pos h]

theorem OpenFile.readableLeft_of_not (h : f.readable = false) : f.readableLeft = [] := by
  rw [OpenFile.readableLeft, if_neg (by simp [h])]

theorem OpenFile.readableLeft_of_end (h : f.left = []) : f.readableLeft = [] := by
  rw [OpenFile.readableLeft, h, ite_self]

theorem OpenFile.readableLeft_eq_iff : f.readableLeft = f.left ↔ f.left = [] ∨ f.readable := by
  constructor
  · intro h
    by_cases hread : f.readable
    · exact Or.inr hread
    · rw [OpenFile.readableLeft_of_not (Bool.eq_false_iff.mpr hread)] at h
      exact Or.inl h.symm
  · rintro (hend | hread)
    · rw [OpenFile.readableLeft_of_end hend, hend]
    · exact OpenFile.readableLeft_of_readable hread

theorem items_eq_iff {k n : Nat} (hk : k ≤ n) : k / n = k ↔ n ≤ 1 ∨ k = 0 := by
  constructor
  · intro h
    by_contra hno
    have hlt := Nat.div_lt_self (show 0 < k by omega) (show 1 < n by omega)
    omega
  · rintro (hn | rfl)
    · obtain rfl | rfl := Nat.le_one_iff_eq_zero_or_eq_one.mp hn
      · rw [Nat.le_zero.mp hk]
      · exact Nat.div_one k
    · exact Nat.zero_div n

theorem readsBlock_iff (f : OpenFile) (n : Nat) :
    ReadsBlock f n ↔ n = 0 ∨ f.left = [] ∨ n = 1 ∧ f.readable := by
  obtain ⟨g, hread, hcontents, -, hpos⟩ := readBlock_eq f n
  have hitems := items_eq_iff (List.length_take_le n f.left)
  constructor
  · rintro ⟨g', hread', -⟩
    have heq := hread.symm.trans hread'
    have hbuf : f.readableLeft.take n = f.left.take n := congrArg Prod.fst heq
    have hcount := congrArg (fun r => r.2.1) heq
    rw [hbuf] at hcount
    obtain hn | hzero := hitems.mp (Int.ofNat.inj hcount)
    · obtain rfl | rfl := Nat.le_one_iff_eq_zero_or_eq_one.mp hn
      · exact Or.inl rfl
      · by_cases hreadable : f.readable
        · exact Or.inr (Or.inr ⟨rfl, hreadable⟩)
        · rw [OpenFile.readableLeft_of_not (Bool.eq_false_iff.mpr hreadable), List.take_nil] at hbuf
          exact Or.inr (Or.inl ((List.take_eq_nil_iff.mp hbuf.symm).resolve_left one_ne_zero))
    · rw [List.length_eq_zero_iff, List.take_eq_nil_iff] at hzero
      exact hzero.imp_right Or.inl
  · intro h
    have hbuf : f.readableLeft.take n = f.left.take n := by
      obtain rfl | hleft := h
      · rw [List.take_zero, List.take_zero]
      · rw [OpenFile.readableLeft_eq_iff.mpr (hleft.imp_right And.right)]
    have hlen := congrArg List.length hbuf
    rw [List.length_take, List.length_take] at hlen
    refine ⟨g, ?_, hcontents, by rw [hpos, hlen]⟩
    have hcount : (f.left.take n).length / n = (f.left.take n).length := by
      refine hitems.mpr ?_
      obtain rfl | hleft | ⟨rfl, -⟩ := h
      · exact Or.inl (Nat.zero_le 1)
      · exact Or.inr (by rw [hleft, List.take_nil, List.length_nil])
      · exact Or.inl le_rfl
    rw [hread, hbuf, hcount]

theorem writeBlock_eq (f : OpenFile) (data : List UInt8) :
    writeBlock (some f) data = (min data.length f.accepts / data.length,
      some (f.put (data.take f.accepts) (List.length_take_le _ _))) := by
  simp only [writeBlock, fwrite, Nat.mul_one, List.take_length]
  rw [List.length_take, Nat.min_comm]

theorem writesBlock_iff (f : OpenFile) (data : List UInt8) :
    WritesBlock writeBlock f data ↔ data.length ≤ 1 ∨ f.accepts = 0 := by
  have hitems := items_eq_iff (Nat.min_le_left data.length f.accepts)
  constructor
  · rintro ⟨k, h, hle, hall, hwrite⟩
    have hk := congrArg Prod.fst ((writeBlock_eq f data).symm.trans hwrite)
    rw [List.length_take, Nat.min_eq_left hle] at h
    have hmin : k = min data.length f.accepts := by omega
    have hone := hitems.mp (hk.trans hmin)
    omega
  · intro h
    have htake : data.take (min data.length f.accepts) = data.take f.accepts := by
      rw [Nat.min_comm]
      exact List.take_eq_take_min.symm
    refine ⟨min data.length f.accepts, ?_, Nat.min_le_left _ _, by omega, ?_⟩
    · rw [htake]
      exact List.length_take_le _ _
    · rw [writeBlock_eq, hitems.mpr (by omega)]
      simp only [htake]

theorem readableLeft_readBlock (f : OpenFile) (n : Nat) : ∃ g,
    readBlock (some f) n =
      (f.readableLeft.take n, (((f.readableLeft.take n).length / n : Nat) : Int), some g) ∧ g.readableLeft = f.readableLeft.drop n := by
  obtain ⟨g, hread, hcontents, hreadable, hpos⟩ := readBlock_eq f n
  refine ⟨g, hread, ?_⟩
  by_cases hf : f.readable
  · rw [OpenFile.readableLeft_of_readable hf] at hpos ⊢
    rw [OpenFile.readableLeft_of_readable (hreadable.trans hf)]
    have hleft : g.left = f.left.drop (min n f.left.length) := by
      simp only [OpenFile.left, hcontents, hpos, List.drop_drop]
    rw [hleft]
    by_cases hn : n ≤ f.left.length
    · rw [Nat.min_eq_left hn]
    · rw [Nat.min_eq_right (by omega), List.drop_length, List.drop_of_length_le (by omega)]
  · have hno := Bool.eq_false_iff.mpr hf
    rw [OpenFile.readableLeft_of_not hno, OpenFile.readableLeft_of_not (hreadable.trans hno),
      List.drop_nil]

theorem readLoop_succ (f : OpenFile) (n : Nat) : ∃ g, g.readableLeft = f.readableLeft.drop n ∧
    ∀ fuel, readLoop n (fuel + 1) (some f) =
      if (f.readableLeft.take n).length / n > 0 then
        (readLoop n fuel (some g)).map fun r =>
          ((f.readableLeft.take n).take ((f.readableLeft.take n).length / n) ++ r.1, r.2)
      else some ([], some g) := by
  obtain ⟨g, hread, hleft⟩ := readableLeft_readBlock f n
  refine ⟨g, hleft, fun fuel => ?_⟩
  rw [readLoop, hread]
  dsimp only
  by_cases hk : (f.readableLeft.take n).length / n > 0
  · rw [if_pos hk, if_pos (Int.natCast_pos.mpr hk), Int.toNat_natCast]
  · rw [if_neg hk, if_neg fun h => hk (Int.natCast_pos.mp h)]

/-- The loop keeps one byte of every complete block. -/
theorem readLoop_length {fuel : Nat} {bs : List UInt8} {g : File}
    (h : readLoop n fuel (some f) = some (bs, g)) : bs.length * n ≤ f.readableLeft.length := by
  induction fuel generalizing f bs with
  | zero => cases h
  | succ fuel ih =>
    obtain ⟨f', hleft, hloop⟩ := readLoop_succ f n
    rw [hloop] at h
    split at h
    · next hk =>
      obtain ⟨⟨bs', g'⟩, hrest, heq⟩ := Option.map_eq_some_iff.mp h
      obtain ⟨rfl, rfl⟩ := Prod.mk.inj heq
      have hfull : n ≤ (f.readableLeft.take n).length := (Nat.div_pos_iff.mp hk).2
      have hone : (f.readableLeft.take n).length / n ≤ 1 :=
        Nat.div_le_of_le_mul (by rw [Nat.mul_one]; exact List.length_take_le n f.readableLeft)
      have hrec := ih hrest
      rw [hleft, List.length_drop] at hrec
      rw [List.length_take] at hfull
      have hkept : ((f.readableLeft.take n).take
          ((f.readableLeft.take n).length / n)).length ≤ 1 := by
        rw [List.length_take]
        omega
      calc ((f.readableLeft.take n).take ((f.readableLeft.take n).length / n) ++ bs').length * n
          ≤ (1 + bs'.length) * n := by
            rw [List.length_append]
            exact Nat.mul_le_mul_right n (Nat.add_le_add_right hkept _)
        _ = n + bs'.length * n := by rw [Nat.add_mul, Nat.one_mul]
        _ ≤ f.readableLeft.length := by omega
    · obtain ⟨rfl, rfl⟩ := Prod.mk.inj (Option.some.inj h)
      rw [List.length_nil, Nat.zero_mul]
      exact Nat.zero_le _

theorem readLoop_single (f : OpenFile) :
    ∃ fuel g, readLoop 1 fuel (some f) = some (f.readableLeft, g) := by
  obtain ⟨g, hleft, hloop⟩ := readLoop_succ f 1
  induction hl : f.readableLeft generalizing f g with
  | nil =>
    refine ⟨1, some g, ?_⟩
    rw [hloop, hl, if_neg (by simp)]
  | cons c l ih =>
    rw [hl, List.drop_one, List.tail_cons] at hleft
    obtain ⟨g', hleft', hloop'⟩ := readLoop_succ g 1
    obtain ⟨fuel, u, hrest⟩ := ih g g' hleft' hloop' hleft
    refine ⟨fuel + 1, u, ?_⟩
    rw [hloop, hl, if_pos (by simp), hrest]
    simp

theorem readsAll_iff (f : OpenFile) (hn : 1 ≤ n) :
    ReadsAll f n ↔ f.left = [] ∨ n = 1 ∧ f.readable := by
  constructor
  · rintro ⟨fuel, g, hloop⟩
    have hlen := readLoop_length hloop
    by_contra hno
    rw [not_or] at hno
    have hpos := List.length_pos_iff.mpr hno.1
    by_cases hread : f.readable
    · rw [OpenFile.readableLeft_of_readable hread] at hlen
      have h2 : 2 ≤ n := by
        have : n ≠ 1 := fun h1 => hno.2 ⟨h1, hread⟩
        omega
      have hmul := Nat.mul_le_mul_left f.left.length h2
      omega
    · rw [OpenFile.readableLeft_of_not (Bool.eq_false_iff.mpr hread), List.length_nil] at hlen
      have hmul := Nat.mul_le_mul_left f.left.length hn
      omega
  · rintro (hnil | ⟨rfl, hread⟩)
    · obtain ⟨g, -, hloop⟩ := readLoop_succ f n
      refine ⟨1, some g, ?_⟩
      rw [hloop, OpenFile.readableLeft_of_end hnil, hnil, if_neg (by simp)]
    · obtain ⟨fuel, g, hloop⟩ := readLoop_single f
      exact ⟨fuel, g, by rw [hloop, OpenFile.readableLeft_of_readable hread]⟩

/-- What is promised of blocks of `n` bytes and of a text, at any place of a file. -/
structure Blocks (f : OpenFile) (n : Nat) (data : List UInt8) : Prop where
  reads : ReadsBlock f n
  loop : 1 ≤ n → ReadsAll f n
  writes : WritesBlock writeBlock f data
  prints : WritesBlock print f data

theorem blocks_iff (f : OpenFile) (n : Nat) (data : List UInt8) : Blocks f n data ↔
    (n = 0 ∨ f.left = [] ∨ n = 1 ∧ f.readable) ∧ (data.length ≤ 1 ∨ f.accepts = 0) := by
  constructor
  · intro h
    exact ⟨(readsBlock_iff f n).mp h.reads, (writesBlock_iff f data).mp h.writes⟩
  · rintro ⟨hread, hwrite⟩
    have hwrites := (writesBlock_iff f data).mpr hwrite
    exact ⟨(readsBlock_iff f n).mpr hread,
      fun hn => (readsAll_iff f hn).mpr (hread.resolve_left (by omega)), hwrites, hwrites⟩

/-- A block of two bytes is written as one item. -/
theorem block_counted_once : ¬ ∀ f n data, Blocks f n data := by
  intro h
  obtain ⟨k, _, -, hall, hwrite⟩ :=
    (h ⟨[65, 66, 67], 0, true, false, 9, by decide, by decide⟩ 2 [68, 69]).writes
  have hone : (writeBlock (some ⟨[65, 66, 67], 0, true, false, 9, by decide, by decide⟩)
      [68, 69]).1 = 1 := by
    decide
  rw [hwrite] at hone
  obtain rfl : k = 1 := hone
  revert hall
  decide

end RasPiArduino.BridgeFile
