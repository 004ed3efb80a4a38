import RasPiArduino.Rewriting
import RasPiArduino.WStringInvariant

/-! replace() of one String by another: three loops, for a replacement as long as what it
replaces, shorter, and longer. -/
namespace RasPiArduino.WString
open CMemory Rewriting

/-- What the loops over strstr keep: the buffer, the places written to and read from, and the
length, or the size that is counted. -/
structure Scan where
  bytes : List UInt8
  writeTo : Nat
  readFrom : Nat
  len : Nat
  deriving DecidableEq, Repr

def addInt (n : Nat) (diff : Int) : Nat := ((n + diff) % 2^32).toNat

def strstrAt (b : List UInt8) (readFrom : Nat) (find : WString) : Except Fault (Option Nat) := do
  let t ← cstring (b.drop readFrom)
  let b2 ← find.buffer.bytes
  let needle ← cstring b2
  .ok ((strstr t needle).map (readFrom + ·))

/-- The loops: a turn for each place where strstr finds `find`. Each turn reads on behind it,
so that the bytes of the buffer bound their number. -/
def whileFound (find : WString) (turn : Scan → Nat → Except Fault Scan) :
    Nat → Scan → Except Fault Scan
  | 0, _ => .error .outside
  | n+1, x => do
    match ← strstrAt x.bytes x.readFrom find with
    | none => .ok x
    | some foundAt => do
      let x ← turn x foundAt
      whileFound find turn n x

def sameTurn (replace : WString) (x : Scan) (foundAt : Nat) : Except Fault Scan := do
  let u ← readBytes replace.buffer replace.len
  let b ← memcpy x.bytes foundAt u
  .ok { x with bytes := b, readFrom := foundAt + replace.len }

def shorterTurn (find replace : WString) (diff : Int) (x : Scan) (foundAt : Nat) :
    Except Fault Scan := do
  let n := foundAt - x.readFrom
  let b ← memcpyWithin n x.bytes x.writeTo x.readFrom
  let writeTo := x.writeTo + n
  let u ← readBytes replace.buffer replace.len
  let b ← memcpy b writeTo u
  .ok ⟨b, writeTo + replace.len, foundAt + find.len, addInt x.len diff⟩

def countTurn (find : WString) (diff : Int) (x : Scan) (foundAt : Nat) : Except Fault Scan :=
  .ok { x with readFrom := foundAt + find.len, len := addInt x.len diff }

def replaceSame (s find replace : WString) : Except Fault WString := do
  let b ← s.buffer.bytes
  let x ← whileFound find (sameTurn replace) (b.length + 1) ⟨b, 0, 0, s.len⟩
  .ok { s with buffer := .block x.bytes }

def replaceShorter (s find replace : WString) (diff : Int) : Except Fault WString := do
  let b ← s.buffer.bytes
  let x ← whileFound find (shorterTurn find replace diff) (b.length + 1) ⟨b, 0, 0, s.len⟩
  let b ← strcpyWithin x.bytes.length x.bytes x.writeTo x.readFrom
  .ok { s with buffer := .block b, len := x.len }

def countSize (s find : WString) (diff : Int) : Except Fault Nat := do
  let b ← s.buffer.bytes
  let x ← whileFound find (countTurn find diff) (b.length + 1) ⟨b, 0, 0, s.len⟩
  .ok x.len

/-- A turn of the loop over `index`: the String and the index after it, if it is not the end. -/
def longerTurn (find replace : WString) (diff : Int) (s : WString) (index : Int) :
    Except Fault (Option (WString × Int)) :=
  if index < 0 then .ok none
  else do
    let index ← s.lastIndexOfString find index.toNat
    if index < 0 then .ok none
    else do
      let b ← s.buffer.bytes
      let readFrom := index.toNat + find.len
      let b ← memmove b (readFrom + diff.toNat) readFrom (minus s.len readFrom)
      let len := addInt s.len diff
      let b ← put b len 0
      let u ← readBytes replace.buffer replace.len
      let b ← memcpy b index.toNat u
      .ok (some ({ s with buffer := .block b, len := len }, index - 1))

def longerLoop (find replace : WString) (diff : Int) : Nat → WString → Int → Except Fault WString
  | 0, s, _ => .ok s
  | n+1, s, index => do
    match ← longerTurn find replace diff s index with
    | none => .ok s
    | some (s, index) => longerLoop find replace diff n s index

def fitSize (s : WString) (size : Nat) (a : Option Alloc) : Except Fault (Bool × WString) :=
  if size > s.capacity then s.changeBuffer size a else .ok (true, s)

def replaceLonger (s find replace : WString) (diff : Int) (a : Option Alloc) :
    Except Fault WString := do
  let size ← s.countSize find diff
  if size = s.len then .ok s
  else
    let (fits, s) ← s.fitSize size a
    if fits then longerLoop find replace diff s.len s (Int.bmod (s.len - 1) (2^32))
    else .ok s

def replaceString (s find replace : WString) (a : Option Alloc) : Except Fault WString :=
  if s.len = 0 ∨ find.len = 0 then .ok s
  else
    let diff := Int.bmod (replace.len - find.len) (2^32)
    if diff = 0 then s.replaceSame find replace
    else if diff < 0 then s.replaceShorter find replace diff
    else s.replaceLonger find replace diff a

variable {s find replace : WString} {t f r rest frest : List UInt8} {b d g w : List UInt8}
  {diff : Int} {a : Option Alloc}

/-! What strstr finds, and the loops over it. -/

theorem strstr_none (hf : f ≠ []) (h : Quiet f [] t) : strstr t f = none := by
  rw [strstr, List.find?_range_eq_none]
  intro i hi
  rw [Bool.not_eq_true', ← Bool.not_eq_true, List.isPrefixOf_iff_prefix]
  by_cases hlt : i < t.length
  · have hnot := quiet_iff_drop.mp h i hlt
    rwa [List.append_nil] at hnot
  · rw [List.drop_eq_nil_of_le (by omega)]
    simpa using hf

theorem strstr_first (h : Quiet f (f ++ w) g) : strstr (g ++ (f ++ w)) f = some g.length := by
  rw [strstr, List.find?_range_eq_some]
  refine ⟨?_, ?_, ?_⟩
  · rw [List.isPrefixOf_iff_prefix, List.drop_left]
    exact List.prefix_append f w
  · rw [List.mem_range, List.length_append]
    omega
  · intro j hj
    rw [Bool.not_eq_true', ← Bool.not_eq_true, List.isPrefixOf_iff_prefix,
      List.drop_append_of_le_length (by omega)]
    exact quiet_iff_drop.mp h j hj

theorem strstrAt_none (hf : Holds find f frest) (hne : f ≠ []) {k : Nat}
    (hw : cstring (b.drop k) = .ok w) (h : Quiet f [] w) : strstrAt b k find = .ok none := by
  simp only [strstrAt, hw, hf.buffer, Buffer.bytes, ok_bind, cstring_append hf.noNul,
    strstr_none hne h, Option.map_none]

theorem strstrAt_first (hf : Holds find f frest) {k : Nat}
    (hw : cstring (b.drop k) = .ok (g ++ (f ++ w))) (h : Quiet f (f ++ w) g) :
    strstrAt b k find = .ok (some (k + g.length)) := by
  simp only [strstrAt, hw, hf.buffer, Buffer.bytes, ok_bind, cstring_append hf.noNul,
    strstr_first h, Option.map_some]

/-- A turn for each occurrence that is met from the left: what holds of the C string that is
still to be read holds in the end of one without occurrences. -/
theorem whileFound_spec (hf : Holds find f frest) (hne : f ≠ [])
    {turn : Scan → Nat → Except Fault Scan} {I : List UInt8 → Scan → Prop}
    (hread : ∀ w x, I w x → cstring (x.bytes.drop x.readFrom) = .ok w)
    (hturn : ∀ g w x, I (g ++ (f ++ w)) x → Quiet f (f ++ w) g →
      ∃ y, turn x (x.readFrom + g.length) = .ok y ∧ I w y)
    {x : Scan} (h : I w x) {n : Nat} (hn : w.length < n) :
    ∃ v y, whileFound find turn n x = .ok y ∧ I v y ∧ Quiet f [] v := by
  induction n generalizing w x with
  | zero => omega
  | succ n ih =>
    cases quiet_or_first f w with
    | inl hq =>
      refine ⟨w, x, ?_, h, hq⟩
      rw [whileFound, strstrAt_none hf hne (hread w x h) hq]
      rfl
    | inr hfirst =>
      obtain ⟨g, v, rfl, hq⟩ := hfirst
      obtain ⟨y, hy, hI⟩ := hturn g v x h hq
      have hpos := List.length_pos_iff.mpr hne
      rw [List.length_append, List.length_append] at hn
      obtain ⟨u, z, hz, hIz, hqz⟩ := ih hI (by omega)
      refine ⟨u, z, ?_, hIz, hqz⟩
      rw [whileFound, strstrAt_first hf (hread _ x h) hq]
      simp only [ok_bind, hy]
      exact hz

theorem readBytes_eq (h : Contents replace r) : readBytes replace.buffer replace.len = .ok r := by
  obtain ⟨hb, hlen, rfl⟩ | ⟨rest, h⟩ := h
  · rw [hlen]
    rfl
  · rw [readBytes, h.len]
    split
    · next h0 =>
      obtain rfl := List.eq_nil_of_length_eq_zero h0
      rfl
    · rw [h.buffer, Buffer.bytes, ok_bind, if_pos (by simp), List.take_left]

/-! A replacement of the same length, and a shorter one. -/

/-- The chars `d` are done, and those of `w` are still to be read. -/
structure Same (t f r rest w : List UInt8) (x : Scan) : Prop where
  noNul : 0 ∉ w
  scan : ∃ d, x.bytes = d ++ (w ++ 0 :: rest) ∧ x.readFrom = d.length ∧
    d ++ replaceAll f r w = replaceAll f r t

theorem Same.read {x : Scan} (h : Same t f r rest w x) :
    cstring (x.bytes.drop x.readFrom) = .ok w := by
  obtain ⟨d, hb, hk, -⟩ := h.scan
  rw [hb, hk, List.drop_left]
  exact cstring_append h.noNul rest

theorem noNul_of_first (h : 0 ∉ g ++ (f ++ w)) : 0 ∉ w :=
  fun hw => h (List.mem_append_right _ (List.mem_append_right _ hw))

theorem Same.turn (hr : Contents replace r) (hne : f ≠ []) (hlen : r.length = f.length) {x : Scan}
    (h : Same t f r rest (g ++ (f ++ w)) x) (hq : Quiet f (f ++ w) g) :
    ∃ y, sameTurn replace x (x.readFrom + g.length) = .ok y ∧ Same t f r rest w y := by
  obtain ⟨d, hb, hk, hd⟩ := h.scan
  have hcopy := memcpy_fits (d := d ++ g) (t := r) (r := f ++ w ++ 0 :: rest) (by simp; omega)
  have hsplit : x.bytes = d ++ g ++ (f ++ w ++ 0 :: rest) := by simp [hb]
  have hplace : x.readFrom + g.length = (d ++ g).length := by simp [hk]
  have hrest : (f ++ w ++ 0 :: rest).drop r.length = w ++ 0 :: rest := by
    rw [hlen, List.append_assoc, List.drop_left]
  rw [sameTurn, readBytes_eq hr, ok_bind, hsplit, hplace, hcopy, hrest]
  refine ⟨_, rfl, noNul_of_first h.noNul, d ++ (g ++ r), by simp, ?_, ?_⟩
  · simp only [hr.len_eq, List.length_append]
    omega
  · rw [← hd, replaceAll_first hne hq, List.append_assoc, List.append_assoc]

theorem length_replaceAll_same (hne : f ≠ []) (hlen : r.length = f.length) (t : List UInt8) :
    (replaceAll f r t).length = t.length := by
  have h := length_replaceAll hne r t
  rw [hlen] at h
  omega

theorem not_mem_replaceAll (hne : f ≠ []) (ht : 0 ∉ t) (hr : 0 ∉ r) : 0 ∉ replaceAll f r t :=
  fun h => (mem_replaceAll hne h).elim ht hr

theorem replaceSame_eq (hs : Holds s t rest) (hf : Holds find f frest) (hne : f ≠ [])
    (hr : Contents replace r) (hlen : r.length = f.length) :
    ∃ y, s.replaceSame find replace = .ok y ∧ Holds y (replaceAll f r t) rest := by
  have hstart : Same t f r rest t ⟨t ++ 0 :: rest, 0, 0, s.len⟩ := ⟨hs.noNul, [], rfl, rfl, rfl⟩
  obtain ⟨v, x, hx, h, hq⟩ := whileFound_spec hf hne (fun _ _ h => h.read)
    (fun _ _ _ h hq => h.turn hr hne hlen hq) hstart
    (n := (t ++ 0 :: rest).length + 1) (by simp)
  obtain ⟨d, hb, -, hd⟩ := h.scan
  have hsame := length_replaceAll_same hne hlen t
  refine ⟨{ s with buffer := .block x.bytes }, ?_, ?_, ?_, ?_,
    not_mem_replaceAll hne hs.noNul hr.noNul, hs.fits⟩
  · rw [replaceSame, hs.buffer, Buffer.bytes, ok_bind, hx, ok_bind]
  · rw [hb, ← hd, replaceAll_none hq, List.append_assoc]
  · exact hs.len.trans hsame.symm
  · exact hs.capacity.trans (by rw [hsame])

theorem addInt_eq {n m : Nat} (h : (n : Int) + diff = m) (hm : m < 2^32) : addInt n diff = m := by
  rw [addInt, h]
  omega

/-- The chars `d` are done, and those of `w` are still to be read, at a place `k` further on. -/
structure Shorter (s : WString) (t f r rest w : List UInt8) (x : Scan) : Prop where
  noNul : 0 ∉ w
  size : x.bytes.length = s.capacity + 1
  scan : ∃ d q k, x.bytes = d ++ q ∧ x.writeTo = d.length ∧ x.readFrom = d.length + k ∧
    q.drop k = w ++ 0 :: rest ∧ d ++ replaceAll f r w = replaceAll f r t ∧
      x.len = d.length + w.length

theorem Shorter.read {x : Scan} (h : Shorter s t f r rest w x) :
    cstring (x.bytes.drop x.readFrom) = .ok w := by
  obtain ⟨d, q, k, hb, -, hk, hq, -⟩ := h.scan
  rw [hb, hk, List.drop_append, List.drop_eq_nil_of_le (by omega), Nat.add_sub_cancel_left, hq]
  exact cstring_append h.noNul rest

theorem length_of_drop {q : List UInt8} {k : Nat} (h : q.drop k = w ++ 0 :: rest) :
    q.length = k + (w.length + (rest.length + 1)) := by
  have hlen := congrArg List.length h
  simp only [List.length_drop, List.length_append, List.length_cons] at hlen
  omega

theorem Shorter.turn (hf : Holds find f frest) (hr : Contents replace r) (hne : f ≠ [])
    (hlt : r.length ≤ f.length) (hdiff : diff = r.length - f.length) (hcap : s.capacity + 1 < 2^32)
    {x : Scan} (h : Shorter s t f r rest (g ++ (f ++ w)) x) (hq : Quiet f (f ++ w) g) :
    ∃ y, shorterTurn find replace diff x (x.readFrom + g.length) = .ok y ∧
      Shorter s t f r rest w y := by
  obtain ⟨d, q, k, hb, hwrite, hk, hrest, hd, hlen⟩ := h.scan
  have hsize := h.size
  have hqlen := length_of_drop hrest
  rw [hb, List.length_append] at hsize
  simp only [List.length_append] at hqlen hlen
  have hmove := memcpyWithin_below (p := d) (q := q) (k := k) (n := g.length) (by omega)
  rw [hrest, List.append_assoc, List.take_left, ← List.append_assoc] at hmove
  have hcopy := memcpy_fits (d := d ++ g) (t := r) (r := q.drop g.length) (by
    rw [List.length_drop]
    omega)
  rw [List.length_append] at hcopy
  have hnew : addInt x.len diff = d.length + g.length + r.length + w.length :=
    addInt_eq (by omega) (by omega)
  have hbytes := readBytes_eq hr
  rw [hr.len_eq] at hbytes
  refine ⟨⟨d ++ g ++ (r ++ (q.drop g.length).drop r.length), d.length + g.length + r.length,
    d.length + k + g.length + f.length, d.length + g.length + r.length + w.length⟩, ?_,
    noNul_of_first h.noNul, ?_, d ++ (g ++ r), (q.drop g.length).drop r.length,
    k + f.length - r.length, ?_, ?_, ?_, ?_, ?_, ?_⟩
  · simp only [shorterTurn, hk, Nat.add_sub_cancel_left, hwrite, hb, hmove, ok_bind,
      hr.len_eq, hbytes, hcopy, hnew, hf.len]
  · simp only [List.length_append, List.length_drop]
    omega
  · simp
  · simp only [List.length_append]
    omega
  · simp only [List.length_append]
    omega
  · have hback : (q.drop k).drop (g.length + f.length) = w ++ 0 :: rest := by
      rw [hrest, List.append_assoc, ← List.drop_drop, List.drop_left, List.append_assoc,
        List.drop_left]
    rw [List.drop_drop, List.drop_drop, ← hback, List.drop_drop]
    congr 1
    omega
  · rw [← hd, replaceAll_first hne hq, List.append_assoc, List.append_assoc]
  · simp only [List.length_append]
    omega

theorem replaceShorter_eq (hs : Holds s t rest) (hf : Holds find f frest) (hne : f ≠ [])
    (hr : Contents replace r) (hlt : r.length ≤ f.length) (hdiff : diff = r.length - f.length) :
    ∃ y rest', s.replaceShorter find replace diff = .ok y ∧
      Holds y (replaceAll f r t) rest' := by
  have hcap := hs.capacity
  have hstart : Shorter s t f r rest t ⟨t ++ 0 :: rest, 0, 0, s.len⟩ := by
    refine ⟨hs.noNul, by simp; omega, [], _, 0, rfl, rfl, rfl, rfl, rfl, ?_⟩
    simpa using hs.len
  obtain ⟨v, x, hx, h, hq⟩ := whileFound_spec hf hne (fun _ _ h => h.read)
    (fun _ _ _ h hq => h.turn hf hr hne hlt hdiff hs.fits hq) hstart
    (n := (t ++ 0 :: rest).length + 1) (by simp)
  obtain ⟨d, q, k, hb, hwrite, hk, hrest, hd, hlen⟩ := h.scan
  have hsize := h.size
  have hqlen := length_of_drop hrest
  have hcopy := strcpyWithin_below (p := d) h.noNul hrest (n := x.bytes.length) (by
    rw [hb, List.length_append]
    omega)
  rw [replaceAll_none hq] at hd
  rw [hb, List.length_append] at hsize
  refine ⟨{ s with buffer := .block (d ++ (v ++ 0 :: q.drop (v.length + 1))), len := x.len },
    q.drop (v.length + 1), ?_, ?_, ?_, ?_, not_mem_replaceAll hne hs.noNul hr.noNul, hs.fits⟩
  · rw [replaceShorter, hs.buffer, Buffer.bytes, ok_bind, hx, ok_bind, hwrite, hk]
    rw [← hb] at hcopy
    rw [hcopy, ok_bind]
  · rw [← hd, List.append_assoc]
  · rw [hlen, ← hd, List.length_append]
  · simp only [← hd, List.length_append, List.length_drop]
    omega

/-! A replacement that is longer by 2^31 or more is taken for a shorter one. -/

theorem strstrAt_ge {k i : Nat} (h : strstrAt b k find = .ok (some i)) : k ≤ i := by
  obtain ⟨u, -, h⟩ := bind_eq_ok.mp h
  obtain ⟨v, -, h⟩ := bind_eq_ok.mp h
  obtain ⟨v, -, h⟩ := bind_eq_ok.mp h
  obtain ⟨j, -, rfl⟩ := Option.map_eq_some_iff.mp (Except.ok.inj h)
  exact Nat.le_add_right _ _

theorem whileFound_after {turn : Scan → Nat → Except Fault Scan} {J : Scan → Prop}
    (hturn : ∀ x i y, J x → x.readFrom ≤ i → turn x i = .ok y → J y) {x y : Scan} {n : Nat}
    (h : J x) (hy : whileFound find turn n x = .ok y) : J y := by
  induction n generalizing x with
  | zero => cases hy
  | succ n ih =>
    rw [whileFound] at hy
    obtain ⟨found, hfound, hy⟩ := bind_eq_ok.mp hy
    cases found with
    | none =>
      obtain rfl := Except.ok.inj hy
      exact h
    | some i =>
      obtain ⟨z, hz, hy⟩ := bind_eq_ok.mp hy
      exact ih (hturn x i z h (strstrAt_ge hfound) hz) hy

def Overtaken (x : Scan) : Prop := x.readFrom < x.writeTo ∧ Solid x.bytes x.readFrom x.writeTo

theorem shorterTurn_overtakes (hf : Holds find f frest) (hr : Contents replace r)
    (hlt : f.length < r.length) {x y : Scan} {i : Nat} (hle : x.readFrom ≤ x.writeTo)
    (h : Solid x.bytes x.readFrom x.writeTo) (hi : x.readFrom ≤ i)
    (hy : shorterTurn find replace diff x i = .ok y) : Overtaken y := by
  rw [shorterTurn, readBytes_eq hr] at hy
  obtain ⟨b, hb, hy⟩ := bind_eq_ok.mp hy
  rw [ok_bind] at hy
  obtain ⟨d, hd, hy⟩ := bind_eq_ok.mp hy
  obtain rfl := Except.ok.inj hy
  have hsolid := memcpy_solid hr.noNul (memcpyWithin_solid hle h hb) hd
  rw [Overtaken, hf.len, hr.len_eq]
  refine ⟨?_, fun m hm hm' => hsolid m ?_ hm'⟩
  · dsimp only
    omega
  · dsimp only at hm
    omega

theorem replaceShorter_fails (hs : Holds s t rest) (hf : Holds find f frest) (hne : f ≠ [])
    (hr : Contents replace r) (hlt : f.length < r.length) (hin : f <:+: t) (y : WString) :
    s.replaceShorter find replace diff ≠ .ok y := by
  intro hy
  rw [replaceShorter, hs.buffer, Buffer.bytes, ok_bind] at hy
  obtain ⟨x, hx, hy⟩ := bind_eq_ok.mp hy
  obtain ⟨b, hb, -⟩ := bind_eq_ok.mp hy
  have hx' : Overtaken x := by
    rw [whileFound] at hx
    obtain ⟨found, hfound, hx⟩ := bind_eq_ok.mp hx
    cases quiet_or_first f t with
    | inl hq => exact absurd hin ((quiet_nil_iff hne).mp hq)
    | inr hfirst =>
      obtain ⟨g, w, rfl, hq⟩ := hfirst
      have hread : cstring ((g ++ (f ++ w) ++ 0 :: rest).drop 0) = .ok (g ++ (f ++ w)) :=
        cstring_append hs.noNul rest
      rw [strstrAt_first hf hread hq] at hfound
      obtain rfl := Except.ok.inj hfound
      obtain ⟨z, hz, hx⟩ := bind_eq_ok.mp hx
      apply whileFound_after _ _ hx
      · exact fun x i y h hi hy => shorterTurn_overtakes hf hr hlt h.1.le h.2 hi hy
      · apply shorterTurn_overtakes hf hr hlt (Nat.le_refl 0) _ (Nat.zero_le _) hz
        exact fun m _ hm => absurd hm (Nat.not_lt_zero m)
  rw [strcpyWithin_behind hx'.1 hx'.2] at hb
  cases hb

/-! The size that the growing branch computes. -/

/-- The places counted so far, and the C string that is still to be read. -/
structure Counted (t f rest : List UInt8) (diff : Int) (w : List UInt8) (x : Scan) : Prop where
  noNul : 0 ∉ w
  read : x.bytes.drop x.readFrom = w ++ 0 :: rest
  len : ∃ m, occurrences f t = m + occurrences f w ∧ x.len = addInt t.length (m * diff)

theorem addInt_addInt (n : Nat) (d e : Int) : addInt (addInt n d) e = addInt n (d + e) := by
  unfold addInt
  rw [Int.toNat_of_nonneg (Int.emod_nonneg _ (by decide)), Int.emod_add_emod, Int.add_assoc]

theorem Counted.turn (hf : Holds find f frest) (hne : f ≠ []) {x : Scan}
    (h : Counted t f rest diff (g ++ (f ++ w)) x) (hq : Quiet f (f ++ w) g) :
    ∃ y, countTurn find diff x (x.readFrom + g.length) = .ok y ∧ Counted t f rest diff w y := by
  obtain ⟨m, hm, hlen⟩ := h.len
  refine ⟨_, rfl, noNul_of_first h.noNul, ?_, m + 1, ?_, ?_⟩
  · have hback : (g ++ (f ++ w) ++ 0 :: rest).drop (g.length + f.length) = w ++ 0 :: rest := by
      rw [List.append_assoc, ← List.drop_drop, List.drop_left, List.append_assoc, List.drop_left]
    rw [← h.read, List.drop_drop] at hback
    rw [← hback, hf.len, Nat.add_assoc]
  · rw [hm, occurrences_first hne hq]
    omega
  · dsimp only
    rw [hlen, addInt_addInt]
    congr 1
    push_cast
    ring

theorem countSize_eq (hs : Holds s t rest) (hf : Holds find f frest) (hne : f ≠ [])
    (diff : Int) :
    s.countSize find diff = .ok (addInt t.length (occurrences f t * diff)) := by
  have hfits := hs.contents.length_fits
  have hstart : Counted t f rest diff t ⟨t ++ 0 :: rest, 0, 0, s.len⟩ := by
    refine ⟨hs.noNul, rfl, 0, by omega, ?_⟩
    rw [addInt_eq (m := t.length) (by simp) (by omega)]
    exact hs.len
  obtain ⟨v, x, hx, h, hq⟩ := whileFound_spec hf hne
    (fun w x h => by rw [h.read]; exact cstring_append h.noNul rest)
    (fun _ _ _ h hq => h.turn hf hne hq) hstart (n := (t ++ 0 :: rest).length + 1) (by simp)
  obtain ⟨m, hm, hlen⟩ := h.len
  rw [occurrences_none hq, Nat.add_zero] at hm
  rw [countSize, hs.buffer, Buffer.bytes, ok_bind, hx, ok_bind, hlen, hm]

end RasPiArduino.WString
