import Mathlib
import RasPiArduino.LinkedList
import RasPiArduino.Machine
import RasPiArduino.WStringOrder
import RasPiArduino.WStringInvariant

/-! StringArray.h: a list of Strings on nodes that new allocates, and the list of texts it is.
The allocations of the Strings succeed; each has an argument for what comes of it. -/
namespace RasPiArduino.StringArray
open LinkedList CMemory

/-- The nodes and `_items`; `news` and `deletes` record the addresses that new has returned
and those that delete has been given. -/
structure State where
  heap : Heap WString
  items : Option Nat
  news : List Nat
  deletes : List Nat

/-- The constructor, where the heap holds the nodes of others. -/
def init (h : Heap WString) : State := ⟨h, none, [], []⟩

def copyOf (v : WString) (a : Alloc) : Option WString := (WString.ofString v (some a)).toOption

def string (h : Heap WString) (it : Nat) (a : Alloc) : Option WString := do
  let c ← h it
  copyOf c.value a

/-- new StringArrayItem(str) at `x`: the constructor is given a copy and keeps another. -/
def newItem (s : State) (str : WString) (x : Nat) (a b : Alloc) : Option State := do
  let str ← copyOf str a
  let _string ← copyOf str b
  some { s with
    heap := Function.update s.heap x (some ⟨_string, none⟩)
    news := s.news ++ [x] }

def delete (s : State) (it : Nat) : Option State :=
  (LinkedList.free s.heap it).map fun h => { s with heap := h, deletes := s.deletes ++ [it] }

def deleteBehind (s : State) (pit it : Nat) : Option State := do
  let c ← s.heap it
  let h ← setNext s.heap pit c.next
  delete { s with heap := h } it

def deleteFirst (s : State) (it : Nat) : Option State := do
  let c ← s.heap it
  delete { s with items := c.next } it

def last (h : Heap WString) : Nat → Nat → Option Nat
  | 0, _ => none
  | n+1, i => do
    let c ← h i
    match c.next with
    | none => some i
    | some j => last h n j

def rounds (s : State) : Nat := s.news.length + 1

def add (s : State) (str : WString) (x : Nat) (a b : Alloc) : Option State := do
  let s ← newItem s str x a b
  match s.items with
  | none => some { s with items := some x }
  | some i => do
    let i ← last s.heap (rounds s) i
    let h ← setNext s.heap i (some x)
    some { s with heap := h }

def lengthLoop (h : Heap WString) : Nat → Nat → Option Nat → Option Nat
  | 0, _, _ => none
  | _+1, i, none => some i
  | n+1, i, some it => do
    let c ← h it
    lengthLoop h n (i+1) c.next

def length (s : State) : Option Nat := lengthLoop s.heap (rounds s) 0 s.items

def containsLoop (h : Heap WString) (str : WString) (a : Nat → Alloc) :
    Nat → Option Nat → Option Bool
  | 0, _ => none
  | _+1, none => some false
  | n+1, some it => do
    let t ← string h it (a it)
    let same ← (t.equals str).toOption
    if same then some true
    else do
      let c ← h it
      containsLoop h str a n c.next

def contains (s : State) (str : WString) (a : Nat → Alloc) : Option Bool :=
  containsLoop s.heap str a (rounds s) s.items

def getLoop (h : Heap WString) (index : Nat) (a : Alloc) :
    Nat → Nat → Option Nat → Option WString
  | 0, _, _ => none
  | _+1, _, none => (WString.ofCstr (some []) (some a)).toOption
  | n+1, i, some it =>
    if i = index then string h it a
    else do
      let c ← h it
      getLoop h index a n (i+1) c.next

def get (s : State) (index : Nat) (a : Alloc) : Option WString :=
  getLoop s.heap index a (rounds s) 0 s.items

def removeAtLoop (s : State) (index : Nat) :
    Nat → Nat → Option Nat → Option Nat → Option (Bool × State)
  | 0, _, _, _ => none
  | _+1, _, none, _ => some (false, s)
  | n+1, i, some it, pit =>
    if i = index then do
      let pit ← pit
      let s ← deleteBehind s pit it
      some (true, s)
    else do
      let c ← s.heap it
      removeAtLoop s index n (i+1) c.next (some it)

def removeAt (s : State) (index : Nat) : Option (Bool × State) :=
  if index = 0 then
    match s.items with
    | none => some (false, s)
    | some it => do
      let s ← deleteFirst s it
      some (true, s)
  else removeAtLoop s index (rounds s) 0 s.items s.items

def removeLoop (s : State) (str : WString) (a : Nat → Alloc) :
    Nat → Option Nat → Option Nat → Option (Bool × State)
  | 0, _, _ => none
  | _+1, none, _ => some (false, s)
  | n+1, some it, pit => do
    let t ← string s.heap it (a it)
    let same ← (t.equals str).toOption
    if same then
      if some it = s.items then do
        let s ← deleteFirst s it
        some (true, s)
      else do
        let pit ← pit
        let s ← deleteBehind s pit it
        some (true, s)
    else do
      let c ← s.heap it
      removeLoop s str a n c.next (some it)

def remove (s : State) (str : WString) (a : Nat → Alloc) : Option (Bool × State) :=
  removeLoop s str a (rounds s) s.items s.items

def freeLoop : Nat → State → Option State
  | 0, _ => none
  | n+1, s => match s.items with
    | none => some s
    | some it => do
      let s ← deleteFirst s it
      freeLoop n s

def free (s : State) : Option State := freeLoop (rounds s) s

inductive Op where
  | add (str : WString) (x : Nat) (a b : Alloc)
  | removeAt (index : Nat)
  | remove (str : WString) (a : Nat → Alloc)
  | free
  | length
  | contains (str : WString) (a : Nat → Alloc)
  | get (index : Nat) (a : Alloc)

inductive Answer (α : Type) where
  | done
  | flag (b : Bool)
  | size (n : Nat)
  | string (t : α)

def step (s : State) : Op → Option (Answer WString × State)
  | .add str x a b => (add s str x a b).map fun t => (.done, t)
  | .removeAt index => (removeAt s index).map fun (b, t) => (.flag b, t)
  | .remove str a => (remove s str a).map fun (b, t) => (.flag b, t)
  | .free => (free s).map fun t => (.done, t)
  | .length => (length s).map fun n => (.size n, s)
  | .contains str a => (contains s str a).map fun b => (.flag b, s)
  | .get index a => (get s index a).map fun t => (.string t, s)

/-! The list of texts. -/

inductive ListOp (α : Type) where
  | add (t : α)
  | removeAt (index : Nat)
  | remove (t : α)
  | free
  | length
  | contains (t : α)
  | get (index : Nat)

def listStep {α : Type} [BEq α] [LawfulBEq α] (e : α) (l : List α) : ListOp α → Answer α × List α
  | .add t => (.done, l ++ [t])
  | .removeAt index => (.flag (decide (index < l.length)), l.eraseIdx index)
  | .remove t => (.flag (decide (t ∈ l)), l.erase t)
  | .free => (.done, [])
  | .length => (.size l.length, l)
  | .contains t => (.flag (decide (t ∈ l)), l)
  | .get index => (.string (l.getD index e), l)

def Op.onTexts : Op → ListOp (List UInt8)
  | .add str _ _ _ => .add str.chars
  | .removeAt index => .removeAt index
  | .remove str _ => .remove str.chars
  | .free => .free
  | .length => .length
  | .contains str _ => .contains str.chars
  | .get index _ => .get index

def Answer.texts : Answer WString → Answer (List UInt8)
  | .done => .done
  | .flag b => .flag b
  | .size n => .size n
  | .string t => .string t.chars

def Usable (v : WString) : Prop := ∃ rest, WString.Holds v v.chars rest

/-- The String arguments are valid, and new returns an address where no node is. -/
def Op.Fits (s : State) : Op → Prop
  | .add str x _ _ => Usable str ∧ s.heap x = none
  | .remove str _ | .contains str _ => Usable str
  | _ => True

def behind (v : WString) : List UInt8 :=
  match v.buffer with
  | .block b => b.drop (v.chars.length + 1)
  | _ => []

theorem usable_iff {v : WString} : Usable v ↔
    v.buffer = .block (v.chars ++ 0 :: behind v) ∧ v.len = v.chars.length ∧
      v.capacity = v.chars.length + (behind v).length ∧ 0 ∉ v.chars ∧ v.capacity + 1 < 2^32 := by
  constructor
  · rintro ⟨rest, h⟩
    have hrest : behind v = rest := by
      rw [behind, h.buffer]
      simp
    rw [hrest]
    exact ⟨h.buffer, h.len, h.capacity, h.noNul, h.fits⟩
  · rintro ⟨hb, hlen, hcap, hnul, hfits⟩
    exact ⟨_, hb, hlen, hcap, hnul, hfits⟩

instance (v : WString) : Decidable (Usable v) := decidable_of_iff' _ usable_iff

instance (s : State) : (o : Op) → Decidable (o.Fits s)
  | .add str x _ _ => inferInstanceAs (Decidable (Usable str ∧ s.heap x = none))
  | .remove str _ | .contains str _ => inferInstanceAs (Decidable (Usable str))
  | .removeAt _ | .free | .length | .get _ _ => isTrue trivial

def texts (l : List (Nat × WString)) : List (List UInt8) := l.map fun c => c.2.chars

/-- The array owns the nodes of `l` in a heap with those of `h` besides: they are linked from
`_items`, and of the nodes that new has made the others have each been deleted. -/
structure Owns (h : Heap WString) (s : State) (l : List (Nat × WString)) : Prop where
  chain : Chain s.heap s.items l
  apart : ∀ a ∈ s.news, h a = none
  frame : ∀ a ∉ addresses l, s.heap a = h a
  nodes : s.news.Perm (s.deletes ++ addresses l)
  usable : ∀ c ∈ l, Usable c.2

variable {s t : State} {h₀ h : Heap WString} {l m : List (Nat × WString)} {v w str : WString}
  {a b c x n i index : Nat} {p q : Option Nat}

/-! Copies and comparisons. -/

theorem Usable.contents (hv : Usable v) : WString.Contents v v.chars := by
  obtain ⟨rest, hv⟩ := hv
  exact hv.contents

theorem copyOf_spec (hv : Usable v) (a : Alloc) :
    ∃ w, copyOf v a = some w ∧ Usable w ∧ w.chars = v.chars := by
  obtain ⟨rest, hv⟩ := hv
  have hne : v.buffer ≠ .null := by simp [hv.buffer]
  obtain ⟨w, t, hw, hcw, hgranted⟩ :=
    WString.copy_contents (a := some a) WString.init_contents hv.noNul hv.contents.length_fits
  obtain ⟨rfl, hb⟩ := hgranted fun hr => Option.some_ne_none a hr.1
  obtain ⟨rest', hrest'⟩ := hcw.holds hb
  have hchars : w.chars = v.chars := hcw.chars
  refine ⟨w, ?_, ⟨rest', hchars ▸ hrest'⟩, hchars⟩
  rw [copyOf, WString.ofString, WString.assign, if_pos hne, hv.buffer, Buffer.bytes, ok_bind,
    cstring_append hv.noNul, ok_bind, hv.len, hw]
  rfl

theorem equals_spec (hv : Usable v) (hw : Usable w) :
    (v.equals w).toOption = some (decide (v.chars = w.chars)) := by
  rw [WString.equals_eq hv.contents hw.contents]
  rfl

theorem empty_spec (a : Alloc) : ∃ w, (WString.ofCstr (some []) (some a)).toOption = some w ∧
    Usable w ∧ w.chars = [] := by
  obtain ⟨w, t, hw, hcw, hgranted⟩ :=
    WString.copy_contents (t := []) (a := some a) WString.init_contents (by simp) (by simp)
  obtain ⟨rfl, hb⟩ := hgranted fun hr => Option.some_ne_none a hr.1
  obtain ⟨rest, hrest⟩ := hcw.holds hb
  have hchars : w.chars = [] := hcw.chars
  refine ⟨w, ?_, ⟨rest, hchars ▸ hrest⟩, hchars⟩
  rw [WString.ofCstr]
  exact congrArg Except.toOption hw

/-! The loops that change nothing. -/

theorem string_spec (hc : h a = some ⟨v, q⟩) (hv : Usable v) (b : Alloc) :
    ∃ w, string h a b = some w ∧ Usable w ∧ w.chars = v.chars := by
  obtain ⟨w, hw, hu, he⟩ := copyOf_spec hv b
  exact ⟨w, by rw [string, hc, Option.bind_eq_bind, Option.bind_some, hw], hu, he⟩

theorem lengthLoop_spec (hl : Chain h p l) (hn : l.length < n) :
    lengthLoop h n i p = some (i + l.length) := by
  induction l generalizing n i p with
  | nil =>
    obtain ⟨n, rfl⟩ := Nat.exists_eq_add_one.mpr (Nat.zero_lt_of_lt hn)
    obtain rfl : p = none := hl
    rfl
  | cons c l ih =>
    obtain ⟨n, rfl⟩ := Nat.exists_eq_add_one.mpr (Nat.zero_lt_of_lt hn)
    obtain ⟨rfl, r, hc, hl⟩ := hl
    rw [lengthLoop, hc, Option.bind_eq_bind, Option.bind_some, ih hl (Nat.lt_of_succ_lt_succ hn),
      List.length_cons]
    congr 1
    omega

theorem containsLoop_spec (hl : Chain h p l) (hn : l.length < n) (hu : ∀ c ∈ l, Usable c.2)
    (hstr : Usable str) (a : Nat → Alloc) :
    containsLoop h str a n p = some (decide (str.chars ∈ texts l)) := by
  induction l generalizing n p with
  | nil =>
    obtain ⟨n, rfl⟩ := Nat.exists_eq_add_one.mpr (Nat.zero_lt_of_lt hn)
    obtain rfl : p = none := hl
    rfl
  | cons c l ih =>
    obtain ⟨n, rfl⟩ := Nat.exists_eq_add_one.mpr (Nat.zero_lt_of_lt hn)
    obtain ⟨rfl, r, hc, hl⟩ := hl
    obtain ⟨hcu, hlu⟩ := List.forall_mem_cons.mp hu
    obtain ⟨w, hw, hwu, hchars⟩ := string_spec hc hcu (a c.1)
    have hrest := ih hl (Nat.lt_of_succ_lt_succ hn) hlu
    simp only [containsLoop, hw, equals_spec hwu hstr, hchars, hc, hrest, Option.bind_eq_bind,
      Option.bind_some, decide_eq_true_eq]
    split
    · next he => exact congrArg some (decide_eq_true (by simp [texts, he])).symm
    · next he => exact congrArg some (decide_eq_decide.mpr (by simp [texts, Ne.symm he]))

theorem getLoop_spec (hl : Chain h p l) (hn : l.length < n) (hu : ∀ c ∈ l, Usable c.2)
    (hi : i ≤ index) (a : Alloc) : ∃ w, getLoop h index a n i p = some w ∧ Usable w ∧
      w.chars = (texts l).getD (index - i) [] := by
  induction l generalizing n i p with
  | nil =>
    obtain ⟨n, rfl⟩ := Nat.exists_eq_add_one.mpr (Nat.zero_lt_of_lt hn)
    obtain rfl : p = none := hl
    exact empty_spec a
  | cons c l ih =>
    obtain ⟨n, rfl⟩ := Nat.exists_eq_add_one.mpr (Nat.zero_lt_of_lt hn)
    obtain ⟨rfl, r, hc, hl⟩ := hl
    obtain ⟨hcu, hlu⟩ := List.forall_mem_cons.mp hu
    obtain rfl | hlt := hi.eq_or_lt
    · obtain ⟨w, hw, hwu, hchars⟩ := string_spec hc hcu a
      exact ⟨w, by rw [getLoop, if_pos rfl, hw], hwu, by simpa [texts] using hchars⟩
    · obtain ⟨w, hw, hwu, hchars⟩ := ih hl (Nat.lt_of_succ_lt_succ hn) hlu hlt
      refine ⟨w, ?_, hwu, ?_⟩
      · rw [getLoop, if_neg hlt.ne, hc, Option.bind_eq_bind, Option.bind_some, hw]
      · have hpred : index - i = (index - (i+1)) + 1 := by omega
        rw [hchars, hpred]
        exact List.getD_cons_succ.symm

theorem last_spec (hl : Chain h (some b) (l ++ [(a, v)])) (hn : l.length < n) :
    last h n b = some a := by
  induction l generalizing n b with
  | nil =>
    obtain ⟨n, rfl⟩ := Nat.exists_eq_add_one.mpr (Nat.zero_lt_of_lt hn)
    obtain ⟨he, r, hc, rfl⟩ := hl
    obtain rfl : b = a := Option.some.inj he
    simp [last, hc]
  | cons c l ih =>
    obtain ⟨n, rfl⟩ := Nat.exists_eq_add_one.mpr (Nat.zero_lt_of_lt hn)
    obtain ⟨he, r, hc, hl⟩ := hl
    obtain rfl : b = c.1 := Option.some.inj he
    obtain ⟨d, rfl⟩ : ∃ d, r = some d := by
      cases l with
      | nil => exact ⟨_, hl.1⟩
      | cons d l => exact ⟨_, hl.1⟩
    simp only [last, hc, Option.bind_eq_bind, Option.bind_some]
    exact ih hl (Nat.lt_of_succ_lt_succ hn)

/-! Removal of one node. -/

/-- From `s` to `t` the node at `b`, between those of `l` and `m`, is taken out and deleted. -/
structure Took (s t : State) (l : List (Nat × WString)) (b : Nat) (m : List (Nat × WString)) :
    Prop where
  chain : Chain t.heap t.items (l ++ m)
  gone : t.heap b = none
  frame : ∀ c ∉ addresses (l ++ m), c ≠ b → t.heap c = s.heap c
  news : t.news = s.news
  deletes : t.deletes = s.deletes ++ [b]

theorem Owns.took (ho : Owns h₀ s (l ++ (b, w) :: m)) (ht : Took s t l b m) :
    Owns h₀ t (l ++ m) := by
  have hsub : (l ++ m).Sublist (l ++ (b, w) :: m) :=
    (List.Sublist.refl l).append (List.sublist_cons_self _ _)
  have hb : b ∈ s.news := ho.nodes.mem_iff.mpr (by simp)
  refine ⟨ht.chain, ht.news ▸ ho.apart, fun c hc => ?_, ?_,
    fun c hc => ho.usable c (hsub.subset hc)⟩
  · by_cases hcb : c = b
    · rw [hcb, ht.gone, ho.apart b hb]
    · rw [ht.frame c hc hcb, ho.frame c (by simpa [hcb] using hc)]
  · rw [ht.news, ht.deletes, List.append_assoc]
    refine ho.nodes.trans (List.Perm.append_left _ ?_)
    simp only [addresses, List.map_append, List.map_cons]
    exact List.perm_middle

theorem deleteBehind_took (hl : Chain s.heap s.items (l ++ (a, v) :: (b, w) :: m)) :
    ∃ t, deleteBehind s a b = some t ∧ Took s t (l ++ [(a, v)]) b m := by
  obtain ⟨h, q, hu, hchain, hb, -, hgone, hframe⟩ := hl.unlink
  obtain ⟨c, h₁, hc, hset, hfree⟩ := unlink_eq_some.mp hu
  obtain rfl := Option.some.inj (hb.symm.trans hc)
  refine ⟨{ s with heap := h, deletes := s.deletes ++ [b] }, ?_, ?_, hgone, ?_, rfl, rfl⟩
  · simp [deleteBehind, delete, hb, hset, hfree]
  · simpa using hchain
  · intro c hc hcb
    exact hframe c (fun he => hc (by simp [he])) hcb

theorem deleteFirst_took (hl : Chain s.heap s.items ((b, w) :: m)) :
    ∃ t, deleteFirst s b = some t ∧ Took s t [] b m := by
  have hitems : s.items = some b := hl.1
  rw [hitems] at hl
  obtain ⟨h, q, hfree, hb, hchain, hgone, hframe⟩ := hl.free_first
  refine ⟨{ s with heap := h, items := q, deletes := s.deletes ++ [b] }, ?_, hchain, hgone,
    fun c _ hcb => hframe c hcb, rfl, rfl⟩
  simp [deleteFirst, delete, hb, hfree]

def Removes (s : State) (l : List (Nat × WString)) (k : Nat) (r : Option (Bool × State)) : Prop :=
  (l.length ≤ k ∧ r = some (false, s)) ∨
    ∃ l₁ c l₂ t, l = l₁ ++ c :: l₂ ∧ l₁.length = k ∧ r = some (true, t) ∧ Took s t l₁ c.1 l₂

theorem Owns.removes {k : Nat} {r : Option (Bool × State)} (ho : Owns h₀ s l)
    (hr : Removes s l k r) :
    ∃ t, r = some (decide (k < l.length), t) ∧ Owns h₀ t (l.eraseIdx k) := by
  obtain ⟨hk, rfl⟩ | ⟨l₁, c, l₂, t, rfl, rfl, rfl, ht⟩ := hr
  · exact ⟨s, by rw [decide_eq_false (by omega)], by rwa [List.eraseIdx_of_length_le hk]⟩
  · refine ⟨t, by rw [decide_eq_true (by simp)], ?_⟩
    rw [List.eraseIdx_append_of_length_le le_rfl, Nat.sub_self, List.eraseIdx_cons_zero]
    exact ho.took ht

theorem removeAtLoop_spec (hl : Chain s.heap s.items (l ++ (a, v) :: m))
    (ha : s.heap a = some ⟨v, q⟩) (hn : m.length < n) (hi : i ≤ index) :
    Removes s (l ++ (a, v) :: m) (l.length + 1 + (index - i))
      (removeAtLoop s index n i q (some a)) := by
  induction m generalizing l a v q n i with
  | nil =>
    obtain ⟨n, rfl⟩ := Nat.exists_eq_add_one.mpr (Nat.zero_lt_of_lt hn)
    obtain rfl : q = none := hl.behind ha
    exact .inl ⟨by simp, rfl⟩
  | cons c m ih =>
    obtain ⟨b, w⟩ := c
    obtain ⟨n, rfl⟩ := Nat.exists_eq_add_one.mpr (Nat.zero_lt_of_lt hn)
    obtain rfl : q = some b := (hl.behind ha).1
    have hl' : Chain s.heap s.items ((l ++ [(a, v)]) ++ (b, w) :: m) := by simpa using hl
    obtain rfl | hlt := hi.eq_or_lt
    · obtain ⟨t, ht, htook⟩ := deleteBehind_took hl
      refine .inr ⟨l ++ [(a, v)], (b, w), m, t, by simp, by simp, ?_, htook⟩
      simp [removeAtLoop, ht]
    · obtain ⟨r, hb, -, -⟩ := hl'.at
      have hrest := ih (n := n) hl' hb (Nat.lt_of_succ_lt_succ hn) hlt
      have hk : (l ++ [(a, v)]).length + 1 + (index - (i+1)) = l.length + 1 + (index - i) := by
        simp
        omega
      rw [hk, List.append_assoc] at hrest
      rw [removeAtLoop, if_neg hlt.ne, hb]
      exact hrest

theorem removeAt_spec (ho : Owns h₀ s l) (hn : l.length < rounds s) (index : Nat) :
    Removes s l index (removeAt s index) := by
  rw [removeAt]
  cases l with
  | nil =>
    have hitems : s.items = none := ho.chain
    refine .inl ⟨Nat.zero_le _, ?_⟩
    rw [hitems, rounds, removeAtLoop]
    split <;> rfl
  | cons c l =>
    have hitems : s.items = some c.1 := ho.chain.1
    obtain ⟨r, hc, -, -⟩ := Chain.at (l := []) ho.chain
    split
    · next hzero =>
      obtain ⟨t, ht, htook⟩ := deleteFirst_took ho.chain
      refine .inr ⟨[], c, l, t, rfl, hzero.symm, ?_, htook⟩
      simp [hitems, ht]
    · next hzero =>
      have hpos : 1 ≤ index := Nat.one_le_iff_ne_zero.mpr hzero
      have hloop := removeAtLoop_spec (l := []) ho.chain hc (Nat.lt_of_succ_lt_succ hn) hpos
      have hk : ([] : List (Nat × WString)).length + 1 + (index - 1) = index := by
        simp
        omega
      rw [hk] at hloop
      rw [rounds, removeAtLoop.eq_def]
      simp only [hitems, Ne.symm hzero, if_false, hc, Option.bind_eq_bind, Option.bind_some]
      exact hloop

/-- The rounds with a node in front, no node so far having been the one sought. -/
theorem removeLoop_spec (hl : Chain s.heap s.items (l ++ (a, v) :: m))
    (hu : ∀ c ∈ m, Usable c.2) (hstr : Usable str) (hno : str.chars ∉ texts (l ++ [(a, v)]))
    (ha : s.heap a = some ⟨v, q⟩) (hn : m.length < n) (copies : Nat → Alloc) :
    Removes s (l ++ (a, v) :: m) ((texts (l ++ (a, v) :: m)).idxOf str.chars)
      (removeLoop s str copies n q (some a)) := by
  induction m generalizing l a v q n with
  | nil =>
    obtain ⟨n, rfl⟩ := Nat.exists_eq_add_one.mpr (Nat.zero_lt_of_lt hn)
    obtain rfl : q = none := hl.behind ha
    refine .inl ⟨?_, rfl⟩
    rw [List.idxOf_eq_length hno, texts, List.length_map]
  | cons c m ih =>
    obtain ⟨b, w⟩ := c
    obtain ⟨n, rfl⟩ := Nat.exists_eq_add_one.mpr (Nat.zero_lt_of_lt hn)
    obtain rfl : q = some b := (hl.behind ha).1
    obtain ⟨hwu, hmu⟩ := List.forall_mem_cons.mp hu
    have hl' : Chain s.heap s.items ((l ++ [(a, v)]) ++ (b, w) :: m) := by simpa using hl
    obtain ⟨r, hb, -, -⟩ := hl'.at
    obtain ⟨w', hw', hw'u, hchars⟩ := string_spec hb hwu (copies b)
    have hsame := equals_spec hw'u hstr
    rw [hchars] at hsame
    simp only [removeLoop, hw', hsame, hb, Option.bind_eq_bind, Option.bind_some,
      decide_eq_true_eq]
    split
    · next he =>
      have hfirst : some b ≠ s.items := by
        -- `_items` points to one of the nodes in front
        intro hbi
        refine hl'.apart.1 ?_
        cases l with
        | nil => exact List.mem_singleton.mpr (Option.some.inj (hbi.trans hl.1))
        | cons d l =>
          rw [Option.some.inj (hbi.trans hl.1)]
          exact List.mem_cons_self
      obtain ⟨t, ht, htook⟩ := deleteBehind_took hl
      refine .inr ⟨l ++ [(a, v)], (b, w), m, t, by simp, ?_, ?_, htook⟩
      · have happ : texts (l ++ (a, v) :: (b, w) :: m) =
            texts (l ++ [(a, v)]) ++ str.chars :: texts m := by
          simp [texts, he]
        rw [happ, List.idxOf_append, if_neg hno, List.idxOf_cons_self, texts, List.length_map]
        simp
      · simp [hfirst, ht]
    · next he =>
      have hno' : str.chars ∉ texts ((l ++ [(a, v)]) ++ [(b, w)]) := by
        rw [texts, List.map_append, List.mem_append, not_or]
        exact ⟨hno, by simpa using Ne.symm he⟩
      have hrest := ih (n := n) hl' hmu hno' hb (Nat.lt_of_succ_lt_succ hn)
      rw [List.append_assoc] at hrest
      exact hrest

theorem remove_spec (ho : Owns h₀ s l) (hn : l.length < rounds s) (hstr : Usable str)
    (copies : Nat → Alloc) :
    Removes s l ((texts l).idxOf str.chars) (remove s str copies) := by
  rw [remove]
  cases l with
  | nil =>
    have hitems : s.items = none := ho.chain
    refine .inl ⟨Nat.zero_le _, ?_⟩
    rw [hitems, rounds, removeLoop]
  | cons c l =>
    have hitems : s.items = some c.1 := ho.chain.1
    obtain ⟨hcu, hlu⟩ := List.forall_mem_cons.mp ho.usable
    obtain ⟨r, hc, -, -⟩ := Chain.at (l := []) ho.chain
    obtain ⟨w, hw, hwu, hchars⟩ := string_spec hc hcu (copies c.1)
    have hsame := equals_spec hwu hstr
    rw [hchars] at hsame
    rw [rounds, hitems]
    simp only [removeLoop, hw, hsame, hc, Option.bind_eq_bind, Option.bind_some,
      decide_eq_true_eq]
    split
    · next he =>
      obtain ⟨t, ht, htook⟩ := deleteFirst_took ho.chain
      refine .inr ⟨[], c, l, t, rfl, ?_, ?_, htook⟩
      · simp [texts, he]
      · simp [hitems, ht]
    · next he =>
      have hno : str.chars ∉ texts ([] ++ [(c.1, c.2)]) := by
        simpa [texts] using Ne.symm he
      exact removeLoop_spec (l := []) ho.chain hlu hstr hno hc (Nat.lt_of_succ_lt_succ hn) copies

theorem freeLoop_spec (ho : Owns h₀ s l) (hn : l.length < n) :
    ∃ t, freeLoop n s = some t ∧ Owns h₀ t [] := by
  induction l generalizing s n with
  | nil =>
    obtain ⟨n, rfl⟩ := Nat.exists_eq_add_one.mpr (Nat.zero_lt_of_lt hn)
    have hitems : s.items = none := ho.chain
    exact ⟨s, by simp [freeLoop, hitems], ho⟩
  | cons c l ih =>
    obtain ⟨n, rfl⟩ := Nat.exists_eq_add_one.mpr (Nat.zero_lt_of_lt hn)
    have hitems : s.items = some c.1 := ho.chain.1
    obtain ⟨t, ht, htook⟩ := deleteFirst_took ho.chain
    obtain ⟨u, hu, hou⟩ := ih (Owns.took (l := []) ho htook) (Nat.lt_of_succ_lt_succ hn)
    exact ⟨u, by simp [freeLoop, hitems, ht, hu], hou⟩

theorem Owns.fresh (ho : Owns h₀ s l) (hx : s.heap x = none) :
    x ∉ addresses l ∧ h₀ x = none := by
  have hxl : x ∉ addresses l := by
    intro hmem
    obtain ⟨e, he⟩ := ho.chain.allocated hmem
    simp [hx] at he
  exact ⟨hxl, (ho.frame x hxl).symm.trans hx⟩

theorem Owns.append (ho : Owns h₀ s l) (hx : s.heap x = none) (hw : Usable w)
    (hchain : Chain t.heap t.items (l ++ [(x, w)])) (hnews : t.news = s.news ++ [x])
    (hdeletes : t.deletes = s.deletes)
    (hframe : ∀ a ∉ addresses (l ++ [(x, w)]), t.heap a = s.heap a) :
    Owns h₀ t (l ++ [(x, w)]) := by
  obtain ⟨-, hx₀⟩ := ho.fresh hx
  refine ⟨hchain, ?_, fun a ha => ?_, ?_, ?_⟩
  · rw [hnews]
    simpa [or_imp, forall_and, hx₀] using ho.apart
  · have hal : a ∉ addresses l := by
      intro hmem
      refine ha ?_
      rw [addresses, List.map_append]
      exact List.mem_append_left _ hmem
    exact (hframe a ha).trans (ho.frame a hal)
  · rw [hnews, hdeletes, addresses, List.map_append, ← List.append_assoc]
    exact ho.nodes.append_right _
  · simpa [or_imp, forall_and, hw] using ho.usable

theorem newItem_spec (hstr : Usable str) (x : Nat) (c d : Alloc) :
    ∃ w, newItem s str x c d = some { s with
        heap := Function.update s.heap x (some ⟨w, none⟩)
        news := s.news ++ [x] } ∧ Usable w ∧ w.chars = str.chars := by
  obtain ⟨v, hv, hvu, hve⟩ := copyOf_spec hstr c
  obtain ⟨w, hw, hwu, hwe⟩ := copyOf_spec hvu d
  exact ⟨w, by simp [newItem, hv, hw], hwu, hwe.trans hve⟩

theorem add_spec (ho : Owns h₀ s l) (hn : l.length < rounds s) (hstr : Usable str)
    (hx : s.heap x = none) (c d : Alloc) : ∃ t w, add s str x c d = some t ∧
      Owns h₀ t (l ++ [(x, w)]) ∧ w.chars = str.chars := by
  obtain ⟨w, hnew, hwu, hwe⟩ := newItem_spec (s := s) hstr x c d
  obtain rfl | ⟨l, e, rfl⟩ := l.eq_nil_or_concat'
  · have hitems : s.items = none := ho.chain
    refine ⟨{ s with
      heap := Function.update s.heap x (some ⟨w, none⟩)
      items := some x
      news := s.news ++ [x] }, w, by simp [add, hnew, hitems], ?_, hwe⟩
    refine ho.append hx hwu ⟨rfl, none, Function.update_self _ _ _, rfl⟩ rfl rfl fun a ha => ?_
    have hax : a ≠ x := by simpa using ha
    exact Function.update_of_ne hax _ _
  · obtain ⟨a, u⟩ := e
    obtain ⟨b, hitems⟩ : ∃ b, s.items = some b := by
      cases l with
      | nil => exact ⟨_, ho.chain.1⟩
      | cons f l => exact ⟨_, ho.chain.1⟩
    obtain ⟨h, hset, hchain, hframe⟩ := ho.chain.append hx w
    have hlast : last (Function.update s.heap x (some ⟨w, none⟩)) (s.news.length + 1 + 1) b =
        some a := by
      refine last_spec (l := l) (v := u) (hitems ▸ ho.chain.update (ho.fresh hx).1 _) ?_
      rw [List.length_append, rounds] at hn
      omega
    refine ⟨{ s with heap := h, news := s.news ++ [x] }, w, ?_, ?_, hwe⟩
    · simp [add, hnew, hitems, rounds, hlast, hset]
    · refine ho.append hx hwu (by simpa using hchain) rfl rfl fun c hc => ?_
      have hca : c ≠ a := fun he => hc (by simp [he])
      have hcx : c ≠ x := fun he => hc (by simp [he])
      exact hframe c hca hcx

/-! Every operation is the one of the list of texts. -/

theorem Owns.rounds (ho : Owns h₀ s l) : l.length < rounds s := by
  have hlen := ho.nodes.length_eq
  rw [List.length_append, addresses, List.length_map] at hlen
  rw [StringArray.rounds]
  omega

theorem texts_eraseIdx (k : Nat) : texts (l.eraseIdx k) = (texts l).eraseIdx k :=
  (List.eraseIdx_map _ _ _).symm

theorem step_spec (ho : Owns h₀ s l) (o : Op) (hfits : o.Fits s) :
    ∃ r t l', step s o = some (r, t) ∧ Owns h₀ t l' ∧
      listStep [] (texts l) o.onTexts = (r.texts, texts l') := by
  have hn := ho.rounds
  cases o with
  | add str x a b =>
    obtain ⟨t, w, ht, hot, hw⟩ := add_spec ho hn hfits.1 hfits.2 a b
    refine ⟨.done, t, _, by rw [step, ht, Option.map_some], hot, ?_⟩
    simp [listStep, Op.onTexts, Answer.texts, texts, hw]
  | removeAt index =>
    obtain ⟨t, ht, hot⟩ := ho.removes (removeAt_spec ho hn index)
    refine ⟨.flag _, t, _, by rw [step, ht, Option.map_some], hot, ?_⟩
    rw [texts_eraseIdx]
    simp [listStep, Op.onTexts, Answer.texts, texts]
  | remove str a =>
    obtain ⟨t, ht, hot⟩ := ho.removes (remove_spec ho hn hfits a)
    refine ⟨.flag _, t, _, by rw [step, ht, Option.map_some], hot, ?_⟩
    have hlen : l.length = (texts l).length := (List.length_map _).symm
    rw [texts_eraseIdx, List.eraseIdx_idxOf_eq_erase, hlen]
    simp [listStep, Op.onTexts, Answer.texts, List.idxOf_lt_length_iff]
  | free =>
    obtain ⟨t, ht, hot⟩ := freeLoop_spec ho hn
    exact ⟨.done, t, [], by rw [step, free, ht, Option.map_some], hot, rfl⟩
  | length =>
    refine ⟨.size (0 + l.length), s, l, ?_, ho, ?_⟩
    · rw [step, length, lengthLoop_spec ho.chain hn, Option.map_some]
    · simp [listStep, Op.onTexts, Answer.texts, texts]
  | contains str a =>
    refine ⟨.flag _, s, l, ?_, ho, rfl⟩
    rw [step, contains, containsLoop_spec ho.chain hn ho.usable hfits a, Option.map_some]
  | get index a =>
    obtain ⟨w, hw, -, hchars⟩ :=
      getLoop_spec ho.chain hn ho.usable (Nat.zero_le index) a
    refine ⟨.string w, s, l, by rw [step, get, hw, Option.map_some], ho, ?_⟩
    rw [Nat.sub_zero] at hchars
    rw [Op.onTexts, Answer.texts, listStep, hchars]

end RasPiArduino.StringArray
