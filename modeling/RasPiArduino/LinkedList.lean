import Mathlib.Data.List.Nodup
import Mathlib.Logic.Function.Basic

/-! Singly linked lists of nodes that are allocated and freed one by one. A pointer is an
address, or `none` for the null pointer. -/
namespace RasPiArduino.LinkedList
open Function

structure Cell (α : Type*) where
  value : α
  next : Option Nat
  deriving DecidableEq

abbrev Heap (α : Type*) := Nat → Option (Cell α)

variable {α : Type*} {h h' : Heap α} {p q r : Option Nat} {a b : Nat} {v w : α}
  {l m : List (Nat × α)}

/-- The store to the pointer of the node at `a`; `none` where there is no node. -/
def setNext (h : Heap α) (a : Nat) (p : Option Nat) : Option (Heap α) :=
  (h a).map fun c => update h a (some { c with next := p })

def free (h : Heap α) (a : Nat) : Option (Heap α) := (h a).map fun _ => update h a none

def unlink (h : Heap α) (a b : Nat) : Option (Heap α) := do
  let c ← h b
  let h ← setNext h a c.next
  free h b

theorem unlink_eq_some : unlink h a b = some h' ↔
    ∃ c h₁, h b = some c ∧ setNext h a c.next = some h₁ ∧ free h₁ b = some h' := by
  simp [unlink, Option.bind_eq_some_iff]

abbrev addresses (l : List (Nat × α)) : List Nat := l.map Prod.fst

abbrev values (l : List (Nat × α)) : List α := l.map Prod.snd

/-- From the pointer `p` the nodes of `l`, and in the last of them the pointer `q`. -/
def Segment (h : Heap α) : Option Nat → List (Nat × α) → Option Nat → Prop
  | p, [], q => p = q
  | p, c :: l, q => p = some c.1 ∧ ∃ r, h c.1 = some ⟨c.2, r⟩ ∧ Segment h r l q

abbrev Chain (h : Heap α) (p : Option Nat) (l : List (Nat × α)) : Prop := Segment h p l none

theorem Segment.congr (hs : Segment h p l q) (he : ∀ a ∈ addresses l, h' a = h a) :
    Segment h' p l q := by
  induction l generalizing p with
  | nil => exact hs
  | cons c l ih =>
    obtain ⟨rfl, r, hc, hs⟩ := hs
    refine ⟨rfl, r, (he c.1 (by simp)).trans hc, ih hs fun a ha => he a ?_⟩
    exact List.mem_cons_of_mem _ ha

theorem Segment.update (hs : Segment h p l q) (ha : a ∉ addresses l) (c : Option (Cell α)) :
    Segment (update h a c) p l q :=
  hs.congr fun _ hb => update_of_ne (ne_of_mem_of_not_mem hb ha) _ _

theorem segment_append :
    Segment h p (l ++ m) q ↔ ∃ r, Segment h p l r ∧ Segment h r m q := by
  induction l generalizing p with
  | nil => simp [Segment]
  | cons c l ih =>
    simp only [List.cons_append, Segment, ih]
    constructor
    · rintro ⟨hp, r, hc, s, hl, hm⟩
      exact ⟨s, ⟨hp, r, hc, hl⟩, hm⟩
    · rintro ⟨s, ⟨hp, r, hc, hl⟩, hm⟩
      exact ⟨hp, r, hc, s, hl, hm⟩

theorem Segment.allocated (hs : Segment h p l q) (ha : a ∈ addresses l) :
    ∃ c, h a = some c := by
  induction l generalizing p with
  | nil => exact absurd ha List.not_mem_nil
  | cons c l ih =>
    obtain ⟨-, r, hc, hs⟩ := hs
    obtain rfl | ha := List.mem_cons.mp ha
    · exact ⟨_, hc⟩
    · exact ih hs ha

theorem Chain.eq_nil (hs : Chain h none l) : l = [] := by
  cases l with
  | nil => rfl
  | cons c l => exact absurd hs.1 (by simp)

/-- The nodes a pointer leads to are determined by it. -/
theorem Chain.unique (hl : Chain h p l) (hm : Chain h p m) : l = m := by
  induction l generalizing p m with
  | nil =>
    obtain rfl : p = none := hl
    exact (Chain.eq_nil hm).symm
  | cons c l ih =>
    obtain ⟨rfl, r, hc, hl⟩ := hl
    cases m with
    | nil => exact absurd hm (by simp [Segment])
    | cons d m =>
      obtain ⟨he, s, hd, hm⟩ := hm
      have hcd : c.1 = d.1 := Option.some.inj he
      rw [hcd, hd, Option.some.injEq, Cell.mk.injEq] at hc
      obtain ⟨hv, rfl⟩ := hc
      rw [ih hl hm, Prod.ext hcd hv.symm]

theorem Chain.nodup (hs : Chain h p l) : (addresses l).Nodup := by
  induction l generalizing p with
  | nil => exact List.nodup_nil
  | cons c l ih =>
    obtain ⟨rfl, r, hc, hl⟩ := hs
    refine List.nodup_cons.mpr ⟨fun hmem => ?_, ih hl⟩
    obtain ⟨d, hd, hdc⟩ := List.mem_map.mp hmem
    obtain ⟨l₁, l₂, rfl⟩ := List.append_of_mem hd
    -- the same pointer would lead to the whole list and to a proper end of it
    obtain ⟨s, -, hs⟩ := segment_append.mp hl
    have hs' : Chain h (some c.1) (d :: l₂) := ⟨congrArg some hdc.symm, hs.2⟩
    have hwhole : Chain h (some c.1) (c :: (l₁ ++ d :: l₂)) := ⟨rfl, r, hc, hl⟩
    have := congrArg List.length (Chain.unique hwhole hs')
    simp only [List.length_cons, List.length_append] at this
    omega

theorem Chain.at (hs : Chain h p (l ++ (a, v) :: m)) :
    ∃ r, h a = some ⟨v, r⟩ ∧ Segment h p l (some a) ∧ Chain h r m := by
  obtain ⟨s, hl, rfl, r, ha, hm⟩ := segment_append.mp hs
  exact ⟨r, ha, hl, hm⟩

theorem Chain.behind (hs : Chain h p (l ++ (a, v) :: m)) (ha : h a = some ⟨w, q⟩) :
    Chain h q m := by
  obtain ⟨r, hr, -, hm⟩ := hs.at
  rw [hr, Option.some.injEq, Cell.mk.injEq] at ha
  exact ha.2 ▸ hm

theorem Chain.apart (hs : Chain h p (l ++ (a, v) :: m)) : a ∉ addresses l ∧ a ∉ addresses m := by
  have hnd := Chain.nodup hs
  rw [addresses, List.map_append, List.map_cons, List.nodup_append] at hnd
  obtain ⟨-, hm, hlm⟩ := hnd
  exact ⟨fun ha => hlm a ha a (by simp) rfl, (List.nodup_cons.mp hm).1⟩

theorem Chain.setValue (hs : Chain h p (l ++ (a, v) :: m)) (w : α) (ha : h a = some ⟨v, r⟩) :
    Chain (Function.update h a (some ⟨w, r⟩)) p (l ++ (a, w) :: m) := by
  obtain ⟨_, -, hl, -⟩ := hs.at
  obtain ⟨hal, ham⟩ := hs.apart
  exact segment_append.mpr ⟨some a, hl.update hal _, rfl, r, update_self _ _ _,
    Segment.update (hs.behind ha) ham _⟩

/-- One node is taken out from behind another; no other address changes. -/
theorem Chain.unlink (hs : Chain h p (l ++ (a, v) :: (b, w) :: m)) :
    ∃ h' r, unlink h a b = some h' ∧ Chain h' p (l ++ (a, v) :: m) ∧ h b = some ⟨w, r⟩ ∧
      h' a = some ⟨v, r⟩ ∧ h' b = none ∧ ∀ c, c ≠ a → c ≠ b → h' c = h c := by
  have hsb : Chain h p ((l ++ [(a, v)]) ++ (b, w) :: m) := by simpa using hs
  obtain ⟨_, ha, hl, -⟩ := hs.at
  obtain ⟨r, hb, -, hm⟩ := hsb.at
  obtain ⟨hal, ham⟩ := hs.apart
  obtain ⟨hbl, hbm⟩ := hsb.apart
  have hab : b ≠ a := by
    rintro rfl
    simp at hbl
  refine ⟨Function.update (Function.update h a (some ⟨v, r⟩)) b none, r, ?_, ?_, hb, ?_, ?_, ?_⟩
  · simp [LinkedList.unlink, setNext, free, ha, hb, update_of_ne hab]
  · refine segment_append.mpr ⟨some a, ?_, rfl, r, ?_, ?_⟩
    · exact (hl.update hal _).update (fun h => hbl (by simp [h])) _
    · rw [update_of_ne hab.symm, update_self]
    · exact Segment.update (Segment.update hm (fun h => ham (by simp [h])) _) hbm _
  · rw [update_of_ne hab.symm, update_self]
  · rw [update_self]
  · intro c hca hcb
    rw [update_of_ne hcb, update_of_ne hca]

theorem Chain.free_first (hs : Chain h (some a) ((a, v) :: m)) :
    ∃ h' r, free h a = some h' ∧ h a = some ⟨v, r⟩ ∧ Chain h' r m ∧ h' a = none ∧
      ∀ c, c ≠ a → h' c = h c := by
  obtain ⟨r, ha, -, hm⟩ := Chain.at (l := []) hs
  obtain ⟨-, ham⟩ := Chain.apart (l := []) hs
  refine ⟨Function.update h a none, r, by rw [free, ha, Option.map_some], ha, ?_, ?_, ?_⟩
  · exact Segment.update hm ham _
  · exact update_self _ _ _
  · exact fun c hc => update_of_ne hc _ _

theorem Chain.append (hs : Chain h p (l ++ [(a, v)])) (hb : h b = none) (w : α) :
    ∃ h', setNext (Function.update h b (some ⟨w, none⟩)) a (some b) = some h' ∧
      Chain h' p (l ++ [(a, v), (b, w)]) ∧ ∀ c, c ≠ a → c ≠ b → h' c = h c := by
  obtain ⟨-, ha, hl, rfl⟩ := hs.at
  obtain ⟨hal, -⟩ := hs.apart
  have hab : a ≠ b := by
    rintro rfl
    simp [ha] at hb
  have hbl : b ∉ addresses l := by
    intro hmem
    obtain ⟨c, hc⟩ := hl.allocated hmem
    simp [hc] at hb
  refine ⟨Function.update (Function.update h b (some ⟨w, none⟩)) a (some ⟨v, some b⟩), ?_, ?_, ?_⟩
  · simp [setNext, update_of_ne hab, ha]
  · refine segment_append.mpr ⟨some a, (hl.update hbl _).update hal _, rfl, some b, ?_, rfl, ?_⟩
    · exact update_self _ _ _
    · exact ⟨none, by rw [update_of_ne hab.symm, update_self], rfl⟩
  · intro c hca hcb
    rw [update_of_ne hca, update_of_ne hcb]

end RasPiArduino.LinkedList
