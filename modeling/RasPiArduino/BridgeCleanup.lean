import RasPiArduino.LinkedList
import RasPiArduino.Server

/-! BridgeServer::cleanup() on the nodes of the clients list: a loop over the head, then one
behind it that keeps the node in front. `o` is what comes of the probes, the k-th of them
for a client with these fields: whether it is found connected, and its fields afterwards. -/
namespace RasPiArduino.BridgeCleanup
open LinkedList

/-- The nodes and the head pointer; `probes` and `deletes` record the calls. -/
structure State (α : Type) where
  heap : Heap α
  clients : Option Nat
  probes : List Nat
  deletes : List Nat

variable {α : Type} (o : Nat → α → Bool × α)

/-- connected() of the client at `c`; `none`: there is no such client any more. -/
def connected (s : State α) (c : Nat) : Option (Bool × State α) :=
  (s.heap c).map fun n => ((o s.probes.length n.value).1, { s with
    heap := Function.update s.heap c (some { n with value := (o s.probes.length n.value).2 })
    probes := s.probes ++ [c] })

def next (s : State α) (c : Nat) : Option (Option Nat) := (s.heap c).map Cell.next

def setNext (s : State α) (c : Nat) (q : Option Nat) : Option (State α) :=
  (LinkedList.setNext s.heap c q).map fun h => { s with heap := h }

def delete (s : State α) (c : Nat) : Option (State α) :=
  (free s.heap c).map fun h => { s with heap := h, deletes := s.deletes ++ [c] }

def dropHead : Nat → State α → Option Nat → Option (State α × Option Nat)
  | 0, _, _ => none
  | _+1, s, none => some (s, none)
  | n+1, s, some c1 => do
    let (found, s) ← connected o s c1
    if !found then
      let q ← next s c1
      let s ← delete s c1
      dropHead n s q
    else some (s, some c1)

def dropRest : Nat → State α → Nat → Option Nat → Option (State α)
  | 0, _, _, _ => none
  | _+1, s, _, none => some s
  | n+1, s, c1, some c2 => do
    let (found, s) ← connected o s c2
    if !found then
      let q ← next s c2
      let s ← setNext s c1 q
      let s ← delete s c2
      dropRest n s c1 q
    else
      let q ← next s c2
      dropRest n s c2 q

def cleanupRest (n : Nat) (s : State α) (c1 : Option Nat) : Option (State α) :=
  let s := { s with clients := c1 }
  match c1 with
  | none => some s
  | some c1 => do
    let c2 ← next s c1
    dropRest o n s c1 c2

def cleanup (n : Nat) (s : State α) : Option (State α) :=
  match s.clients with
  | none => some s
  | some c1 => do
    let (s, c1) ← dropHead o n s (some c1)
    cleanupRest o n s c1

def outcomes : Nat → List (Nat × α) → List (Nat × Bool × α)
  | _, [] => []
  | k, c :: l => (c.1, o k c.2) :: outcomes (k+1) l

def found (r : List (Nat × Bool × α)) : List (Nat × α) :=
  (r.filter fun c => c.2.1).map fun c => (c.1, c.2.2)

def lost (r : List (Nat × Bool × α)) : List Nat := (r.filter fun c => !c.2.1).map Prod.fst

/-- From `s` to `t` the clients `m`, in front of which those of `l` stand, are cleaned up. -/
structure Cleaned (s t : State α) (l m : List (Nat × α)) : Prop where
  chain : Chain t.heap t.clients (l ++ found (outcomes o s.probes.length m))
  probes : t.probes = s.probes ++ addresses m
  deletes : t.deletes = s.deletes ++ lost (outcomes o s.probes.length m)
  freed : ∀ c ∈ lost (outcomes o s.probes.length m), t.heap c = none
  frame : ∀ c ∉ addresses (l ++ m), t.heap c = s.heap c

variable {o} {s t : State α} {l m : List (Nat × α)} {a b : Nat} {v w : α}
  {p q : Option Nat} {n k : Nat}

theorem Cleaned.nil (h : Chain s.heap s.clients l) : Cleaned o s s l [] where
  chain := by simpa [outcomes, found] using h
  probes := by simp
  deletes := by simp [outcomes, lost]
  freed := by simp [outcomes, lost]
  frame := fun _ _ => rfl

theorem connected_spec (h : Chain s.heap p (l ++ (a, v) :: m)) :
    ∃ s', connected o s a = some ((o s.probes.length v).1, s') ∧
      Chain s'.heap p (l ++ (a, (o s.probes.length v).2) :: m) ∧ s'.clients = s.clients ∧
      s'.probes = s.probes ++ [a] ∧ s'.deletes = s.deletes ∧
      ∀ c, c ≠ a → s'.heap c = s.heap c := by
  obtain ⟨r, ha, -, -⟩ := h.at
  refine ⟨{ s with
    heap := Function.update s.heap a (some ⟨(o s.probes.length v).2, r⟩)
    probes := s.probes ++ [a] }, ?_, h.setValue _ ha, rfl, rfl, rfl, ?_⟩
  · rw [connected, ha, Option.map_some]
  · exact fun c hc => Function.update_of_ne hc _ _

theorem delete_spec (h : Chain s.heap (some a) ((a, v) :: m)) :
    ∃ q s', next s a = some q ∧ delete s a = some s' ∧ Chain s'.heap q m ∧
      s'.heap a = none ∧ s'.probes = s.probes ∧ s'.deletes = s.deletes ++ [a] ∧
      ∀ c, c ≠ a → s'.heap c = s.heap c := by
  obtain ⟨h', q, hfree, ha, hm, ha', hframe⟩ := h.free_first
  refine ⟨q, { s with heap := h', deletes := s.deletes ++ [a] }, by rw [next, ha, Option.map_some],
    by rw [delete, hfree, Option.map_some], hm, ha', rfl, rfl, hframe⟩

theorem unlink_spec (h : Chain s.heap p (l ++ (a, v) :: (b, w) :: m)) :
    ∃ q s₁ s₂, next s b = some q ∧ setNext s a q = some s₁ ∧ delete s₁ b = some s₂ ∧
      Chain s₂.heap p (l ++ (a, v) :: m) ∧ s₂.heap a = some ⟨v, q⟩ ∧ s₂.heap b = none ∧
      s₂.clients = s.clients ∧ s₂.probes = s.probes ∧ s₂.deletes = s.deletes ++ [b] ∧
      ∀ c, c ≠ a → c ≠ b → s₂.heap c = s.heap c := by
  obtain ⟨h', q, hu, hchain, hb, ha', hb', hframe⟩ := h.unlink
  obtain ⟨c, h₁, hc, hset, hfree⟩ := unlink_eq_some.mp hu
  obtain rfl := Option.some.inj (hb.symm.trans hc)
  refine ⟨q, { s with heap := h₁ }, { s with heap := h', deletes := s.deletes ++ [b] },
    by rw [next, hb, Option.map_some], by rw [setNext, hset, Option.map_some],
    by rw [delete, hfree, Option.map_some], hchain, ha', hb', rfl, rfl, rfl, hframe⟩

theorem Cleaned.keep {s' : State α} (hc : (o s.probes.length v).1 = true)
    (hp : s'.probes = s.probes ++ [a]) (hd : s'.deletes = s.deletes)
    (hf : ∀ c, c ≠ a → s'.heap c = s.heap c)
    (h : Cleaned o s' t (l ++ [(a, (o s.probes.length v).2)]) m) :
    Cleaned o s t l ((a, v) :: m) := by
  have hk : s'.probes.length = s.probes.length + 1 := by simp [hp]
  refine ⟨?_, ?_, ?_, ?_, fun c hc => ?_⟩
  · simpa [outcomes, found, hc, hk] using h.chain
  · rw [h.probes, hp, List.append_assoc]
    rfl
  · rw [h.deletes, hd, hk]
    simp [outcomes, lost, hc]
  · simpa [outcomes, lost, hc, hk] using h.freed
  · rw [h.frame c (by simpa using hc), hf c (fun he => hc (by simp [he]))]

theorem Cleaned.drop {s' : State α} (hc : (o s.probes.length v).1 = false)
    (hp : s'.probes = s.probes ++ [a]) (hd : s'.deletes = s.deletes ++ [a])
    (hf : ∀ c ∉ addresses (l ++ (a, v) :: m), s'.heap c = s.heap c) (ha : s'.heap a = none)
    (hal : a ∉ addresses (l ++ m)) (h : Cleaned o s' t l m) : Cleaned o s t l ((a, v) :: m) := by
  have hk : s'.probes.length = s.probes.length + 1 := by simp [hp]
  have hlost : lost (outcomes o s.probes.length ((a, v) :: m)) =
      a :: lost (outcomes o s'.probes.length m) := by
    simp [outcomes, lost, hc, hk]
  refine ⟨?_, ?_, ?_, ?_, fun c hc => ?_⟩
  · simpa [outcomes, found, hc, hk] using h.chain
  · rw [h.probes, hp, List.append_assoc]
    rfl
  · rw [h.deletes, hd, hlost, List.append_assoc]
    rfl
  · intro c hmem
    rw [hlost] at hmem
    obtain rfl | hmem := List.mem_cons.mp hmem
    · rw [h.frame c hal, ha]
    · exact h.freed c hmem
  · rw [h.frame c (fun hm => hc ?_), hf c hc]
    simp only [addresses, List.map_append, List.mem_append] at hm ⊢
    exact hm.imp_right (List.mem_cons_of_mem _)

theorem dropRest_spec (h : Chain s.heap s.clients (l ++ (a, v) :: m))
    (ha : s.heap a = some ⟨v, q⟩) (hn : m.length < n) :
    ∃ t, dropRest o n s a q = some t ∧ Cleaned o s t (l ++ [(a, v)]) m := by
  induction m generalizing s l a v q n with
  | nil =>
    obtain ⟨n, rfl⟩ := Nat.exists_eq_add_one.mpr (Nat.zero_lt_of_lt hn)
    obtain rfl : q = none := h.behind ha
    exact ⟨s, by rw [dropRest], Cleaned.nil h⟩
  | cons c m ih =>
    obtain ⟨b, w⟩ := c
    obtain ⟨n, rfl⟩ := Nat.exists_eq_add_one.mpr (Nat.zero_lt_of_lt hn)
    obtain rfl : q = some b := (h.behind ha).1
    have hb : Chain s.heap s.clients ((l ++ [(a, v)]) ++ (b, w) :: m) := by simpa using h
    obtain ⟨s', hcon, hs', hcl, hp, hd, hf⟩ := connected_spec (o := o) hb
    have hbapart := hb.apart
    have hlt : m.length < n := Nat.lt_of_succ_lt_succ hn
    cases hc : (o s.probes.length w).1 with
    | false =>
      rw [List.append_assoc] at hs'
      obtain ⟨q, s₁, s₂, hnext, hset, hdel, hs₂, ha₂, hb₂, hcl₂, hp₂, hd₂, hf₂⟩ :=
        unlink_spec (l := l) (a := a) hs'
      rw [← hcl, ← hcl₂] at hs₂
      obtain ⟨t, ht, hclean⟩ := ih (n := n) hs₂ ha₂ hlt
      refine ⟨t, ?_, hclean.drop hc (hp₂.trans hp) (hd₂.trans (by rw [hd])) ?_ hb₂ ?_⟩
      · simp [dropRest, hcon, hc, hnext, hset, hdel, ht]
      · intro c hmem
        have hca : c ≠ a := fun he => hmem (by simp [he])
        have hcb : c ≠ b := fun he => hmem (by simp [he])
        rw [hf₂ c hca hcb, hf c hcb]
      · simpa [and_assoc] using hbapart
    | true =>
      obtain ⟨r, hr', -, -⟩ := hs'.at
      rw [← hcl] at hs'
      obtain ⟨t, ht, hclean⟩ := ih (n := n) hs' hr' hlt
      refine ⟨t, ?_, hclean.keep hc hp hd hf⟩
      simp [dropRest, hcon, hc, next, hr', ht]

theorem dropHead_spec (h : Chain s.heap q m) (hn : m.length < n) (hk : m.length < k) :
    ∃ s' p t, dropHead o n s q = some (s', p) ∧ cleanupRest o k s' p = some t ∧
      Cleaned o s t [] m := by
  induction m generalizing s q n with
  | nil =>
    obtain ⟨n, rfl⟩ := Nat.exists_eq_add_one.mpr (Nat.zero_lt_of_lt hn)
    obtain rfl : q = none := h
    have hnil : Cleaned o { s with clients := none } { s with clients := none } [] [] :=
      Cleaned.nil rfl
    exact ⟨s, none, { s with clients := none }, rfl, rfl, ⟨hnil.1, hnil.2, hnil.3, hnil.4, hnil.5⟩⟩
  | cons c m ih =>
    obtain ⟨a, v⟩ := c
    obtain ⟨n, rfl⟩ := Nat.exists_eq_add_one.mpr (Nat.zero_lt_of_lt hn)
    obtain rfl : q = some a := h.1
    have hapart := Chain.apart (l := []) h
    obtain ⟨s', hcon, hs', -, hp, hd, hf⟩ := connected_spec (o := o) (l := []) h
    cases hc : (o s.probes.length v).1 with
    | false =>
      obtain ⟨q, s₂, hnext, hdel, hs₂, ha₂, hp₂, hd₂, hf₂⟩ := delete_spec hs'
      obtain ⟨s'', p, t, hdrop, hrest, hclean⟩ :=
        ih (n := n) hs₂ (Nat.lt_of_succ_lt_succ hn) (Nat.lt_of_succ_lt hk)
      refine ⟨s'', p, t, ?_, hrest,
        hclean.drop hc (hp₂.trans hp) (hd₂.trans (by rw [hd])) ?_ ha₂ hapart.2⟩
      · simp [dropHead, hcon, hc, hnext, hdel, hdrop]
      · intro c hmem
        have hca : c ≠ a := fun he => hmem (by simp [he])
        rw [hf₂ c hca, hf c hca]
    | true =>
      obtain ⟨r, ha, -, -⟩ := Chain.at (l := []) hs'
      obtain ⟨t, ht, hclean⟩ := dropRest_spec (o := o) (l := []) (n := k)
        (s := { s' with clients := some a }) hs' ha (Nat.lt_of_succ_lt hk)
      refine ⟨s', some a, t, by simp [dropHead, hcon, hc], ?_, ?_⟩
      · simp [cleanupRest, next, ha, ht]
      · refine Cleaned.keep hc ?_ ?_ ?_ hclean
        · exact hp
        · exact hd
        · exact hf

theorem cleanup_cleaned (h : Chain s.heap s.clients m) (hn : m.length < n) :
    ∃ t, cleanup o n s = some t ∧ Cleaned o s t [] m := by
  cases m with
  | nil =>
    have hnone : s.clients = none := h
    exact ⟨s, by rw [cleanup, hnone], Cleaned.nil h⟩
  | cons c m =>
    obtain ⟨s', q, t, hdrop, hrest, hclean⟩ := dropHead_spec (o := o) h hn hn
    have hsome : s.clients = some c.1 := h.1
    refine ⟨t, ?_, hclean⟩
    rw [hsome] at hdrop
    simp [cleanup, hsome, hdrop, hrest]

/-- With what the kernel says of its socket for each client, the fields that stay are those
that cleanup() leaves of the list of clients. -/
theorem cleanup_refines (k : Net.Kernel) {s : State BridgeServer.Node}
    {m : List (Nat × BridgeServer.Node)} (h : Chain s.heap s.clients m) (hn : m.length < n) :
    ∃ t m', cleanup (fun _ c => (BridgeServer.connectedNode k c, BridgeServer.probed k c)) n s =
        some t ∧ Chain t.heap t.clients m' ∧
      values m' = BridgeServer.cleanup k (values m) := by
  obtain ⟨t, ht, hclean⟩ := cleanup_cleaned h hn
  refine ⟨t, _, ht, hclean.chain, ?_⟩
  rw [BridgeServer.cleanup_eq]
  clear hclean h hn
  generalize s.probes.length = j
  induction m generalizing j with
  | nil => rfl
  | cons c m ih =>
    cases hc : BridgeServer.connectedNode k c.2 with
    | false => simpa [found, outcomes, hc] using ih (j+1)
    | true =>
      have hsame : BridgeServer.probed k c.2 = c.2 := by
        rw [BridgeServer.probed, BridgeClient.connected_same hc]
      simpa [found, outcomes, hc, hsame] using ih (j+1)

theorem sublist_found (k : Nat) (l : List (Nat × α)) :
    (addresses (found (outcomes o k l))).Sublist (addresses l) := by
  induction l generalizing k with
  | nil => exact List.Sublist.refl _
  | cons c l ih =>
    cases hc : (o k c.2).1 with
    | false => simpa [found, outcomes, hc] using (ih (k+1)).cons c.1
    | true => simpa [found, outcomes, hc] using ih (k+1)

theorem sublist_lost (k : Nat) (l : List (Nat × α)) :
    (lost (outcomes o k l)).Sublist (addresses l) := by
  induction l generalizing k with
  | nil => exact List.Sublist.refl _
  | cons c l ih =>
    cases hc : (o k c.2).1 with
    | false => simpa [lost, outcomes, hc] using ih (k+1)
    | true => simpa [lost, outcomes, hc] using (ih (k+1)).cons c.1

/-- cleanup() leaves the clients found connected, in their order, and has probed every client
once and deleted each of the others once; it finds every node that it follows. -/
theorem cleanup_spec (o : Nat → α → Bool × α) (h : Heap α) (p : Option Nat) (l : List (Nat × α))
    (hl : Chain h p l) (n : Nat) (hn : l.length < n) :
    ∃ t, cleanup o n ⟨h, p, [], []⟩ = some t ∧
      Chain t.heap t.clients (found (outcomes o 0 l)) ∧
      (addresses (found (outcomes o 0 l))).Sublist (addresses l) ∧
      t.probes = addresses l ∧ t.probes.Nodup ∧
      t.deletes = lost (outcomes o 0 l) ∧ t.deletes.Nodup ∧ (∀ a ∈ t.deletes, t.heap a = none) ∧
      ∀ a ∉ addresses l, t.heap a = h a := by
  have hnd := Chain.nodup hl
  obtain ⟨t, ht, hclean⟩ := cleanup_cleaned (o := o) (s := ⟨h, p, [], []⟩) hl hn
  have hprobes : t.probes = addresses l := by simpa using hclean.probes
  have hdeletes : t.deletes = lost (outcomes o 0 l) := by simpa using hclean.deletes
  refine ⟨t, ht, by simpa using hclean.chain, sublist_found 0 l, hprobes, hprobes ▸ hnd, hdeletes,
    hdeletes ▸ hnd.sublist (sublist_lost 0 l), ?_, fun a ha => ?_⟩
  · rw [hdeletes]
    simpa using hclean.freed
  · simpa using hclean.frame a (by simpa using ha)

/-- Two clients gone at the head, one in the middle and two at the end. -/
theorem cleanup_spec_runs :
    ∃ t, cleanup (fun _ v => (v, v)) 8 ⟨fun a => [⟨false, some 1⟩, ⟨false, some 2⟩,
          ⟨true, some 3⟩, ⟨false, some 4⟩, ⟨true, some 5⟩, ⟨false, some 6⟩, ⟨false, none⟩][a]?,
        some 0, [], []⟩ = some t ∧
      Chain t.heap t.clients [(2, true), (4, true)] ∧ t.probes = [0, 1, 2, 3, 4, 5, 6] ∧
      t.deletes = [0, 1, 3, 5, 6] := by
  obtain ⟨t, ht, hc, -, hp, -, hd, -⟩ := cleanup_spec (fun _ (v : Bool) => (v, v))
    (fun a => [⟨false, some 1⟩, ⟨false, some 2⟩, ⟨true, some 3⟩, ⟨false, some 4⟩,
      ⟨true, some 5⟩, ⟨false, some 6⟩, ⟨false, none⟩][a]?) (some 0)
    [(0, false), (1, false), (2, true), (3, false), (4, true), (5, false), (6, false)]
    (by simp [Segment]) 8 (by decide)
  exact ⟨t, ht, hc, hp, hd⟩

end RasPiArduino.BridgeCleanup
