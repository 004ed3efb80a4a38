import Mathlib
import RasPiArduino.StringArray
import RasPiArduino.ProcessModel

/-! Process.cpp: begin(), addParameter() and the argument vector that execute() makes of the
StringArray cmd_array. -/
namespace RasPiArduino.ProcessArguments
open CMemory Machine
open LinkedList hiding free
open StringArray hiding step init

structure Command where
  cmdArray : StringArray.State
  threadRunning : Bool

/-- The constructor, where the heap holds the nodes of other arrays. -/
def init (h : Heap WString) : Command := ⟨StringArray.init h, false⟩

def begin (p : Command) (cmd : WString) (x : Nat) (a b c : Alloc) : Option Command := do
  let s ← free p.cmdArray
  let str ← copyOf cmd a
  let s ← add s str x b c
  some ⟨s, false⟩

def addParameter (p : Command) (param : WString) (x : Nat) (a b c : Alloc) : Option Command :=
  if p.threadRunning then some p
  else do
    let len ← length p.cmdArray
    if len = 0 then some p
    else do
      let str ← copyOf param a
      let s ← add p.cmdArray str x b c
      some { p with cmdArray := s }

/-- What comes of the allocations for one argument: of the copies that get returns, of which
one is measured and one copied, and of the block in between. -/
structure Copies where
  measured : Alloc
  block : Alloc
  copied : Alloc

def lengthOf (v : WString) : Nat := if v.buffer = .null then 0 else v.len

def argument (s : StringArray.State) (i : Nat) (a : Copies) : Option (List UInt8) := do
  let v ← get s i a.measured
  let block := resize [] a.block.fresh ((lengthOf v + 1) % 2^32)
  let w ← get s i a.copied
  let b ← w.buffer.bytes.toOption
  let cstr ← (cstring b).toOption
  (strcpy block 0 cstr).toOption

def argumentLoop (s : StringArray.State) (a : Nat → Copies) : Nat → Nat → Option (List (List UInt8))
  | _, 0 => some []
  | i, n+1 => do
    let block ← argument s i (a i)
    let blocks ← argumentLoop s a (i+1) n
    some (block :: blocks)

/-- The vector that execute() passes to execvp, up to the null pointer; `some none`: there is
no command, and it returns. -/
def execute (p : Command) (a : Nat → Copies) : Option (Option (List (List UInt8))) := do
  let arlen ← length p.cmdArray
  if arlen = 0 then some none
  else (argumentLoop p.cmdArray a 0 arlen).map some

/-- The calls; `thread` is what runAsynchronously(), execute() and its thread leave in
thread_running. -/
inductive Call where
  | begin (cmd : WString) (x : Nat) (a b c : Alloc)
  | addParameter (param : WString) (x : Nat) (a b c : Alloc)
  | thread (running : Bool)

def call (p : Command) : Call → Option (Unit × Command)
  | .begin cmd x a b c => (begin p cmd x a b c).map fun q => ((), q)
  | .addParameter param x a b c => (addParameter p param x a b c).map fun q => ((), q)
  | .thread running => some ((), { p with threadRunning := running })

/-- The String argument is valid, and new returns an address where no node is then. -/
def Call.Fits (p : Command) : Call → Prop
  | .begin cmd x _ _ _ => Usable cmd ∧ ∀ s ∈ free p.cmdArray, s.heap x = none
  | .addParameter param x _ _ _ => Usable param ∧ p.cmdArray.heap x = none
  | .thread _ => True

instance (p : Command) : (c : Call) → Decidable (c.Fits p)
  | .begin cmd x _ _ _ =>
    inferInstanceAs (Decidable (Usable cmd ∧ ∀ s ∈ free p.cmdArray, s.heap x = none))
  | .addParameter param x _ _ _ =>
    inferInstanceAs (Decidable (Usable param ∧ p.cmdArray.heap x = none))
  | .thread _ => isTrue trivial

def Call.isBegin : Call → Bool
  | .begin .. => true
  | _ => false

def accepted : Bool → List Call → List (List UInt8)
  | _, [] => []
  | _, .thread running :: cs => accepted running cs
  | running, .addParameter param _ _ _ _ :: cs =>
    if running then accepted running cs else param.chars :: accepted running cs
  | _, .begin .. :: cs => accepted false cs

def record (q : Bool × List (List UInt8)) : Call → Bool × List (List UInt8)
  | .begin cmd _ _ _ _ => (false, [cmd.chars])
  | .addParameter param _ _ _ _ =>
    if q.1 = true ∨ q.2 = [] then q else (q.1, q.2 ++ [param.chars])
  | .thread running => (running, q.2)

def Holding (h : Heap WString) (p : Command) (q : Bool × List (List UInt8)) : Prop :=
  p.threadRunning = q.1 ∧ ∃ l, Owns h p.cmdArray l ∧ texts l = q.2

variable {h : Heap WString} {p : Command} {q : Bool × List (List UInt8)}
  {l : List (Nat × WString)} {i n : Nat} {s : StringArray.State}

theorem length_spec (ho : Owns h s l) : length s = some l.length := by
  rw [length, lengthLoop_spec ho.chain ho.rounds, Nat.zero_add]

theorem get_spec (ho : Owns h s l) (i : Nat) (a : Alloc) :
    ∃ w, get s i a = some w ∧ Usable w ∧ w.chars = (texts l).getD i [] :=
  getLoop_spec ho.chain ho.rounds ho.usable (Nat.zero_le i) a

theorem call_spec (hp : Holding h p q) (c : Call) (hc : c.Fits p) :
    ∃ p', call p c = some ((), p') ∧ Holding h p' (record q c) := by
  obtain ⟨hrun, l, ho, hl⟩ := hp
  cases c with
  | begin cmd x a b c =>
    obtain ⟨t, ht, hot⟩ := freeLoop_spec ho ho.rounds
    obtain ⟨w, hw, hwu, hchars⟩ := copyOf_spec hc.1 a
    obtain ⟨u, v, hu, hou, hv⟩ := add_spec hot hot.rounds hwu (hc.2 t ht) b c
    refine ⟨⟨u, false⟩, ?_, rfl, _, hou, ?_⟩
    · simp [call, begin, free, ht, hw, hu]
    · simp [texts, record, hv, hchars]
  | addParameter param x a b c =>
    by_cases hskip : q.1 = true ∨ q.2 = []
    · refine ⟨p, ?_, by rw [record, if_pos hskip]; exact ⟨hrun, l, ho, hl⟩⟩
      cases hr : p.threadRunning with
      | true => simp [call, addParameter, hr]
      | false =>
        have hnil : l = [] := by
          rw [← hrun, hr] at hskip
          simpa [← hl, texts] using hskip
        simp [call, addParameter, hr, length_spec ho, hnil]
    · obtain ⟨hidle, hne⟩ := not_or.mp hskip
      have hl0 : l.length ≠ 0 := by
        intro hlen
        exact hne (by rw [← hl, List.eq_nil_of_length_eq_zero hlen]; rfl)
      obtain ⟨w, hw, hwu, hchars⟩ := copyOf_spec hc.1 a
      obtain ⟨u, v, hu, hou, hv⟩ := add_spec ho ho.rounds hwu hc.2 b c
      refine ⟨{ p with cmdArray := u }, ?_, ?_⟩
      · simp [call, addParameter, hrun, hidle, length_spec ho, hl0, hw, hu]
      · rw [record, if_neg hskip]
        exact ⟨hrun, _, hou, by rw [← hl, texts, List.map_append]; simp [hv, hchars, texts]⟩
  | thread running => exact ⟨_, rfl, rfl, l, ho, hl⟩

theorem argument_spec (ho : Owns h s l) (i : Nat) (a : Copies) :
    argument s i a = some ((texts l).getD i [] ++ [0]) := by
  obtain ⟨v, hv, ⟨r, hvh⟩, hvc⟩ := get_spec ho i a.measured
  obtain ⟨w, hw, ⟨r', hwh⟩, hwc⟩ := get_spec ho i a.copied
  have hlen : lengthOf v = v.chars.length := by
    rw [lengthOf, if_neg (by simp [hvh.buffer]), hvh.len]
  have hfit : (lengthOf v + 1) % 2^32 = v.chars.length + 1 := by
    rw [hlen, Nat.mod_eq_of_lt hvh.contents.length_fits]
  have hstr : cstring (w.chars ++ 0 :: r') = .ok w.chars := cstring_append hwh.noNul r'
  have hcpy : strcpy (resize [] a.block.fresh (v.chars.length + 1)) 0 w.chars =
      .ok (w.chars ++ 0 :: (resize [] a.block.fresh (v.chars.length + 1)).drop
        (w.chars.length + 1)) :=
    strcpy_fits (d := []) (r := resize [] a.block.fresh (v.chars.length + 1))
      (by rw [hvc, hwc, length_resize])
  have hdrop : (resize [] a.block.fresh (v.chars.length + 1)).drop (w.chars.length + 1) = [] :=
    List.drop_eq_nil_of_le (by rw [length_resize, hvc, hwc])
  simp only [argument, hv, hw, hfit, hwh.buffer, Buffer.bytes, Option.bind_eq_bind,
    Option.bind_some, Except.toOption, hstr, hcpy, hdrop]
  rw [hwc]

theorem argumentLoop_spec (ho : Owns h s l) (a : Nat → Copies) (hi : i + n = l.length) :
    argumentLoop s a i n = some (((texts l).drop i).map (· ++ [0])) := by
  induction n generalizing i with
  | zero =>
    have hnil : (texts l).drop i = [] := List.drop_eq_nil_of_le (by simp [texts]; omega)
    rw [argumentLoop, hnil]
    rfl
  | succ n ih =>
    have hlt : i < (texts l).length := by
      rw [texts, List.length_map]
      omega
    simp only [argumentLoop, argument_spec ho i (a i), ih (i := i+1) (by omega),
      Option.bind_eq_bind, Option.bind_some]
    rw [List.drop_eq_getElem_cons hlt, List.map_cons, List.getD_eq_getElem _ _ hlt]

theorem execute_spec (hp : Holding h p q) (hne : q.2 ≠ []) (a : Nat → Copies) :
    execute p a = some (some (q.2.map (· ++ [0]))) := by
  obtain ⟨-, l, ho, hl⟩ := hp
  have hl0 : l.length ≠ 0 := by
    intro hlen
    exact hne (by rw [← hl, List.eq_nil_of_length_eq_zero hlen]; rfl)
  rw [execute, length_spec ho, Option.bind_eq_bind, Option.bind_some, if_neg hl0,
    argumentLoop_spec ho a (Nat.zero_add _), List.drop_zero, hl]
  rfl

theorem calls_spec (cs : List Call) (hw : While call (fun p c => c.Fits p) cs p)
    (hp : Holding h p q) :
    ∃ us p', answers call cs p = some (us, p') ∧ Holding h p' (cs.foldl record q) := by
  induction cs generalizing p q with
  | nil => exact ⟨[], p, rfl, hp⟩
  | cons c cs ih =>
    obtain ⟨hc, hw⟩ := hw
    obtain ⟨p', hcall, hp'⟩ := call_spec hp c hc
    simp only [hcall] at hw
    obtain ⟨us, p'', hrun, hp''⟩ := ih hw hp'
    exact ⟨() :: us, p'', by rw [answers_cons hcall, hrun]; rfl, hp''⟩

theorem foldl_record {cs : List Call} (hcs : ∀ c ∈ cs, c.isBegin = false) (hne : q.2 ≠ []) :
    (cs.foldl record q).2 = q.2 ++ accepted q.1 cs := by
  induction cs generalizing q with
  | nil => exact (List.append_nil _).symm
  | cons c cs ih =>
    obtain ⟨hc, hrest⟩ := List.forall_mem_cons.mp hcs
    rw [List.foldl_cons]
    cases c with
    | begin => simp [Call.isBegin] at hc
    | addParameter param x a b d =>
      cases hq : q.1 with
      | true =>
        have hrec : record q (.addParameter param x a b d) = q := if_pos (.inl hq)
        rw [hrec, ih hrest hne, accepted, hq, if_pos rfl]
      | false =>
        have hrec : record q (.addParameter param x a b d) = (q.1, q.2 ++ [param.chars]) :=
          if_neg (by simp [hq, hne])
        have hne' : q.2 ++ [param.chars] ≠ [] := List.concat_ne_nil _ _
        rw [hrec, ih (q := (q.1, q.2 ++ [param.chars])) hrest hne', accepted, hq]
        simp
    | thread running => exact ih (q := (running, q.2)) hrest hne

def Agrees (dec : List UInt8 → String) (s : Process.State) (q : Bool × List (List UInt8)) : Prop :=
  s.threadRunning = q.1 ∧ s.cmdArray = q.2.map dec

/-- The model of the whole object does to its list of arguments what the calls do here, and
hands that list to its executors. -/
theorem model_agrees {dec : List UInt8 → String} {s : Process.State} (hs : Agrees dec s q)
    (cmd param : WString) (x : Nat) (a b c : Alloc) (i : Nat) (e : Process.Executor) :
    Agrees dec (Process.beginBody s (dec cmd.chars)) (record q (.begin cmd x a b c)) ∧
      Agrees dec (Process.addParameter s (dec param.chars))
        (record q (.addParameter param x a b c)) ∧
      (q.2 ≠ [] → (Process.enter s i e).executors =
        s.executors.set i { e with phase := .entered, argv := q.2.map dec }) := by
  obtain ⟨hrun, harray⟩ := hs
  have hnil : s.cmdArray.length = 0 ↔ q.2 = [] := by
    rw [harray, List.length_map, List.length_eq_zero_iff]
  refine ⟨⟨rfl, rfl⟩, ?_, fun hne => ?_⟩
  · rw [Process.addParameter, record]
    by_cases hr : q.1 = true
    · rw [if_pos (hrun.trans hr), if_pos (.inl hr)]
      exact ⟨hrun, harray⟩
    · by_cases hq : q.2 = []
      · rw [if_neg (hrun ▸ hr), if_pos (hnil.mpr hq), if_pos (.inr hq)]
        exact ⟨hrun, harray⟩
      · rw [if_neg (hrun ▸ hr), if_neg (mt hnil.mp hq), if_neg (not_or.mpr ⟨hr, hq⟩)]
        exact ⟨hrun, by simp [harray]⟩
  · rw [Process.enter, if_neg (mt hnil.mp hne), harray]
    rfl

theorem init_owns (h : Heap WString) : Owns h (StringArray.init h) [] where
  chain := rfl
  apart := by simp [StringArray.init]
  frame := fun _ _ => rfl
  nodes := List.Perm.nil
  usable := by simp

theorem step_refines (s : StringArray.State) (q : List (List UInt8)) (o : Op)
    (hs : ∃ l, Owns h s l ∧ q = texts l) (ho : o.Fits s) :
    ∃ r t u, StringArray.step s o = some (r, t) ∧
      some (listStep [] q o.onTexts) = some (r.texts, u) ∧ ∃ l, Owns h t l ∧ u = texts l := by
  obtain ⟨l, hol, rfl⟩ := hs
  obtain ⟨r, t, l', hstep, hot, hlist⟩ := step_spec hol o ho
  exact ⟨r, t, _, hstep, congrArg some hlist, l', hot, rfl⟩

/-- Over every sequence of operations a StringArray is the list of the texts; of its nodes
each has been deleted once or is in the list still. Over every sequence of calls, execute()
passes on the command of the last begin() and the parameters accepted since. -/
theorem refines_list (h : Heap WString) (ops : List Op)
    (hops : While StringArray.step (fun s o => o.Fits s) ops (StringArray.init h))
    (before rest : List Call) (cmd : WString) (x : Nat) (a b c : Alloc)
    (hcalls : While call (fun p c => c.Fits p) (before ++ .begin cmd x a b c :: rest) (init h))
    (hrest : ∀ c ∈ rest, c.isBegin = false) :
    (∃ rs t l, answers StringArray.step ops (StringArray.init h) = some (rs, t) ∧
      answers (fun l o => some (listStep [] l o)) (ops.map Op.onTexts) [] =
        some (rs.map Answer.texts, texts l) ∧
      Owns h t l ∧ (addresses l).Nodup ∧ ∀ a ∈ t.deletes, a ∉ addresses l → t.heap a = none) ∧
    ∃ us p, answers call (before ++ .begin cmd x a b c :: rest) (init h) = some (us, p) ∧
      ∀ copies, execute p copies =
        some (some ((cmd.chars :: accepted false rest).map (· ++ [0]))) := by
  constructor
  · obtain ⟨rs, t, u, hrun, hlist, l, hot, rfl⟩ := While.refines
      (g := fun l o => some (listStep [] l o)) (φ := Op.onTexts) (ψ := Answer.texts)
      (B := fun s q => ∃ l, Owns h s l ∧ q = texts l) step_refines
      ⟨[], init_owns h, rfl⟩ hops
    refine ⟨rs, t, l, hrun, hlist, hot, Chain.nodup hot.chain, fun a ha hal => ?_⟩
    rw [hot.frame a hal]
    exact hot.apart a (hot.nodes.mem_iff.mpr (List.mem_append_left _ ha))
  · have hinit : Holding h (init h) (false, []) := ⟨rfl, [], init_owns h, rfl⟩
    obtain ⟨us, p, hrun, hp⟩ := calls_spec _ hcalls hinit
    have hbegun : ((before ++ .begin cmd x a b c :: rest).foldl record (false, [])) =
        rest.foldl record (false, [cmd.chars]) := by
      rw [List.foldl_append, List.foldl_cons, record]
    have htexts := foldl_record (q := (false, [cmd.chars])) hrest (by simp)
    rw [hbegun] at hp
    refine ⟨us, p, hrun, fun copies => ?_⟩
    rw [execute_spec hp (by simp [htexts]) copies, htexts]
    rfl

def letter (c : UInt8) : WString := ⟨.block [c, 0], 1, 1⟩

def granted : Alloc := ⟨[], false⟩

/-- Of three Strings the first that is equal is removed, and then one by its index; and of a
process two parameters are refused, before begin() and while the thread runs. -/
theorem refines_list_runs :
    (∃ rs t l, answers StringArray.step
        [.add (letter 97) 0 granted granted, .add (letter 98) 1 granted granted,
          .add (letter 97) 2 granted granted, .remove (letter 97) fun _ => granted,
          .removeAt 1, .get 0 granted, .get 1 granted]
        (StringArray.init fun _ => none) = some (rs, t) ∧
      rs.map Answer.texts = [.done, .done, .done, .flag true, .flag true, .string [98],
        .string []] ∧ texts l = [[98]] ∧ Owns (fun _ => none) t l) ∧
    ∃ us p, answers call
        [.addParameter (letter 97) 0 granted granted granted,
          .begin (letter 98) 1 granted granted granted,
          .addParameter (letter 99) 2 granted granted granted, .thread true,
          .addParameter (letter 100) 3 granted granted granted, .thread false,
          .addParameter (letter 101) 3 granted granted granted]
        (init fun _ => none) = some (us, p) ∧
      ∀ copies, execute p copies = some (some [[98, 0], [99, 0], [101, 0]]) := by
  obtain ⟨⟨rs, t, l, hrun, hlist, hown, -⟩, hexec⟩ := refines_list (fun _ => none)
    [.add (letter 97) 0 granted granted, .add (letter 98) 1 granted granted,
      .add (letter 97) 2 granted granted, .remove (letter 97) fun _ => granted,
      .removeAt 1, .get 0 granted, .get 1 granted]
    (by decide +kernel)
    [.addParameter (letter 97) 0 granted granted granted]
    [.addParameter (letter 99) 2 granted granted granted, .thread true,
      .addParameter (letter 100) 3 granted granted granted, .thread false,
      .addParameter (letter 101) 3 granted granted granted]
    (letter 98) 1 granted granted granted (by decide +kernel) (by decide)
  obtain ⟨hrs, hl⟩ := Prod.mk.inj (Option.some.inj (hlist.symm.trans rfl))
  exact ⟨⟨rs, t, l, hrun, hrs, hl, hown⟩, hexec⟩

end RasPiArduino.ProcessArguments
