import RasPiArduino.Console
import RasPiArduino.Machine

/-! The two sources of LinuxConsole: what is buffered from the IDE monitor and what is
buffered from standard input. -/
namespace RasPiArduino.LinuxConsole
open RasPiArduino.Machine

/-- `zs` takes the elements of `xs` and of `ys`, those of each list in their order. -/
inductive Interleaving {α : Type*} : List α → List α → List α → Prop where
  | nil : Interleaving [] [] []
  | left {x : α} {xs ys zs : List α} : Interleaving xs ys zs → Interleaving (x :: xs) ys (x :: zs)
  | right {y : α} {xs ys zs : List α} : Interleaving xs ys zs → Interleaving xs (y :: ys) (y :: zs)

theorem Interleaving.length {α : Type*} {xs ys zs : List α} (h : Interleaving xs ys zs) :
    zs.length = xs.length + ys.length := by
  induction h with
  | nil => rfl
  | left _ ih => simp [ih]; omega
  | right _ ih => simp [ih]; omega

def codes (bytes : List UInt8) : List Int := bytes.map fun d => d.toNat

/-- A read() while something is available takes the next byte of one source and leaves the
other; and no read() changes an empty stdin buffer. -/
def SourceStep (s : Session) (e : Event) (r : Int) (t : Session) : Prop :=
  e = .read →
    (0 < s.console.available →
      (∃ d, s.console.monitor.content = d :: t.console.monitor.content ∧ r = d.toNat ∧
        t.console.con = s.console.con) ∨
      ∃ d, s.console.con.content = d :: t.console.con.content ∧ r = d.toNat ∧
        t.console.monitor = s.console.monitor) ∧
    (s.console.con.content = [] → t.console.con = s.console.con)

/-- The source that a read() turns to has a byte: the monitor is connected and has one, or
the stdin buffer has. -/
def Sourced (s : Session) (e : Event) : Prop :=
  e = .read → s.console.fromMonitor = true ∨ 0 < s.console.con.available

instance (s : Session) (e : Event) : Decidable (Sourced s e) :=
  inferInstanceAs (Decidable (_ → _))

/-- Nothing arrives: all but read() leaves both buffers alone. -/
def Calm (s : Session) (e : Event) (_ : Int) (t : Session) : Prop :=
  e = .read ∨ t.console.monitor.content = s.console.monitor.content ∧
    t.console.con.content = s.console.con.content

instance (s : Session) (e : Event) (r : Int) (t : Session) : Decidable (Calm s e r t) :=
  inferInstanceAs (Decidable (_ ∨ _))

def readAnswers : List Event → List Int → List Int
  | .read :: es, r :: rs => r :: readAnswers es rs
  | _ :: es, _ :: rs => readAnswers es rs
  | _, _ => []

variable {s t : Session}

theorem Ok.available (h : Ok s.console) : s.console.available =
    s.console.monitor.content.length + s.console.con.content.length := by
  rw [LinuxConsole.available, Idemonitor.available, h.monitor.length_content,
    h.con.length_content]
  rfl

theorem Ok.fromMonitor (h : Ok s.console) (hf : s.console.fromMonitor = true) :
    ∃ d ds, s.console.monitor.content = d :: ds := by
  cases hc : s.console.monitor.content with
  | nil =>
    simp [LinuxConsole.fromMonitor, Idemonitor.available, h.monitor.fill_eq_zero_iff, hc] at hf
  | cons d ds => exact ⟨d, ds, rfl⟩

theorem Ok.other (h : Ok s.console) {e : Event} (he : e ≠ .read) :
    ∃ r t, exec s e = some (r, t) ∧ Ok t.console := by
  have hcon {c : Piconsole} (hb : c.rxBuffer = s.console.con.rxBuffer)
      (hi : c.rxBufferIndex = s.console.con.rxBufferIndex) : c.Ok :=
    ⟨hb ▸ h.con.length, hi ▸ h.con.nonneg, hi ▸ h.con.le⟩
  cases e with
  | stdin bytes => exact ⟨_, _, rfl, h.monitor, hcon rfl rfl⟩
  | consoleRun =>
    obtain ⟨c, hc, hok, -⟩ := h.con.run
    exact ⟨0, withCon s c, by rw [exec, hc]; rfl, h.monitor, hok⟩
  | monitorRun acc addr waiting closed =>
    exact ⟨_, _, rfl, (h.monitor.run acc addr waiting closed).1, h.con⟩
  | consoleBegin => exact ⟨_, _, rfl, h.monitor, hcon rfl rfl⟩
  | consoleEnd => exact ⟨_, _, rfl, h.monitor, hcon rfl rfl⟩
  | available => exact ⟨_, _, rfl, h⟩
  | peek =>
    suffices hp : ∃ d, s.console.peek = some d by
      obtain ⟨d, hd⟩ := hp
      exact ⟨d, s, by simp [exec, hd], h⟩
    cases hf : s.console.fromMonitor with
    | true =>
      obtain ⟨d, ds, hc⟩ := h.fromMonitor hf
      exact ⟨_, by rw [LinuxConsole.peek, if_pos hf, h.monitor.peek_cons hc]⟩
    | false =>
      obtain ⟨d, hd, -⟩ := h.con.peek_some
      exact ⟨d.toNat, by simp [LinuxConsole.peek, hf, hd]⟩
  | read => exact absurd rfl he
  | flush => exact ⟨_, _, rfl, h.monitor.flush.1, h.con⟩

theorem Ok.read (h : Ok s.console) (hsrc : Sourced s .read) :
    ∃ r t, exec s .read = some (r, t) ∧ Ok t.console ∧ SourceStep s .read r t := by
  cases hf : s.console.fromMonitor with
  | true =>
    obtain ⟨d, ds, hc⟩ := h.fromMonitor hf
    obtain ⟨m, hr, hok, hds, -⟩ := h.monitor.readChar_cons hc
    refine ⟨d.toNat, ⟨⟨m, s.console.con⟩, s.arrived, s.given ++ [d]⟩, ?_, ⟨hok, h.con⟩, ?_⟩
    · simp [exec, LinuxConsole.read, hf, hr]
    · exact fun _ => ⟨fun _ => .inl ⟨d, hds ▸ hc, rfl, rfl⟩, fun _ => rfl⟩
  | false =>
    have hpos : 0 < s.console.con.available := by simpa [hf] using hsrc rfl
    obtain ⟨d, ds, hc⟩ := List.exists_cons_of_ne_nil (h.con.available_pos_iff.mp hpos)
    obtain ⟨c, hr, hok, hds, -⟩ := h.con.read_cons hc
    refine ⟨d.toNat, ⟨⟨s.console.monitor, c⟩, s.arrived, s.given ++ [d]⟩, ?_, ⟨h.monitor, hok⟩, ?_⟩
    · simp [exec, LinuxConsole.read, hf, hr]
    · exact fun _ => ⟨fun _ => .inr ⟨d, hds ▸ hc, rfl, rfl⟩, fun he => by simp [hc] at he⟩

theorem Ok.step (h : Ok s.console) {e : Event} (hsrc : Sourced s e) :
    ∃ r t, exec s e = some (r, t) ∧ Ok t.console ∧ SourceStep s e r t := by
  by_cases he : e = .read
  · subst he
    exact h.read hsrc
  · obtain ⟨r, t, hex, ht⟩ := h.other he
    exact ⟨r, t, hex, ht, fun h => absurd h he⟩

theorem Ok.sourced (h : Ok s.console) {e : Event} {r : Int} (hex : exec s e = some (r, t))
    (hp : SourceStep s e r t) : Sourced s e := by
  rintro rfl
  by_contra hnone
  obtain ⟨hf, hnpos⟩ := not_or.mp hnone
  have hc : s.console.con.content = [] := by
    rw [h.con.available_pos_iff] at hnpos
    exact not_not.mp hnpos
  obtain ⟨d, hd⟩ := h.con.read_nil hc
  have hcon : t.console.con = { s.console.con with rxBufferIndex := -1 } := by
    simp only [exec, LinuxConsole.read, if_neg hf, hd, Option.map_some, Option.some.injEq,
      Prod.mk.injEq] at hex
    rw [← hex.2]
  have hsame := congrArg Piconsole.rxBufferIndex ((hp rfl).2 hc)
  have hnonneg := h.con.nonneg
  rw [hcon] at hsame
  dsimp only at hsame
  omega

theorem Sourced.available (h : Ok s.console) (hsrc : Sourced s .read) :
    0 < s.console.available := by
  rw [h.available]
  obtain hf | hpos := hsrc rfl
  · obtain ⟨d, ds, hc⟩ := h.fromMonitor hf
    rw [hc, List.length_cons]
    omega
  · have hne := List.length_pos_iff.mpr (h.con.available_pos_iff.mp hpos)
    omega

/-- Calm events and sourced reads take the buffered bytes away from the front, and read()
returns just these. -/
theorem Ok.taken (h : Ok s.console) {es : List Event} {rs : List Int}
    (hw : While exec Sourced es s) (hcalm : Keeps exec Calm es s)
    (ha : answers exec es s = some (rs, t)) : Ok t.console ∧ ∃ ms cs,
      s.console.monitor.content = ms ++ t.console.monitor.content ∧
      s.console.con.content = cs ++ t.console.con.content ∧
      Interleaving (codes ms) (codes cs) (readAnswers es rs) ∧
      (readAnswers es rs).length = es.count .read := by
  induction es generalizing s rs with
  | nil =>
    obtain ⟨rfl, rfl⟩ : [] = rs ∧ s = t := by simpa [answers] using ha
    exact ⟨h, [], [], rfl, rfl, .nil, rfl⟩
  | cons e es ih =>
    obtain ⟨hsrc, hw⟩ := hw
    obtain ⟨r, u, hex, hu, hstep⟩ := h.step hsrc
    obtain ⟨r', u', hex', hce, hcalm⟩ := keeps_cons.mp hcalm
    obtain ⟨rfl, rfl⟩ := Prod.mk.inj (Option.some.inj (hex.symm.trans hex'))
    obtain ⟨r', u', rs', hex', ha', rfl⟩ := answers_cons_some ha
    obtain ⟨rfl, rfl⟩ := Prod.mk.inj (Option.some.inj (hex.symm.trans hex'))
    obtain ⟨ht, ms, cs, hm, hc, hi, hl⟩ := ih hu (by simpa [hex] using hw) hcalm ha'
    by_cases hread : e = .read
    · subst hread
      have hlen : (readAnswers (.read :: es) (r :: rs')).length =
          (Event.read :: es).count .read := by
        simp [readAnswers, hl]
      obtain ⟨d, hd, rfl, hcon⟩ | ⟨d, hd, rfl, hmon⟩ := (hstep rfl).1 (hsrc.available h)
      · exact ⟨ht, d :: ms, cs, by rw [hd, hm]; rfl, by rw [← hcon, hc], .left hi, hlen⟩
      · exact ⟨ht, ms, d :: cs, by rw [← hmon, hm], by rw [hd, hc]; rfl, .right hi, hlen⟩
    · obtain ⟨hem, hec⟩ := hce.resolve_left hread
      have hskip : readAnswers (e :: es) (r :: rs') = readAnswers es rs' := by
        cases e with
        | read => exact absurd rfl hread
        | _ => rfl
      refine ⟨ht, ms, cs, by rw [← hem, hm], by rw [← hec, hc], hskip ▸ hi, ?_⟩
      rw [hskip, hl, List.count_cons_of_ne hread]

/-- Over every run each read() takes the next byte of a source exactly if the source that
it turns to has one. Then the reads that follow an available() of n > 0, with nothing
arriving between them, return the n bytes counted: those of each source in their order. -/
theorem console_sources_iff_sourced (bound : Bool) (events : List Event) :
    (Keeps exec SourceStep events (start bound) ↔ While exec Sourced events (start bound)) ∧
    ∀ pre burst rs s rs' t, events = pre ++ burst →
      While exec Sourced events (start bound) →
      answers exec pre (start bound) = some (rs, s) → answers exec burst s = some (rs', t) →
      Keeps exec Calm burst s → (burst.count .read : Int) = s.console.available →
      Interleaving (codes s.console.monitor.content) (codes s.console.con.content)
        (readAnswers burst rs') ∧ t.console.available = 0 := by
  have hinv {s t : Session} {e : Event} {r : Int} (h : Ok s.console) (hsrc : Sourced s e)
      (hex : exec s e = some (r, t)) : Ok t.console := by
    obtain ⟨r', t', hex', ht, -⟩ := h.step hsrc
    obtain ⟨-, rfl⟩ := Prod.mk.inj (Option.some.inj (hex.symm.trans hex'))
    exact ht
  constructor
  · refine keeps_iff_while (fun s e h => ⟨fun hsrc => ?_, ?_⟩) (fun s e r t => hinv) events
      (start_ok bound)
    · obtain ⟨r, t, hex, -, hp⟩ := h.step hsrc
      exact ⟨r, t, hex, hp⟩
    · rintro ⟨r, t, hex, hp⟩
      exact h.sourced hex hp
  · rintro pre burst rs s rs' t rfl hw hpre hburst hcalm hn
    obtain ⟨hwpre, hwburst⟩ := hw.append hpre
    have hs : Ok s.console := hwpre.invariant (fun s e r t => hinv) (start_ok bound) hpre
    obtain ⟨ht, ms, cs, hm, hc, hi, hl⟩ := hs.taken hwburst hcalm hburst
    -- as many bytes were read as there were, so that none is left
    have hlen := hi.length
    simp only [codes, List.length_map] at hlen
    have hav := hs.available
    rw [hm, hc, List.length_append, List.length_append] at hav
    have hm0 : t.console.monitor.content = [] := List.length_eq_zero_iff.mp (by omega)
    have hc0 : t.console.con.content = [] := List.length_eq_zero_iff.mp (by omega)
    rw [hm, hc, hm0, hc0, List.append_nil, List.append_nil]
    exact ⟨hi, by rw [ht.available, hm0, hc0]; rfl⟩

/-- Two bytes of the monitor and one of standard input, read after the count of three. -/
theorem console_sources_three_bytes : ∃ rs s rs' t,
    answers exec [.consoleBegin, .monitorRun 5 Idemonitor.localhost [] false, .stdin [99],
      .consoleRun, .monitorRun (-1) 0 [97, 98] false] (start true) = some (rs, s) ∧
    answers exec [.read, .read, .read] s = some (rs', t) ∧
    Interleaving (codes [97, 98]) (codes [99]) (readAnswers [.read, .read, .read] rs') := by
  obtain ⟨⟨rs, s⟩, hs⟩ := Option.isSome_iff_exists.mp (show (answers exec [.consoleBegin,
    .monitorRun 5 Idemonitor.localhost [] false, .stdin [99], .consoleRun,
    .monitorRun (-1) 0 [97, 98] false] (start true)).isSome = true by decide +kernel)
  have hnow {α : Type} (g : Session → α) (a : α) (h : (answers exec [.consoleBegin,
      .monitorRun 5 Idemonitor.localhost [] false, .stdin [99], .consoleRun,
      .monitorRun (-1) 0 [97, 98] false] (start true)).map (fun b => g b.2) = some a) :
      g s = a := by
    rw [hs] at h
    exact Option.some.inj h
  obtain ⟨⟨rs', t⟩, ht⟩ := Option.isSome_iff_exists.mp (hnow
    (fun s => (answers exec [.read, .read, .read] s).isSome) true (by decide +kernel))
  refine ⟨rs, s, rs', t, hs, ht, ?_⟩
  have h := ((console_sources_iff_sourced true _).2 _ [.read, .read, .read] _ _ _ _ rfl
    (by decide +kernel) hs ht (of_decide_eq_true (hnow
      (fun s => decide (Keeps exec Calm [.read, .read, .read] s)) true (by decide +kernel)))
    (hnow (fun s => s.console.available) 3 (by decide +kernel)).symm).1
  rwa [hnow (fun s => s.console.monitor.content) [97, 98] (by decide +kernel),
    hnow (fun s => s.console.con.content) [99] (by decide +kernel)] at h

/-- The monitor disconnects with a byte buffered: that byte is counted, but read() turns to
the empty stdin buffer. -/
theorem console_read_after_disconnect : ¬ ∀ bound events,
    Keeps exec SourceStep events (start bound) := by
  intro h
  obtain ⟨r₁, s₁, e₁, -, h₁⟩ := keeps_cons.mp <| h true
    [.monitorRun 5 Idemonitor.localhost [] false, .monitorRun (-1) 0 [97] false,
      .monitorRun (-1) 0 [] true, .read]
  obtain ⟨r₂, s₂, e₂, -, h₂⟩ := keeps_cons.mp h₁
  obtain ⟨r₃, s₃, e₃, -, h₃⟩ := keeps_cons.mp h₂
  obtain ⟨r₄, s₄, e₄, hstep, -⟩ := keeps_cons.mp h₃
  cases e₁
  cases e₂
  cases e₃
  cases e₄
  have hsame := (hstep rfl).2 rfl
  revert hsame
  decide +kernel

end RasPiArduino.LinuxConsole
