import RasPiArduino.Client
import RasPiArduino.StreamParse

/-! parseInt() on a BridgeClient, whose peek() does not look at what is pending. -/
namespace RasPiArduino
open RasPiArduino.Net

namespace BridgeClient

def peek (_ : BridgeClient) (_ : Kernel) : Int := 0

def pending (c : BridgeClient) (k : Kernel) : List UInt8 :=
  match fileAt k c.sockfd with
  | some (.conn i) => (k.conns[i]?).elim [] Conn.inbox
  | _ => []

end BridgeClient

namespace TimedStream
variable {τ : Type}

/-- A client as a Stream, with no further arrivals; `junk` as in available(). -/
def client (clock : τ → Nat × τ) (junk : Int) : Device ((BridgeClient × Kernel) × τ) where
  read s :=
    let (c, client, kernel) := s.1.1.read s.1.2 junk
    (c, ((client, kernel), s.2))
  peek s := (s.1.1.peek s.1.2, s)
  millis s := ((clock s.2).1, (s.1, (clock s.2).2))

/-- What looking ahead on a client owes. Any other Stream stands for those that deliver the
bytes that are pending. -/
structure LooksAhead (clock : τ → Nat × τ) (junk : Int) (timeout : Nat)
    (s : (BridgeClient × Kernel) × τ) : Prop where
  peekNextDigit : ∀ lookahead detectDecimal,
    ∃ n r, peekNextDigit (client clock junk) timeout lookahead detectDecimal n s = some r
  parseInt : ∀ lookahead ignore,
    ∃ n r, parseInt (client clock junk) timeout lookahead ignore n s = some r
  peek : s.1.1.peek s.1.2 =
    if s.1.1.pending s.1.2 = [] then -1 else (s.1.1.read s.1.2 junk).1
  same : ∀ lookahead ignore (d : Device (List UInt8 × Nat)) (D : Delivery d timeout) s₀ n v s₁ rest,
    D.holds (s.1.1.pending s.1.2) s₀ →
    TimedStream.parseInt d timeout lookahead ignore n s₀ = some (v, s₁) → D.holds rest s₁ →
    ∃ m s', TimedStream.parseInt (client clock junk) timeout lookahead ignore m s = some (v, s') ∧
      s'.1.1.pending s'.1.2 = rest

variable {clock : τ → Nat × τ} {junk : Int} {timeout : Nat} {lookahead : LookaheadMode}

theorem timedPeek_client (clock : τ → Nat × τ) (junk : Int) (timeout n : Nat)
    (s : (BridgeClient × Kernel) × τ) :
    timedPeek (client clock junk) timeout (n + 1) s = some (0, (s.1, (clock s.2).2)) := rfl

theorem peekNextDigit_hangs (clock : τ → Nat × τ) (junk : Int) (timeout : Nat)
    (detectDecimal : Bool) (n : Nat) (s : (BridgeClient × Kernel) × τ) :
    peekNextDigit (client clock junk) timeout .skipAll detectDecimal n s = none := by
  induction n generalizing s with
  | zero => rfl
  | succ n ih =>
    rw [peekNextDigit]
    cases n with
    | zero => rfl
    | succ n =>
      rw [timedPeek_client]
      dsimp only [Option.bind_eq_bind, Option.bind_some]
      rw [if_neg (by omega)]
      exact ih _

theorem parseInt_hangs (clock : τ → Nat × τ) (junk : Int) (timeout : Nat) (ignore : UInt8)
    (n : Nat) (s : (BridgeClient × Kernel) × τ) :
    parseInt (client clock junk) timeout .skipAll ignore n s = none := by
  rw [parseInt, peekNextDigit_hangs]
  rfl

theorem parseInt_gives_up (h : lookahead ≠ .skipAll) (clock : τ → Nat × τ) (junk : Int)
    (timeout : Nat) (ignore : UInt8) (n : Nat) (s : (BridgeClient × Kernel) × τ) :
    parseInt (client clock junk) timeout lookahead ignore (n + 2) s =
      some (0, (s.1, (clock s.2).2)) := by
  have hpeek : peekNextDigit (client clock junk) timeout lookahead false (n + 2) s =
      some (-1, (s.1, (clock s.2).2)) := by
    rw [peekNextDigit, timedPeek_client]
    dsimp only [Option.bind_eq_bind, Option.bind_some]
    rw [if_neg (by simp)]
    cases lookahead with
    | skipAll => exact absurd rfl h
    | skipNone => rfl
    | skipWhitespace => exact if_neg (by omega)
  rw [parseInt, hpeek]
  rfl

/-- Whatever is pending, parseInt() does not return with the default look-ahead, and returns 0
with the others. -/
theorem never_looks_ahead (clock : τ → Nat × τ) (junk : Int) (timeout : Nat)
    (s : (BridgeClient × Kernel) × τ) :
    ¬ LooksAhead clock junk timeout s ∧
      (∀ ignore n, parseInt (client clock junk) timeout .skipAll ignore n s = none) ∧
      ∀ lookahead ignore n, lookahead ≠ .skipAll →
        parseInt (client clock junk) timeout lookahead ignore (n + 2) s =
          some (0, (s.1, (clock s.2).2)) := by
  refine ⟨fun h => ?_, fun ignore n => parseInt_hangs clock junk timeout ignore n s,
    fun lookahead ignore n hne => parseInt_gives_up hne clock junk timeout ignore n s⟩
  obtain ⟨n, r, hn⟩ := h.parseInt .skipAll 1
  rw [parseInt_hangs] at hn
  cases hn

def pendingDigit : BridgeClient × Kernel :=
  (⟨3, true⟩, ⟨[some .other, some .other, some .other, some (.conn 0)],
    [⟨[53], false, false, 100, [], false, false⟩], [], false⟩)

/-- peek() returns 0, read() would return '5', and parseInt() does not come back. -/
theorem digit_not_parsed :
    pendingDigit.1.peek pendingDigit.2 = 0 ∧ (pendingDigit.1.read pendingDigit.2 0).1 = 53 ∧
      (∀ n, parseInt (client (fun now => (now, now + 1)) 0) 1000 .skipAll 1 n (pendingDigit, 0) =
        none) ∧
      ¬ LooksAhead (fun now => (now, now + 1)) 0 1000 (pendingDigit, 0) := by
  refine ⟨rfl, by decide, fun n => parseInt_hangs _ 0 1000 1 n _, fun h => ?_⟩
  obtain ⟨n, r, hn⟩ := h.parseInt .skipAll 1
  rw [parseInt_hangs] at hn
  cases hn

end TimedStream
end RasPiArduino
