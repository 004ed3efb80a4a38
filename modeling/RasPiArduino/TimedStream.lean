import Mathlib

/-! Stream.cpp: reading with a timeout, on any class that is a Stream. The loops have fuel:
`none` is a loop that has not come to its end with it. -/
namespace RasPiArduino.TimedStream

structure Device (σ : Type) where
  read : σ → Int × σ
  peek : σ → Int × σ
  millis : σ → Nat × σ

variable {σ : Type}

def elapsed (now start : Nat) : Nat := (now + (2^32 - start)) % 2^32

def timedLoop (d : Device σ) (next : σ → Int × σ) (timeout start : Nat) :
    Nat → σ → Option (Int × σ)
  | 0, _ => none
  | n+1, s =>
    let (c, s) := next s
    if c ≥ 0 then some (c, s)
    else
      let (now, s) := d.millis s
      if elapsed now start < timeout then timedLoop d next timeout start n s
      else some (-1, s)

def timed (d : Device σ) (next : σ → Int × σ) (timeout n : Nat) (s : σ) : Option (Int × σ) :=
  let (start, s) := d.millis s
  timedLoop d next timeout start n s

def timedRead (d : Device σ) (timeout n : Nat) (s : σ) : Option (Int × σ) :=
  timed d d.read timeout n s

def timedPeek (d : Device σ) (timeout n : Nat) (s : σ) : Option (Int × σ) :=
  timed d d.peek timeout n s

/-- A Stream that delivers the bytes it holds before the timeout, and then times out. -/
structure Delivery (d : Device σ) (timeout : Nat) where
  holds : List UInt8 → σ → Prop
  read_byte : ∀ {x w s}, holds (x :: w) s →
    ∃ n s', timedRead d timeout n s = some ((x.toNat : Int), s') ∧ holds w s'
  read_end : ∀ {s}, holds [] s → ∃ n s', timedRead d timeout n s = some (-1, s') ∧ holds [] s'
  peek_byte : ∀ {x w s}, holds (x :: w) s →
    ∃ n s', timedPeek d timeout n s = some ((x.toNat : Int), s') ∧ holds (x :: w) s' ∧
      holds w (d.read s').2
  peek_end : ∀ {s}, holds [] s → ∃ n s', timedPeek d timeout n s = some (-1, s') ∧ holds [] s'

variable {d : Device σ} {next : σ → Int × σ} {timeout start n m : Nat} {s s' : σ}
  {r r' : Int × σ} {u w : List UInt8}

theorem timedLoop_mono (h : timedLoop d next timeout start n s = some r) (hle : n ≤ m) :
    timedLoop d next timeout start m s = some r := by
  induction n generalizing m s with
  | zero => cases h
  | succ n ih =>
    cases m with
    | zero => omega
    | succ m =>
      rw [timedLoop] at h ⊢
      dsimp only at h ⊢
      split at h
      · next hc => rwa [if_pos hc]
      · next hc =>
        rw [if_neg hc]
        split at h
        · next ht =>
          rw [if_pos ht]
          exact ih h (by omega)
        · next ht => rwa [if_neg ht]

theorem timed_mono (h : timed d next timeout n s = some r) (hle : n ≤ m) :
    timed d next timeout m s = some r :=
  timedLoop_mono h hle

theorem timedRead_mono (h : timedRead d timeout n s = some r) (hle : n ≤ m) :
    timedRead d timeout m s = some r :=
  timed_mono h hle

theorem timedPeek_mono (h : timedPeek d timeout n s = some r) (hle : n ≤ m) :
    timedPeek d timeout m s = some r :=
  timed_mono h hle

theorem timedRead_unique (h : timedRead d timeout n s = some r)
    (h' : timedRead d timeout m s = some r') : r = r' := by
  have hn := timedRead_mono h (Nat.le_max_left n m)
  have hm := timedRead_mono h' (Nat.le_max_right n m)
  exact Option.some.inj (hn.symm.trans hm)

theorem Delivery.unique (D : Delivery d timeout) (hu : D.holds u s) (hw : D.holds w s) : u = w := by
  induction u generalizing w s with
  | nil =>
    obtain ⟨n, s₁, hn, -⟩ := D.read_end hu
    cases w with
    | nil => rfl
    | cons y w =>
      obtain ⟨m, s₂, hm, -⟩ := D.read_byte hw
      have hc := congrArg Prod.fst (timedRead_unique hn hm)
      dsimp only at hc
      omega
  | cons x u ih =>
    obtain ⟨n, s₁, hn, hu'⟩ := D.read_byte hu
    cases w with
    | nil =>
      obtain ⟨m, s₂, hm, -⟩ := D.read_end hw
      have hc := congrArg Prod.fst (timedRead_unique hn hm)
      dsimp only at hc
      omega
    | cons y w =>
      obtain ⟨m, s₂, hm, hw'⟩ := D.read_byte hw
      have hr := timedRead_unique hn hm
      have hc := congrArg Prod.fst hr
      obtain rfl : s₁ = s₂ := congrArg Prod.snd hr
      obtain rfl : x = y := UInt8.toNat_inj.mp (Int.ofNat.inj hc)
      rw [ih hu' hw']

/-! A queue of bytes with a clock that goes on at each look. -/

def queue : Device (List UInt8 × Nat) where
  read s := match s.1 with
    | [] => (-1, s)
    | x :: w => (x.toNat, (w, s.2))
  peek s := match s.1 with
    | [] => (-1, s)
    | x :: _ => (x.toNat, s)
  millis s := (s.2 % 2^32, (s.1, s.2 + 1))

theorem elapsed_eq (k : Nat) {i : Nat} (h : i < 2^32) :
    elapsed ((k + i) % 2^32) (k % 2^32) = i := by
  unfold elapsed
  omega

theorem queue_timeout {next : List UInt8 × Nat → Int × (List UInt8 × Nat)}
    (hnext : ∀ k, next ([], k) = (-1, ([], k))) (ht : timeout < 2^32) (k i : Nat)
    (hi : i ≤ max 1 timeout) (hn : timeout + 1 - i < n) :
    ∃ k', timedLoop queue next timeout (k % 2^32) n ([], k + i) = some (-1, ([], k')) := by
  induction n generalizing i with
  | zero => omega
  | succ n ih =>
    have hclock : queue.millis ([], k + i) = ((k + i) % 2^32, ([], k + (i + 1))) := rfl
    rw [timedLoop, hnext]
    simp only [hclock, elapsed_eq k (show i < 2^32 by omega)]
    rw [if_neg (by decide)]
    split
    · next hlt => exact ih (i + 1) (by omega) (by omega)
    · exact ⟨_, rfl⟩

theorem queue_timed {next : List UInt8 × Nat → Int × (List UInt8 × Nat)}
    (hnext : ∀ k, next ([], k) = (-1, ([], k))) (ht : timeout < 2^32) (k : Nat) :
    ∃ k', timed queue next timeout (timeout + 1) ([], k) = some (-1, ([], k')) :=
  queue_timeout hnext ht k 1 (Nat.le_max_left 1 timeout) (by omega)

def queueDelivery (ht : timeout < 2^32) : Delivery queue timeout where
  holds w s := s.1 = w
  read_byte := by
    intro x w s h
    obtain ⟨v, k⟩ := s
    obtain rfl : v = x :: w := h
    exact ⟨1, (w, k + 1), rfl, rfl⟩
  read_end := by
    intro s h
    obtain ⟨v, k⟩ := s
    obtain rfl : v = [] := h
    obtain ⟨k', hk⟩ := queue_timed (show ∀ k, queue.read ([], k) = (-1, ([], k)) from fun _ => rfl) ht k
    exact ⟨timeout + 1, ([], k'), hk, rfl⟩
  peek_byte := by
    intro x w s h
    obtain ⟨v, k⟩ := s
    obtain rfl : v = x :: w := h
    exact ⟨1, (x :: w, k + 1), rfl, rfl, rfl⟩
  peek_end := by
    intro s h
    obtain ⟨v, k⟩ := s
    obtain rfl : v = [] := h
    obtain ⟨k', hk⟩ := queue_timed (show ∀ k, queue.peek ([], k) = (-1, ([], k)) from fun _ => rfl) ht k
    exact ⟨timeout + 1, ([], k'), hk, rfl⟩

end RasPiArduino.TimedStream
