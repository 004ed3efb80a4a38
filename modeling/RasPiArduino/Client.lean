import RasPiArduino.Sockets

/-! The class BridgeClient over the sockets. -/
namespace RasPiArduino
open RasPiArduino.Net

structure BridgeClient where
  sockfd : Int
  flag : Bool
  deriving DecidableEq, Repr

namespace BridgeClient

def none : BridgeClient := ⟨-1, false⟩

/-- `junk` is what `count` holds when ioctl fails. -/
def available (c : BridgeClient) (k : Kernel) (junk : Int) : Int :=
  (fionread k c.sockfd).getD junk

def readBlock (c : BridgeClient) (k : Kernel) (size : Nat) (junk : Int) :
    Int × List UInt8 × BridgeClient × Kernel :=
  if !c.flag then (-1, [], c, k)
  else
    let res := probe k c.sockfd
    let (res, bytes, k) :=
      if size ≠ 0 ∧ res = 0 ∧ available c k junk ≠ 0 then recv k c.sockfd size else (res, [], k)
    (res, bytes, if res < 0 then { c with flag := false } else c, k)

def read (c : BridgeClient) (k : Kernel) (junk : Int) : Int × BridgeClient × Kernel :=
  let (res, bytes, c, k) := readBlock c k 1 junk
  (if res < 0 then res else (bytes.headD 0).toNat, c, k)

def connected (c : BridgeClient) (k : Kernel) : Bool × BridgeClient :=
  if !c.flag then (false, c)
  else
    let c := (readBlock c k 0 0).2.2.1
    (c.flag, c)

def write (c : BridgeClient) (k : Kernel) (data : List UInt8) : Int × BridgeClient × Kernel :=
  if !c.flag then (0, c, k)
  else
    let (res, k) := send k c.sockfd data
    if res < 0 then (0, { c with flag := false }, k) else (res, c, k)

def stop (c : BridgeClient) (k : Kernel) : BridgeClient × Kernel :=
  ({ c with flag := false }, if c.sockfd > 0 then close k c.sockfd else k)

variable {c : BridgeClient} {k : Kernel}

theorem connected_eq (c : BridgeClient) (k : Kernel) :
    (connected c k).1 = (c.flag && (fileAt k c.sockfd).isSome) := by
  cases hf : c.flag with
  | false => simp [connected, hf]
  | true =>
    cases ho : (fileAt k c.sockfd).isSome <;> simp [connected, readBlock, probe, hf, ho]

theorem connected_same (h : (connected c k).1 = true) : (connected c k).2 = c := by
  rw [connected_eq, Bool.and_eq_true] at h
  simp [connected, readBlock, probe, h.1, h.2]

@[simp] theorem readBlock_sockfd (c : BridgeClient) (k : Kernel) (size : Nat) (junk : Int) :
    (readBlock c k size junk).2.2.1.sockfd = c.sockfd := by
  unfold readBlock
  split
  · rfl
  · dsimp only
    split <;> split <;> rfl

theorem connected_sockfd (c : BridgeClient) (k : Kernel) : (connected c k).2.sockfd = c.sockfd := by
  unfold connected
  split
  · rfl
  · exact readBlock_sockfd c k 0 0

@[simp] theorem write_sockfd (c : BridgeClient) (k : Kernel) (data : List UInt8) :
    (write c k data).2.1.sockfd = c.sockfd := by
  unfold write
  split
  · rfl
  · dsimp only
    split <;> rfl

theorem readBlock_client (c : BridgeClient) (k : Kernel) (size : Nat) (junk : Int) :
    (readBlock c k size junk).2.2.1 = c ∨
      (readBlock c k size junk).2.2.1 = { c with flag := false } := by
  unfold readBlock
  split
  · exact .inl rfl
  · dsimp only
    split <;> split
    · exact .inr rfl
    · exact .inl rfl
    · exact .inr rfl
    · exact .inl rfl

theorem connected_client (c : BridgeClient) (k : Kernel) :
    (connected c k).2 = c ∨ (connected c k).2 = { c with flag := false } := by
  unfold connected
  split
  · exact .inl rfl
  · exact readBlock_client c k 0 0

theorem write_client (c : BridgeClient) (k : Kernel) (data : List UInt8) :
    (write c k data).2.1 = c ∨
      (write c k data).2.1 = { c with flag := false } ∧ (send k c.sockfd data).1 < 0 := by
  unfold write
  split
  · exact .inl rfl
  · dsimp only
    split
    · next hres => exact .inr ⟨rfl, hres⟩
    · exact .inl rfl

theorem readBlock_table (c : BridgeClient) (k : Kernel) (size : Nat) (junk : Int) :
    SameTable k (readBlock c k size junk).2.2.2 := by
  unfold readBlock
  split
  · exact .refl k
  · dsimp only
    split
    · exact recv_table k _ _
    · exact .refl k

theorem readBlock_same (x : BridgeClient) {d : Nat} {y : Conn}
    (hf : fileAt k x.sockfd = some (.conn d)) (hy : k.conns[d]? = some y) (size : Nat)
    (junk : Int) : (x.readBlock k size junk).2.2.1 = x := by
  have hprobe : probe k x.sockfd = 0 := by simp [probe, hf]
  have havail : x.available k junk = y.inbox.length := by
    simp [available, fionread, hf, hy]
  have hrecv : y.inbox ≠ [] → ¬ (recv k x.sockfd size).1 < 0 := by
    intro hne
    simp [recv, hf, hy, hne]
  unfold readBlock
  split
  · rfl
  · dsimp only
    rw [hprobe, havail]
    split
    · next hread =>
      rw [if_neg (hrecv fun he => by simp [he] at hread)]
    · rfl

theorem connected_open (x : BridgeClient) {d : Nat} {y : Conn}
    (hf : fileAt k x.sockfd = some (.conn d)) (hy : k.conns[d]? = some y) :
    (x.connected k).2 = x := by
  unfold connected
  split
  · rfl
  · exact x.readBlock_same hf hy 0 0

theorem write_table (c : BridgeClient) (k : Kernel) (data : List UInt8) :
    SameTable k (write c k data).2.2 := by
  unfold write
  split
  · exact .refl k
  · dsimp only
    split <;> exact send_table k _ _

end BridgeClient
end RasPiArduino
