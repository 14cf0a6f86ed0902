import Afxdp.Lib.Window
import Afxdp.Machine

/-!
# `BufMmap`

The packet buffer of the AF_XDP sockets: an address in the umem area, the length of the packet and
the slice of the area that holds it. A slice is a window of addresses relative to the start of the
mapping; its bytes are read from the memory of the area.
-/

namespace Afxdp

open Mem (Window readAt)

/-- The bytes reserved at the front of a buffer for the driver (`AF_XDP_RESERVED`). -/
def afXdpReserved : Nat := 256

/-- The size of the deque used when reading from and writing to a socket (`PENDING_LEN`). -/
def pendingLen : Nat := 4096

/-- `BufMmap`. -/
structure BufMmap (T : Type) where
  /-- The address in the umem area. -/
  addr : Nat
  /-- The length of the valid packet data. -/
  len : UInt16
  /-- The slice that contains the packet data. -/
  data : Window
  /-- The user defined value. -/
  user : T
deriving DecidableEq, Repr

namespace BufMmap

variable {T : Type} (b : BufMmap T)

/-- `get_data`. -/
def getData (mem : Nat → UInt8) : List UInt8 := readAt mem b.data.start b.data.len

/-- A store through the slice of `get_data_mut`, which panics outside it. -/
def writeData (mem : Nat → UInt8) (j : Nat) (v : UInt8) : Except Panic (Nat → UInt8) :=
  if j < b.data.len then .ok (Function.update mem (b.data.start + j) v)
  else .error (.msg s!"index out of bounds: the len is {b.data.len} but the index is {j}")

/-- `get_capacity`: the slice's length, unless it does not fit a `u16`. -/
def getCapacity : Except Panic UInt16 :=
  if b.data.len < 2 ^ 16 then .ok (UInt16.ofNat b.data.len) else .error .unwrap

/-- `get_len`. -/
def getLen : UInt16 := b.len

/-- `set_len`. -/
def setLen (len : UInt16) : EStateM Panic (BufMmap T) Unit := fun b =>
  match b.getCapacity with
  | .error e => .error e b
  | .ok cap =>
    if len > cap then .error (.msg s!"len too large {len} vs {cap}") b
    else .ok () { b with len }

/-- `&get_data()[0..get_len()]`, which panics if the length exceeds the slice. -/
def packet (mem : Nat → UInt8) : Option (List UInt8) :=
  if b.len.toNat ≤ b.data.len then some ((b.getData mem).take b.len.toNat) else none

theorem packet_eq {mem : Nat → UInt8} (h : b.len.toNat ≤ b.data.len) :
    b.packet mem = some (readAt mem b.data.start b.len.toNat) := by
  rw [packet, if_pos h, getData, Mem.readAt_take _ _ h]

/-- The capacity is the length of the slice, where it is defined. -/
theorem getCapacity_ok {b : BufMmap T} {cap : UInt16} (h : b.getCapacity = .ok cap) :
    cap.toNat = b.data.len := by
  unfold getCapacity at h
  split at h
  · next hlt => cases h; simpa using Nat.mod_eq_of_lt hlt
  · cases h

/-- A `set_len` that returns has set the length, to at most the length of the slice, and nothing
else. -/
theorem setLen_ok {b b' : BufMmap T} {len : UInt16} (h : setLen len b = .ok () b') :
    b' = { b with len } ∧ len.toNat ≤ b.data.len := by
  unfold setLen at h
  split at h
  · cases h
  · next cap hcap =>
      split at h
      · cases h
      · next hle =>
          cases h
          refine ⟨rfl, ?_⟩
          rw [← getCapacity_ok hcap]
          exact Nat.le_of_not_lt fun hlt => hle (UInt16.lt_iff_toNat_lt.2 hlt)

/-- A `set_len` beyond the capacity panics with its message and leaves the buffer unchanged. -/
theorem setLen_too_large {b : BufMmap T} {len cap : UInt16} (hcap : b.getCapacity = .ok cap)
    (h : cap < len) : setLen len b = .error (.msg s!"len too large {len} vs {cap}") b := by
  simp only [setLen, hcap, gt_iff_lt, if_pos h]

end BufMmap

end Afxdp
