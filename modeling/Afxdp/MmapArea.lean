import Afxdp.BufMmap

/-!
# `MmapArea`

The mapped memory area and the buffers cut from it. Addresses and slices are relative to the start
of the mapping, so the pointer itself is not kept; whether `mmap` succeeds is a parameter.
-/

namespace Afxdp

open Mem (Window)

/-- `MmapArea`: the number and the length of its buffers. -/
structure MmapArea where
  bufNum : Nat
  bufLen : Nat
deriving DecidableEq, Repr

/-- `MmapError`. -/
inductive MmapError
  | failed
deriving DecidableEq, Repr

/-- `MmapAreaOptions`. -/
structure MmapAreaOptions where
  hugeTlb : Bool := false
deriving DecidableEq, Repr

namespace MmapArea

/-- `get_buf_num`. -/
def getBufNum (area : MmapArea) : Nat := area.bufNum

/-- `get_buf_len`. -/
def getBufLen (area : MmapArea) : Nat := area.bufLen

variable {T : Type} [Inhabited T]

/-- The loop of `new` that cuts the buffers, from buffer `i` on. -/
def newBufs (p : Profile) (bufLen bufLenAvailable : Nat) :
    Nat → Nat → Vec (BufMmap T) → Except Panic (Vec (BufMmap T))
  | 0, _, bufs => .ok bufs
  | n + 1, i, bufs => do
    let addr ← p.add64 (← p.mul64 i bufLen) afXdpReserved
    newBufs p bufLen bufLenAvailable n (i + 1)
      (bufs.push ⟨addr, 0, ⟨addr, bufLenAvailable⟩, default⟩)

/-- `MAP_PRIVATE | MAP_ANONYMOUS`, and `MAP_HUGETLB` if asked for. -/
def mmapFlags (options : MmapAreaOptions) : Nat :=
  if options.hugeTlb then 0x02 ||| 0x20 ||| 0x40000 else 0x02 ||| 0x20

/-- `MmapArea::new`. `mmap` answers for a length and flags whether the mapping succeeds. -/
def new (p : Profile) (mmap : Nat → Nat → Bool) (bufNum bufLen : Nat)
    (options : MmapAreaOptions) :
    Except Panic (Except MmapError (MmapArea × Vec (BufMmap T))) := do
  let size ← p.mul64 bufNum bufLen
  if !mmap size (mmapFlags options) then
    return .error .failed
  let bufLenAvailable ← p.sub64 bufLen afXdpReserved
  let bufs ← newBufs p bufLen bufLenAvailable bufNum 0 (Vec.withCapacity bufNum)
  return .ok (⟨bufNum, bufLen⟩, bufs)

/-- The buffer of the `k`-th chunk of `bufLen` bytes, as `new` cuts it. -/
def chunkBuf (bufLen k : Nat) : BufMmap T :=
  ⟨k * bufLen + afXdpReserved, 0, ⟨k * bufLen + afXdpReserved, bufLen - afXdpReserved⟩, default⟩

/-- The loop appends the buffers of the chunks `i, …, i + n - 1`, and a vector with room for them
does not grow. -/
theorem newBufs_ok {p : Profile} {bufLen n i : Nat} (bufs : Vec (BufMmap T))
    (h : (i + n) * bufLen < 2 ^ 64) (hlen : afXdpReserved ≤ bufLen)
    (hcap : bufs.len + n ≤ bufs.capacity) :
    ∃ bufs', newBufs p bufLen (bufLen - afXdpReserved) n i bufs = .ok bufs' ∧
      bufs'.list = bufs.list ++ (List.range n).map (fun j => chunkBuf bufLen (i + j)) ∧
      bufs'.capacity = bufs.capacity := by
  induction n generalizing i bufs with
  | zero => exact ⟨bufs, rfl, by simp, rfl⟩
  | succ n ih =>
      have hi : (i + 1) * bufLen ≤ (i + (n + 1)) * bufLen := Nat.mul_le_mul_right _ (by omega)
      rw [Nat.succ_mul] at hi
      have hadd : i * bufLen + afXdpReserved < 2 ^ 64 := by omega
      obtain ⟨bufs', he, hl, hc⟩ := ih (i := i + 1) (bufs.push (chunkBuf bufLen i))
        (by rw [Nat.add_assoc, Nat.add_comm 1]; exact h)
        (by simp only [Vec.push, Vec.len] at hcap ⊢; simp; omega)
      refine ⟨bufs', ?_, ?_, ?_⟩
      · simp only [newBufs, p.mul64_ok (Nat.lt_of_le_of_lt (Nat.le_add_right _ _) hadd),
          p.add64_ok hadd, bind, Except.bind]
        exact he
      · rw [hl, List.range_succ_eq_map]
        simp [Vec.push, Nat.add_assoc, Nat.add_comm 1, Function.comp_def]
      · rw [hc]
        simp only [Vec.push, Vec.len] at hcap ⊢
        omega

/-- The buffers of the first `bufNum` chunks, in a vector of exactly that capacity. -/
def chunkVec (bufNum bufLen : Nat) : Vec (BufMmap T) :=
  ⟨(List.range bufNum).map (chunkBuf bufLen), bufNum, by simp⟩

/-- Where the product fits 64 bits and a buffer has room for the reserved bytes, `new` cuts the
area into one buffer per chunk. -/
theorem new_ok {p : Profile} {mmap : Nat → Nat → Bool} {bufNum bufLen : Nat}
    {options : MmapAreaOptions} (hsize : bufNum * bufLen < 2 ^ 64) (hlen : afXdpReserved ≤ bufLen)
    (hmap : mmap (bufNum * bufLen) (mmapFlags options) = true) :
    new (T := T) p mmap bufNum bufLen options =
      .ok (.ok (⟨bufNum, bufLen⟩, chunkVec bufNum bufLen)) := by
  obtain ⟨bufs, he, hl, hc⟩ := newBufs_ok (T := T) (p := p) (i := 0) (n := bufNum)
    (Vec.withCapacity bufNum) (by simpa using hsize) hlen
    (by simp [Vec.withCapacity, Vec.len])
  have hbufs : bufs = chunkVec bufNum bufLen :=
    Vec.ext (by simpa [Vec.withCapacity, chunkVec] using hl) hc
  simp only [new, p.mul64_ok hsize, p.sub64_ok hlen, he, hmap, hbufs, bind, Except.bind, pure,
    Except.pure, Bool.not_true, Bool.false_eq_true, if_false]

/-- What a successful `new` returns. -/
theorem new_inv {p : Profile} {mmap : Nat → Nat → Bool} {bufNum bufLen : Nat}
    {options : MmapAreaOptions} {area : MmapArea} {bufs : Vec (BufMmap T)}
    (hsize : bufNum * bufLen < 2 ^ 64) (hlen : afXdpReserved ≤ bufLen)
    (h : new p mmap bufNum bufLen options = .ok (.ok (area, bufs))) :
    area = ⟨bufNum, bufLen⟩ ∧ bufs = chunkVec bufNum bufLen := by
  cases hmap : mmap (bufNum * bufLen) (mmapFlags options) with
  | true =>
    rw [new_ok hsize hlen hmap] at h
    cases h
    exact ⟨rfl, rfl⟩
  | false =>
    simp only [new, p.mul64_ok hsize, hmap, bind, Except.bind, pure, Except.pure, Bool.not_false,
      if_true] at h
    cases h

end MmapArea

end Afxdp
