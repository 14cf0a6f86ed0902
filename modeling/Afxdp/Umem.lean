import Afxdp.MmapArea

/-!
# `Umem`: the completion and fill queues

`UmemCompletionQueue::service` turns completed addresses back into buffers, `UmemFillQueue::fill`
hands buffers to the kernel. Each is followed by its closed form: what a call that is granted `n`
entries does to the collection, and the libbpf calls it makes, in order.
-/

namespace Afxdp

open Spsc (cursor)
open Loop (forRange)

/-- `UmemError`. -/
inductive UmemError
  | failed
deriving DecidableEq, Repr

variable {T : Type}

/-! ## `service` -/

section
variable [Inhabited T]

/-- The buffer `service` makes of a completed address. -/
def compBuf (bufLenAvailable addr : Nat) : BufMmap T :=
  ⟨addr, 0, ⟨addr, bufLenAvailable⟩, default⟩

/-- One iteration of `service`'s loop. -/
def serviceBody (p : Profile) (cq : XskRingCons Nat) (bufLenAvailable : Nat) (idx : UInt32) :
    CallM (Vec (BufMmap T)) UInt32 := do
  CallM.ffi (.compAddr idx)
  let addr := cq.desc idx
  let idx ← CallM.ofExcept (p.addU32 idx 1)
  let bufs ← CallM.bufs
  CallM.setBufs (bufs.push (compBuf bufLenAvailable addr))
  return idx

/-- `UmemCompletionQueue::service`. -/
def service (p : Profile) (area : MmapArea) (cq : XskRingCons Nat) (batchSize : Nat) :
    CallM (Vec (BufMmap T)) (Except UmemError Nat) := do
  let bufs ← CallM.bufs
  let room ← CallM.ofExcept (p.sub64 bufs.capacity bufs.len)
  let batchSize := min room batchSize
  let (ready, idx) := cq.peek batchSize
  CallM.ffi (.peek batchSize ready idx)
  if ready = 0 then
    return .ok 0
  let bufLenAvailable ← CallM.ofExcept (p.sub64 area.getBufLen afXdpReserved)
  forRange (serviceBody p cq bufLenAvailable) ready idx
  CallM.ffi (.release ready)
  return .ok ready

/-- The loop of `service` appends the buffers of the completed addresses in ring order. An
iteration whose increment panics has read its entry and appended nothing. -/
theorem serviceBody_advances (p : Profile) (cq : XskRingCons Nat) (avail c n : Nat)
    (v : Vec (BufMmap T)) (tr : List Ffi) :
    p.Advances (serviceBody p cq avail) c n
      (fun j => ⟨v.pushAll ((List.range j).map fun i => compBuf avail (cq.desc (cursor (c + i)))),
        tr ++ (List.range j).map fun i => .compAddr (cursor (c + i))⟩)
      (fun j => ⟨v.pushAll ((List.range j).map fun i => compBuf avail (cq.desc (cursor (c + i)))),
        tr ++ (List.range (j + 1)).map fun i => .compAddr (cursor (c + i))⟩) := by
  intro j _
  cases h : p.addU32 (cursor (c + j)) 1 <;>
    simp [serviceBody, CallM.bind_apply, CallM.map_apply, h, List.range_succ, Vec.pushAll_concat]

/-- The number of completions `service` asks for: as many as the vector's spare capacity holds. -/
def serviceRequest (v : Vec (BufMmap T)) (batchSize : Nat) : Nat :=
  min (v.capacity - v.len) batchSize

/-- A `service` that is granted nothing returns without touching the vector. -/
theorem service_zero {p : Profile} {area : MmapArea} {cq : XskRingCons Nat} {batchSize : Nat}
    {idx : UInt32} {v : Vec (BufMmap T)} (hpeek : cq.peek (serviceRequest v batchSize) = (0, idx)) :
    service p area cq batchSize ⟨v, []⟩ =
      .ok (.ok 0) ⟨v, [.peek (serviceRequest v batchSize) 0 idx]⟩ := by
  rw [serviceRequest] at hpeek ⊢
  simp only [service, CallM.bind_apply, CallM.bufs_apply, Vec.sub_len, CallM.ofExcept_ok, hpeek,
    CallM.ffi_apply, if_true, CallM.pure_apply, List.nil_append]

/-- A `service` that is granted `n` completions appends the `n` buffers in ring order. -/
theorem service_eq {p : Profile} {area : MmapArea} {cq : XskRingCons Nat} {batchSize n c : Nat}
    {v : Vec (BufMmap T)} (hpeek : cq.peek (serviceRequest v batchSize) = (n, cursor c))
    (hn : 0 < n) (hinc : p.Increments c n) (hlen : afXdpReserved ≤ area.bufLen) :
    service p area cq batchSize ⟨v, []⟩ = .ok (.ok n)
      ⟨v.pushAll ((List.range n).map fun i =>
          compBuf (area.bufLen - afXdpReserved) (cq.desc (cursor (c + i)))),
        [.peek (serviceRequest v batchSize) n (cursor c)] ++
          (List.range n).map (fun i => .compAddr (cursor (c + i))) ++ [.release n]⟩ := by
  have hloop := (serviceBody_advances p cq (area.bufLen - afXdpReserved) c n v
    [.peek (serviceRequest v batchSize) n (cursor c)]).ok hinc
  simp only [List.range_zero, List.map_nil, Vec.pushAll_nil, List.append_nil] at hloop
  rw [serviceRequest] at hpeek hloop ⊢
  simp only [service, CallM.bind_apply, CallM.bufs_apply, Vec.sub_len, CallM.ofExcept_ok, hpeek,
    CallM.ffi_apply, Nat.pos_iff_ne_zero.1 hn, if_false, MmapArea.getBufLen, p.sub64_ok hlen,
    List.nil_append, hloop, CallM.pure_apply]

end

/-! ## `fill` -/

/-- One iteration of `fill`'s loop. -/
def fillBody (p : Profile) (idx : UInt32) : CallM (Vec (BufMmap T)) UInt32 := do
  let bufs ← CallM.bufs
  let (b, bufs) := bufs.pop
  CallM.setBufs bufs
  match b with
  | some b =>
    let slot := idx
    let idx ← CallM.ofExcept (p.addU32 idx 1)
    CallM.ffi (.fillAddr slot b.addr)
    return idx
  | none => throw (.msg "not yet implemented: tried to get buffer from empty pool")

/-- `UmemFillQueue::fill`. -/
def fill (p : Profile) (fq : XskRingProd) (batchSize : Nat) :
    CallM (Vec (BufMmap T)) (Except UmemError Nat) := do
  let bufs ← CallM.bufs
  let batchSize := min bufs.len batchSize
  if batchSize = 0 then
    return .ok 0
  let (ready, idx) := fq.reserve batchSize
  CallM.ffi (.reserve batchSize ready idx)
  forRange (fillBody p) ready idx
  if ready > 0 then
    CallM.ffi (.submit ready)
  return .ok ready

/-- The loop of `fill` takes the buffers of the vector from the back and stores their addresses in
the slots in ring order. An iteration whose increment panics has taken its buffer and stored
nothing. -/
theorem fillBody_advances (p : Profile) {n : Nat} (c : Nat) {v : Vec (BufMmap T)}
    (tr : List Ffi) (hle : n ≤ v.len) :
    p.Advances (fillBody p) c n
      (fun j => ⟨v.dropLast j, tr ++ (List.range j).map fun i =>
        .fillAddr (cursor (c + i)) ((v.list.reverse.map BufMmap.addr).getD i 0)⟩)
      (fun j => ⟨v.dropLast (j + 1), tr ++ (List.range j).map fun i =>
        .fillAddr (cursor (c + i)) ((v.list.reverse.map BufMmap.addr).getD i 0)⟩) := by
  intro j hj
  have hjl : j < v.list.reverse.length := by
    rw [List.length_reverse]
    exact Nat.lt_of_lt_of_le hj hle
  have hjm : j < (v.list.reverse.map BufMmap.addr).length := by simpa using hjl
  cases h : p.addU32 (cursor (c + j)) 1 <;>
    simp only [fillBody, CallM.bind_apply, CallM.bufs_apply, Vec.pop_dropLast hjl,
      CallM.setBufs_apply, h, CallM.ofExcept_ok, CallM.ofExcept_error, CallM.ffi_apply,
      CallM.pure_apply, List.range_succ, List.map_append, List.map_cons, List.map_nil,
      List.append_assoc, List.getD_eq_getElem _ _ hjm, List.getElem_map]

/-- A `fill` with nothing to do returns before it asks libbpf. -/
theorem fill_nothing {p : Profile} {fq : XskRingProd} {batchSize : Nat} {v : Vec (BufMmap T)}
    (h : min v.len batchSize = 0) : fill p fq batchSize ⟨v, []⟩ = .ok (.ok 0) ⟨v, []⟩ := by
  simp only [fill, CallM.bind_apply, CallM.bufs_apply, h, if_true, CallM.pure_apply]

/-- A `fill` that is refused leaves the vector alone. -/
theorem fill_refused {p : Profile} {fq : XskRingProd} {batchSize : Nat} {idx : UInt32}
    {v : Vec (BufMmap T)} (hpos : min v.len batchSize ≠ 0)
    (hres : fq.reserve (min v.len batchSize) = (0, idx)) :
    fill p fq batchSize ⟨v, []⟩ =
      .ok (.ok 0) ⟨v, [.reserve (min v.len batchSize) 0 idx]⟩ := by
  simp only [fill, CallM.bind_apply, CallM.bufs_apply, hpos, if_false, hres, CallM.ffi_apply,
    forRange, CallM.pure_apply, gt_iff_lt, Nat.lt_irrefl, List.nil_append]

/-- A `fill` that is granted `n` slots takes the last `n` buffers of the vector, the last one
first, and writes their addresses to the slots in ring order. -/
theorem fill_eq {p : Profile} {fq : XskRingProd} {batchSize n c : Nat} {v : Vec (BufMmap T)}
    (hres : fq.reserve (min v.len batchSize) = (n, cursor c)) (hn : 0 < n)
    (hle : n ≤ min v.len batchSize) (hinc : p.Increments c n) :
    fill p fq batchSize ⟨v, []⟩ = .ok (.ok n)
      ⟨v.dropLast n, [.reserve (min v.len batchSize) n (cursor c)] ++
        (List.range n).map (fun i =>
          .fillAddr (cursor (c + i)) ((v.list.reverse.map BufMmap.addr).getD i 0)) ++
        [.submit n]⟩ := by
  have hpos : min v.len batchSize ≠ 0 := by omega
  have hloop := (fillBody_advances p c [.reserve (min v.len batchSize) n (cursor c)]
    (Nat.le_trans hle (Nat.min_le_left _ _))).ok hinc
  simp only [List.range_zero, List.map_nil, Vec.dropLast_zero, List.append_nil] at hloop
  simp only [fill, CallM.bind_apply, CallM.bufs_apply, hpos, if_false, hres, CallM.ffi_apply,
    List.nil_append, hloop, gt_iff_lt, hn, if_true, CallM.pure_apply]

end Afxdp
