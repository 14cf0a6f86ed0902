import Afxdp.MmapArea

/-!
# `Socket`: the receive and transmit calls

`SocketRx::try_recv` turns received descriptors into buffers at the back of the pending deque,
`SocketTx::try_send` sends buffers from its front and wakes the kernel if it asks for it. As in
`Afxdp.Umem`, each is followed by its closed form.
-/

namespace Afxdp

open Spsc (cursor)
open Loop (forRange forRange_error)

/-- `SocketError`. -/
inductive SocketError
  | failed
deriving DecidableEq, Repr

variable {T : Type}

/-! ## `try_recv` -/

/-- The `u16` conversion of a descriptor's length, which panics if it does not fit. -/
def lenTryInto (len : Nat) : Except Panic UInt16 :=
  if len < 2 ^ 16 then .ok (UInt16.ofNat len) else .error .unwrap

/-- The buffer `try_recv` makes of a received descriptor. -/
def rxBuf (bufLenAvailable : Nat) (user : T) (desc : XdpDesc) : Except Panic (BufMmap T) := do
  let len ← lenTryInto desc.len
  return ⟨desc.addr, len, ⟨desc.addr, bufLenAvailable⟩, user⟩

/-- One iteration of `try_recv`'s loop. -/
def tryRecvBody (p : Profile) (rx : XskRingCons XdpDesc) (bufLenAvailable : Nat) (user : T)
    (idxRx : UInt32) : CallM (ArrayDeque (BufMmap T)) UInt32 := do
  CallM.ffi (.rxDesc idxRx)
  let b ← CallM.ofExcept (rxBuf bufLenAvailable user (rx.desc idxRx))
  let bufs ← CallM.bufs
  let (r, bufs) := bufs.pushBack b
  CallM.setBufs bufs
  if r.isSome then
    throw (.msg "there should be space")
  CallM.ofExcept (p.addU32 idxRx 1)

/-- `SocketRx::try_recv`. -/
def tryRecv (p : Profile) (area : MmapArea) (rx : XskRingCons XdpDesc) (batchSize : Nat)
    (user : T) : CallM (ArrayDeque (BufMmap T)) (Except SocketError Nat) := do
  let bufs ← CallM.bufs
  let room ← CallM.ofExcept (p.sub64 bufs.capacity bufs.len)
  let batchSize := min room batchSize
  let (rcvd, idxRx) := rx.peek batchSize
  CallM.ffi (.peek batchSize rcvd idxRx)
  if rcvd = 0 then
    return .ok 0
  let bufLenAvailable ← CallM.ofExcept (p.sub64 area.getBufLen afXdpReserved)
  forRange (tryRecvBody p rx bufLenAvailable user) rcvd idxRx
  CallM.ffi (.release rcvd)
  return .ok rcvd

/-- The buffer of a descriptor whose length fits. -/
def rxBufOf (bufLenAvailable : Nat) (user : T) (desc : XdpDesc) : BufMmap T :=
  ⟨desc.addr, UInt16.ofNat desc.len, ⟨desc.addr, bufLenAvailable⟩, user⟩

theorem rxBuf_ok {avail : Nat} {user : T} {desc : XdpDesc} (h : desc.len < 2 ^ 16) :
    rxBuf avail user desc = .ok (rxBufOf avail user desc) := by
  simp only [rxBuf, lenTryInto, if_pos h, rxBufOf, bind, Except.bind, pure, Except.pure]

/-- The loop of `try_recv` appends the buffers of the descriptors in ring order, as long as there
is room for them and their lengths fit. An iteration whose increment panics has appended its
buffer. -/
theorem tryRecvBody_advances (p : Profile) {rx : XskRingCons XdpDesc} (avail : Nat) (user : T)
    {c n : Nat} {d : ArrayDeque (BufMmap T)} (tr : List Ffi) (hroom : d.len + n ≤ d.capacity)
    (hdesc : ∀ i, i < n → (rx.desc (cursor (c + i))).len < 2 ^ 16) :
    p.Advances (tryRecvBody p rx avail user) c n
      (fun j => ⟨d.pushAll ((List.range j).map fun i =>
          rxBufOf avail user (rx.desc (cursor (c + i)))),
        tr ++ (List.range j).map fun i => .rxDesc (cursor (c + i))⟩)
      (fun j => ⟨d.pushAll ((List.range (j + 1)).map fun i =>
          rxBufOf avail user (rx.desc (cursor (c + i)))),
        tr ++ (List.range (j + 1)).map fun i => .rxDesc (cursor (c + i))⟩) := by
  intro j hj
  obtain ⟨d', hd'⟩ : ∃ d', d.pushAll ((List.range j).map fun i =>
      rxBufOf avail user (rx.desc (cursor (c + i)))) = d' := ⟨_, rfl⟩
  obtain ⟨hl, hc⟩ := d.pushAll_eq ((List.range j).map fun i =>
    rxBufOf avail user (rx.desc (cursor (c + i)))) (by simp; omega)
  rw [hd'] at hl hc
  have hlt : d'.len < d'.capacity := by
    rw [ArrayDeque.len, hl, hc]
    simp only [List.length_append, List.length_map, List.length_range, ArrayDeque.len] at hroom ⊢
    omega
  cases h : p.addU32 (cursor (c + j)) 1 <;>
    simp [tryRecvBody, CallM.bind_apply, rxBuf_ok (hdesc j hj), hd', d'.pushBack_of_lt hlt, h,
      List.range_succ, ArrayDeque.pushAll_concat]

/-- The number of descriptors `try_recv` asks for: as many as the deque has room for. -/
def recvRequest (d : ArrayDeque (BufMmap T)) (batchSize : Nat) : Nat :=
  min (d.capacity - d.len) batchSize

/-- What is asked for fits the deque. -/
theorem room_of_recvRequest {d : ArrayDeque (BufMmap T)} {batchSize n : Nat}
    (h : n ≤ recvRequest d batchSize) : d.len + n ≤ d.capacity := by
  have := d.le
  simp only [recvRequest, ArrayDeque.len] at *
  omega

/-- A `try_recv` that is granted nothing returns without touching the deque. -/
theorem tryRecv_zero {p : Profile} {area : MmapArea} {rx : XskRingCons XdpDesc} {batchSize : Nat}
    {user : T} {idx : UInt32} {d : ArrayDeque (BufMmap T)}
    (hpeek : rx.peek (recvRequest d batchSize) = (0, idx)) :
    tryRecv p area rx batchSize user ⟨d, []⟩ =
      .ok (.ok 0) ⟨d, [.peek (recvRequest d batchSize) 0 idx]⟩ := by
  rw [recvRequest] at hpeek ⊢
  simp only [tryRecv, CallM.bind_apply, CallM.bufs_apply, ArrayDeque.sub_len, CallM.ofExcept_ok,
    hpeek, CallM.ffi_apply, if_true, CallM.pure_apply, List.nil_append]

/-- A `try_recv` that is granted `n` descriptors appends the `n` buffers in ring order. -/
theorem tryRecv_eq {p : Profile} {area : MmapArea} {rx : XskRingCons XdpDesc}
    {batchSize n c : Nat} {user : T} {d : ArrayDeque (BufMmap T)}
    (hpeek : rx.peek (recvRequest d batchSize) = (n, cursor c)) (hn : 0 < n)
    (hle : n ≤ recvRequest d batchSize) (hinc : p.Increments c n)
    (hlen : afXdpReserved ≤ area.bufLen)
    (hdesc : ∀ i, i < n → (rx.desc (cursor (c + i))).len < 2 ^ 16) :
    tryRecv p area rx batchSize user ⟨d, []⟩ = .ok (.ok n)
      ⟨d.pushAll ((List.range n).map fun i =>
          rxBufOf (area.bufLen - afXdpReserved) user (rx.desc (cursor (c + i)))),
        [.peek (recvRequest d batchSize) n (cursor c)] ++
          (List.range n).map (fun i => .rxDesc (cursor (c + i))) ++ [.release n]⟩ := by
  have hloop := (tryRecvBody_advances p (area.bufLen - afXdpReserved) user
    [.peek (recvRequest d batchSize) n (cursor c)] (room_of_recvRequest hle) hdesc).ok hinc
  simp only [List.range_zero, List.map_nil, ArrayDeque.pushAll_nil, List.append_nil] at hloop
  rw [recvRequest] at hpeek hloop ⊢
  simp only [tryRecv, CallM.bind_apply, CallM.bufs_apply, ArrayDeque.sub_len, CallM.ofExcept_ok,
    hpeek, CallM.ffi_apply, Nat.pos_iff_ne_zero.1 hn, if_false, MmapArea.getBufLen,
    p.sub64_ok hlen, List.nil_append, hloop, CallM.pure_apply]

theorem rxBuf_error {avail : Nat} {user : T} {desc : XdpDesc} (h : ¬ desc.len < 2 ^ 16) :
    rxBuf avail user desc = .error .unwrap := by
  simp only [rxBuf, lenTryInto, if_neg h, bind, Except.bind]

/-- A `try_recv` that is granted a descriptor whose length does not fit a `u16` panics. -/
theorem tryRecv_panic (area : MmapArea) (user : T) {rx : XskRingCons XdpDesc}
    {batchSize n c k : Nat} {d : ArrayDeque (BufMmap T)}
    (hpeek : rx.peek (recvRequest d batchSize) = (n, cursor c))
    (hle : n ≤ recvRequest d batchSize) (hk : k < n)
    (hbad : ¬ (rx.desc (cursor (c + k))).len < 2 ^ 16) :
    ∃ e s, tryRecv .release area rx batchSize user ⟨d, []⟩ = .error e s := by
  -- the loop ends in the first iteration that meets such a descriptor
  induction k using Nat.strongRecOn with
  | ind k ih =>
  by_cases hfirst : ∃ j, j < k ∧ ¬ (rx.desc (cursor (c + j))).len < 2 ^ 16
  · obtain ⟨j, hj, hb⟩ := hfirst
    exact ih j hj (by omega) hb
  simp only [not_exists, not_and, not_not] at hfirst
  obtain ⟨avail, havail⟩ : ∃ a, Profile.release.sub64 area.getBufLen afXdpReserved = .ok a :=
    ⟨_, rfl⟩
  have hroom : d.len + k ≤ d.capacity :=
    room_of_recvRequest (Nat.le_trans (Nat.le_of_lt hk) hle)
  have hadv := tryRecvBody_advances .release avail user
    [.peek (recvRequest d batchSize) n (cursor c)] hroom hfirst
  have hloop := forRange_error _ (fun j => cursor (c + j)) _ hk
    (fun j hj => hadv.step (.inl rfl) hj) (by
      simp only [tryRecvBody, CallM.bind_apply, CallM.ffi_apply, rxBuf_error hbad,
        CallM.ofExcept_error]
      rfl)
  simp only [Nat.add_zero, List.range_zero, List.map_nil, ArrayDeque.pushAll_nil,
    List.append_nil] at hloop
  rw [recvRequest] at hpeek hloop
  have hn : n ≠ 0 := by omega
  simp only [tryRecv, CallM.bind_apply, CallM.bufs_apply, ArrayDeque.sub_len, CallM.ofExcept_ok,
    hpeek, CallM.ffi_apply, hn, if_false, havail, List.nil_append, hloop]
  exact ⟨_, _, rfl⟩

/-! ## `try_send` -/

/-- `SocketTx::needs_wakeup`. -/
def needsWakeup (tx : XskRingProd) : Bool := if tx.needsWakeup then true else false

/-- `SocketTx::wakeup_if_required`. -/
def wakeupIfRequired {β : Type} (tx : XskRingProd) : CallM β Bool := do
  if tx.needsWakeup then
    CallM.ffi .sendto
    match tx.sendto with
    | .sent => return true
    | .failed errno =>
      match errno with
      | .ENOBUFS | .EAGAIN | .EBUSY | .ENETDOWN => pure ()
      | .other _ => throw (.msg "xdpsock_user.c sample panics here")
    return true
  return false

/-- One iteration of `try_send`'s loop. -/
def trySendBody (p : Profile) (idxTx : UInt32) : CallM (ArrayDeque (BufMmap T)) UInt32 := do
  let bufs ← CallM.bufs
  let (b, bufs) := bufs.popFront
  CallM.setBufs bufs
  let b ← CallM.unwrap b
  CallM.ffi (.txDesc idxTx b.addr b.len.toNat)
  CallM.ofExcept (p.addU32 idxTx 1)

/-- `SocketTx::try_send`. -/
def trySend (p : Profile) (tx : XskRingProd) (batchSize : Nat) :
    CallM (ArrayDeque (BufMmap T)) (Except SocketError Nat) := do
  let bufs ← CallM.bufs
  let batchSize := min bufs.len batchSize
  if batchSize = 0 then
    return .ok 0
  let (ready, idxTx) := tx.reserve batchSize
  CallM.ffi (.reserve batchSize ready idxTx)
  forRange (trySendBody p) ready idxTx
  if ready > 0 then
    CallM.ffi (.submit ready)
  let _ ← wakeupIfRequired tx
  return .ok ready

/-- The `sendto` results `wakeup_if_required` accepts. -/
def Sendto.Accepted : Sendto → Prop
  | .failed (.other _) => False
  | _ => True

instance : DecidablePred Sendto.Accepted
  | .sent | .failed .ENOBUFS | .failed .EAGAIN | .failed .EBUSY | .failed .ENETDOWN =>
    .isTrue trivial
  | .failed (.other _) => .isFalse id

/-- The calls of `wakeup_if_required`: a `sendto` exactly if the ring asks for it. -/
def wakeupTrace (tx : XskRingProd) : List Ffi := if tx.needsWakeup then [.sendto] else []

/-- `wakeup_if_required` returns whether it called `sendto`, unless `sendto` failed with an error
that is not accepted. -/
theorem wakeupIfRequired_eq {β : Type} {tx : XskRingProd}
    (h : tx.needsWakeup = true → tx.sendto.Accepted) (s : Call β) :
    wakeupIfRequired tx s =
      .ok tx.needsWakeup { s with trace := s.trace ++ wakeupTrace tx } := by
  cases hw : tx.needsWakeup with
  | false => simp [wakeupIfRequired, wakeupTrace, hw]
  | true =>
      have ha := h hw
      cases hs : tx.sendto with
      | sent => simp [wakeupIfRequired, wakeupTrace, hw, hs, CallM.bind_apply]
      | failed e =>
          rw [hs] at ha
          cases e with
          | other c => exact ha.elim
          | _ => simp [wakeupIfRequired, wakeupTrace, hw, hs, CallM.bind_apply]

/-- A `sendto` that fails with any other error makes `wakeup_if_required` panic. -/
theorem wakeupIfRequired_panic {β : Type} {tx : XskRingProd} (hw : tx.needsWakeup = true)
    (h : ¬ tx.sendto.Accepted) (s : Call β) :
    wakeupIfRequired tx s = .error (.msg "xdpsock_user.c sample panics here")
      { s with trace := s.trace ++ [.sendto] } := by
  cases hs : tx.sendto with
  | sent => rw [hs] at h; exact absurd trivial h
  | failed e =>
      rw [hs] at h
      cases e with
      | other c => simp [wakeupIfRequired, hw, hs, CallM.bind_apply, CallM.map_apply]
      | _ => exact absurd trivial h

/-- A `try_send` with nothing to send returns before it asks libbpf, and before it looks at the
wakeup flag. -/
theorem trySend_nothing {p : Profile} {tx : XskRingProd} {batchSize : Nat}
    {d : ArrayDeque (BufMmap T)} (h : min d.len batchSize = 0) :
    trySend p tx batchSize ⟨d, []⟩ = .ok (.ok 0) ⟨d, []⟩ := by
  simp only [trySend, CallM.bind_apply, CallM.bufs_apply, h, if_true, CallM.pure_apply]

/-- The store of the `i`-th buffer of `bs` to the slot of the count `c + i`. -/
def sendEvent (bs : List (BufMmap T)) (c i : Nat) : Ffi :=
  .txDesc (cursor (c + i)) ((bs.map BufMmap.addr).getD i 0)
    ((bs.map fun b => b.len.toNat).getD i 0)

/-- The loop of `try_send` takes the buffers of the deque from the front and stores their
addresses and lengths in the slots in ring order. An iteration whose increment panics has done
both. -/
theorem trySendBody_advances (p : Profile) {n : Nat} (c : Nat) {d : ArrayDeque (BufMmap T)}
    (tr : List Ffi) (hle : n ≤ d.len) :
    p.Advances (trySendBody p) c n
      (fun j => ⟨d.drop j, tr ++ (List.range j).map (sendEvent d.list c)⟩)
      (fun j => ⟨d.drop (j + 1), tr ++ (List.range (j + 1)).map (sendEvent d.list c)⟩) := by
  intro j hj
  have hjl : j < d.list.length := Nat.lt_of_lt_of_le hj hle
  cases h : p.addU32 (cursor (c + j)) 1 <;>
    simp [trySendBody, CallM.bind_apply, ArrayDeque.popFront_drop hjl, h, sendEvent,
      List.range_succ, List.getElem?_eq_getElem hjl]

theorem trySend_loop {p : Profile} {n c : Nat} {d : ArrayDeque (BufMmap T)} (tr : List Ffi)
    (hle : n ≤ d.len) (hinc : p.Increments c n) :
    forRange (trySendBody p) n (cursor c) ⟨d, tr⟩ =
      .ok ⟨⟩ ⟨d.drop n, tr ++ (List.range n).map (sendEvent d.list c)⟩ := by
  have hloop := (trySendBody_advances p c tr hle).ok hinc
  simpa using hloop

/-- A `try_send` with something to send asks for the slots, and then looks at the wakeup flag
whether it was granted them or not. -/
theorem trySend_eq {p : Profile} {tx : XskRingProd} {batchSize n c : Nat}
    {d : ArrayDeque (BufMmap T)} (hpos : min d.len batchSize ≠ 0)
    (hres : tx.reserve (min d.len batchSize) = (n, cursor c)) (hle : n ≤ min d.len batchSize)
    (hinc : p.Increments c n) (hsend : tx.needsWakeup = true → tx.sendto.Accepted) :
    trySend p tx batchSize ⟨d, []⟩ = .ok (.ok n)
      ⟨d.drop n, [.reserve (min d.len batchSize) n (cursor c)] ++
        (List.range n).map (sendEvent d.list c) ++ (if 0 < n then [.submit n] else []) ++
        wakeupTrace tx⟩ := by
  have hloop := trySend_loop [.reserve (min d.len batchSize) n (cursor c)]
    (Nat.le_trans hle (Nat.min_le_left _ _)) hinc
  rcases Nat.eq_zero_or_pos n with rfl | hn
  · simp only [trySend, CallM.bind_apply, CallM.bufs_apply, hpos, if_false, hres, CallM.ffi_apply,
      List.nil_append, hloop, gt_iff_lt, Nat.lt_irrefl, CallM.pure_apply,
      wakeupIfRequired_eq hsend, List.append_nil]
  · simp only [trySend, CallM.bind_apply, CallM.bufs_apply, hpos, if_false, hres, CallM.ffi_apply,
      List.nil_append, hloop, gt_iff_lt, hn, if_true, CallM.pure_apply,
      wakeupIfRequired_eq hsend]

/-- A `try_send` with something to send whose `sendto` fails with any other error panics, after it
has submitted what it was granted. -/
theorem trySend_wakeup_panic {p : Profile} {tx : XskRingProd} {batchSize n c : Nat}
    {d : ArrayDeque (BufMmap T)} (hpos : min d.len batchSize ≠ 0)
    (hres : tx.reserve (min d.len batchSize) = (n, cursor c)) (hle : n ≤ min d.len batchSize)
    (hinc : p.Increments c n) (hw : tx.needsWakeup = true) (hsend : ¬ tx.sendto.Accepted) :
    trySend p tx batchSize ⟨d, []⟩ = .error (.msg "xdpsock_user.c sample panics here")
      ⟨d.drop n, [.reserve (min d.len batchSize) n (cursor c)] ++
        (List.range n).map (sendEvent d.list c) ++ (if 0 < n then [.submit n] else []) ++
        [.sendto]⟩ := by
  have hloop := trySend_loop [.reserve (min d.len batchSize) n (cursor c)]
    (Nat.le_trans hle (Nat.min_le_left _ _)) hinc
  rcases Nat.eq_zero_or_pos n with rfl | hn
  · simp only [trySend, CallM.bind_apply, CallM.bufs_apply, hpos, if_false, hres, CallM.ffi_apply,
      List.nil_append, hloop, gt_iff_lt, Nat.lt_irrefl, wakeupIfRequired_panic hw hsend,
      List.append_nil]
  · simp only [trySend, CallM.bind_apply, CallM.bufs_apply, hpos, if_false, hres, CallM.ffi_apply,
      List.nil_append, hloop, gt_iff_lt, hn, if_true, wakeupIfRequired_panic hw hsend]

end Afxdp
