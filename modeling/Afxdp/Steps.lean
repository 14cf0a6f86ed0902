import Afxdp.System

/-!
# What a call does to the state

The closed forms of the four calls, lifted to steps of the machine: a call that is granted `n`
entries leads to `Sys.afterFill`, `Sys.afterRecv`, `Sys.afterSend` or `Sys.afterService` at that
`n`, and `n` is determined by the collection, the ring and libbpf's grant. The results about runs
use these and never unfold a call.
-/

namespace Afxdp

open Spsc (RingBuf cursor)

/-! ## Replayed calls -/

section
variable {δ : Type}

@[simp] theorem replay_nil (f : Ffi → RingBuf δ → RingBuf δ) (r : RingBuf δ) :
    replay f [] r = r := rfl

@[simp] theorem replay_cons (f : Ffi → RingBuf δ → RingBuf δ) (e : Ffi) (tr : List Ffi)
    (r : RingBuf δ) : replay f (e :: tr) r = replay f tr (f e r) := rfl

@[simp] theorem replay_append (f : Ffi → RingBuf δ → RingBuf δ) (tr tr' : List Ffi)
    (r : RingBuf δ) : replay f (tr ++ tr') r = replay f tr' (replay f tr r) :=
  List.foldl_append

/-- Calls that have no effect on the ring can be left out. -/
theorem replay_id {f : Ffi → RingBuf δ → RingBuf δ} {tr : List Ffi} (r : RingBuf δ)
    (h : ∀ e ∈ tr, ∀ r, f e r = r) : replay f tr r = r := by
  induction tr with
  | nil => rfl
  | cons e tr ih =>
      rw [replay_cons, h e (by simp)]
      exact ih fun x hx => h x (by simp [hx])

/-- The stores of a loop are a batch of writes. -/
theorem replay_stores (f : Ffi → RingBuf δ → RingBuf δ) (ev : Nat → Ffi) (fs : List (δ → δ))
    {c : Nat} (h : ∀ i (hi : i < fs.length) (r : RingBuf δ),
      f (ev i) r = r.modify (cursor (c + i)) fs[i]) {n : Nat} (hn : n ≤ fs.length)
    (r : RingBuf δ) : replay f ((List.range n).map ev) r = r.modifyFrom c (fs.take n) := by
  induction n with
  | zero => rfl
  | succ n ih =>
      have hlt : n < fs.length := hn
      rw [List.range_succ, List.map_append, replay_append, ih (Nat.le_of_lt hlt),
        List.take_succ_eq_append_getElem hlt, RingBuf.modifyFrom_concat, List.length_take,
        Nat.min_eq_left (Nat.le_of_lt hlt)]
      exact h n hlt _

end

variable {ι ν δ T : Type}

/-! ## How much is granted -/

/-- The slots a producer call is granted: all it asks for or none. -/
def grantCount {α : Type} (r : RingBuf α) (granted : Bool) (request : Nat) : Nat :=
  if granted && decide (request ≤ r.free) then request else 0

theorem grantCount_le {α : Type} (r : RingBuf α) (granted : Bool) (request : Nat) :
    grantCount r granted request ≤ request ∧ grantCount r granted request ≤ r.free := by
  unfold grantCount
  split
  · next h =>
      simp only [Bool.and_eq_true, decide_eq_true_eq] at h
      exact ⟨Nat.le_refl _, h.2⟩
  · exact ⟨Nat.zero_le _, Nat.zero_le _⟩

/-- A reservation that libbpf does not refuse is granted if there is room for it. -/
theorem grantCount_true {α : Type} (r : RingBuf α) (request : Nat) :
    grantCount r true request = if r.used + request ≤ r.size then request else 0 := by
  have := r.used_add_free
  by_cases h : request ≤ r.free
  · rw [grantCount, if_pos (by simpa using h), if_pos (by omega)]
  · rw [grantCount, if_neg (by simpa using h), if_neg (by omega)]

@[simp] theorem grantCount_zero {α : Type} (r : RingBuf α) (granted : Bool) :
    grantCount r granted 0 = 0 := by simp [grantCount]

/-- The entries a consumer call is granted. -/
def peekCount {α : Type} (r : RingBuf α) (grant request : Nat) : Nat :=
  min grant (min request r.used)

/-- The slots a `try_send` is granted. -/
def sendCount (s : Sys ι ν δ T) (i : ι) (d : δ) (batchSize : Nat) (granted : Bool) : Nat :=
  grantCount (s.link i).tx granted (min (s.deques d).len batchSize)

/-- The buffers `try_recv` makes of the `n` oldest Rx descriptors of a link. -/
def Sys.recvBufs (s : Sys ι ν δ T) (i : ι) (user : T) (n : Nat) : List (BufMmap T) :=
  ((s.link i).rx.entries.take n).map (rxBufOf (s.area.bufLen - afXdpReserved) user)

/-- The descriptors a `try_recv` is granted. -/
def recvCount (s : Sys ι ν δ T) (i : ι) (d : δ) (batchSize grant : Nat) : Nat :=
  peekCount (s.link i).rx grant (recvRequest (s.deques d) batchSize)

theorem recvCount_le (s : Sys ι ν δ T) (i : ι) (d : δ) (batchSize grant : Nat) :
    recvCount s i d batchSize grant ≤ (s.link i).rx.used ∧
      (s.deques d).len + recvCount s i d batchSize grant ≤ (s.deques d).capacity := by
  have := (s.deques d).le
  simp only [recvCount, peekCount, recvRequest, ArrayDeque.len]
  omega

@[simp] theorem recvBufs_length (s : Sys ι ν δ T) (i : ι) (user : T) (n : Nat) :
    (s.recvBufs i user n).length = min n (s.link i).rx.used := by
  simp [Sys.recvBufs]

/-! ## `fill` -/

variable [DecidableEq ι] [DecidableEq ν] [DecidableEq δ] [Inhabited T] {s : Sys ι ν δ T}

/-- The state after a `fill` that was granted `n` slots. -/
def Sys.afterFill (s : Sys ι ν δ T) (i : ι) (v : ν) (n : Nat) : Sys ι ν δ T :=
  { s with
    vecs := Function.update s.vecs v ((s.vecs v).dropLast n)
    link := Function.update s.link i { s.link i with
      fq := (s.link i).fq.publish
        ((((s.vecs v).list.reverse.take n).map BufMmap.addr).map fun a _ => a) } }

/-- The calls of a `fill` publish the addresses of the buffers it took. -/
theorem replay_fill {r : RingBuf Nat} {addrs : List Nat} {n k : Nat} (idx : UInt32)
    (hn : n ≤ addrs.length) :
    replay Ffi.onFill ([.reserve k n idx] ++
      (List.range n).map (fun i => .fillAddr (cursor (r.prod + i)) (addrs.getD i 0)) ++
      [.submit n]) r = r.publish ((addrs.take n).map fun a _ => a) := by
  have hst := replay_stores Ffi.onFill
    (fun i => .fillAddr (cursor (r.prod + i)) (addrs.getD i 0)) (addrs.map fun a _ => a)
    (fun i hi r => by
      have hi' : i < addrs.length := by simpa using hi
      simp [Ffi.onFill, List.getElem?_eq_getElem hi'])
    (c := r.prod) (n := n) (by simpa using hn) r
  rw [replay_append, replay_append]
  show (replay Ffi.onFill ((List.range n).map _) r).submit n = _
  rw [hst, ← List.map_take, RingBuf.publish, List.length_map, List.length_take,
    Nat.min_eq_left hn]

omit [DecidableEq ι] [DecidableEq ν] [DecidableEq δ] [Inhabited T] in
/-- A `fill` on a ring always returns, with the number of slots it was granted; it takes that many
buffers and publishes their addresses. -/
theorem fill_prodView (r : RingBuf Nat) (granted : Bool) (batchSize : Nat) (v : Vec (BufMmap T)) :
    ∃ tr, fill .release (prodView r granted false .sent) batchSize ⟨v, []⟩ =
        .ok (.ok (grantCount r granted (min v.len batchSize)))
          ⟨v.dropLast (grantCount r granted (min v.len batchSize)), tr⟩ ∧
      replay Ffi.onFill tr r = r.publish (((v.list.reverse.take
        (grantCount r granted (min v.len batchSize))).map BufMmap.addr).map fun a _ => a) := by
  rcases eq_or_ne (min v.len batchSize) 0 with hzero | hpos
  · rw [hzero, grantCount_zero, Vec.dropLast_zero]
    exact ⟨[], fill_nothing hzero, r.publish_nil.symm⟩
  by_cases hg : (granted && decide (min v.len batchSize ≤ r.free)) = true
  · have hcount : grantCount r granted (min v.len batchSize) = min v.len batchSize := if_pos hg
    have hres : (prodView r granted false .sent).reserve (min v.len batchSize) =
        (min v.len batchSize, cursor r.prod) := if_pos hg
    rw [hcount]
    refine ⟨_, fill_eq hres (Nat.pos_of_ne_zero hpos) (Nat.le_refl _) (.inl rfl), ?_⟩
    rw [replay_fill _ (by simp [Vec.len]), List.map_take (f := BufMmap.addr)]
  · have hcount : grantCount r granted (min v.len batchSize) = 0 := if_neg hg
    have hres : (prodView r granted false .sent).reserve (min v.len batchSize) = (0, cursor 0) :=
      if_neg hg
    rw [hcount, Vec.dropLast_zero]
    exact ⟨_, fill_refused hpos hres, r.publish_nil.symm⟩

theorem step_fill_of {i : ι} {v : ν} {batchSize n : Nat} {granted : Bool}
    {c : Call (Vec (BufMmap T))}
    (h : fill .release (prodView (s.link i).fq granted false .sent) batchSize ⟨s.vecs v, []⟩ =
      .ok (.ok n) c) :
    step s (.fill i v batchSize granted) = some
      ({ s with
          vecs := Function.update s.vecs v c.bufs
          link := Function.update s.link i
            { s.link i with fq := replay Ffi.onFill c.trace (s.link i).fq } },
        ⟨n, c.trace⟩) := by
  simp only [step, stepIn, h]

/-- A `fill` always returns, with the number of slots it was granted. -/
theorem step_fill (s : Sys ι ν δ T) (i : ι) (v : ν) (batchSize : Nat) (granted : Bool) :
    ∃ tr, step s (.fill i v batchSize granted) =
      some (s.afterFill i v (grantCount (s.link i).fq granted (min (s.vecs v).len batchSize)),
        ⟨grantCount (s.link i).fq granted (min (s.vecs v).len batchSize), tr⟩) := by
  obtain ⟨tr, hcall, hreplay⟩ := fill_prodView (s.link i).fq granted batchSize (s.vecs v)
  refine ⟨tr, (step_fill_of hcall).trans (congrArg (fun x => some (x, _)) ?_)⟩
  rw [hreplay]
  rfl

/-! ## `service` -/

/-- The state after a `service` that was granted `n` completions. -/
def Sys.afterService (s : Sys ι ν δ T) (i : ι) (v : ν) (n : Nat) : Sys ι ν δ T :=
  { s with
    vecs := Function.update s.vecs v ((s.vecs v).pushAll
      (((s.link i).cq.entries.take n).map (compBuf (s.area.bufLen - afXdpReserved))))
    link := Function.update s.link i { s.link i with cq := (s.link i).cq.release n } }

/-- The calls of a consumer give the entries back, whatever it reads. -/
theorem replay_consume {α : Type} {r : RingBuf α} {n k : Nat} {idx : UInt32} {ev : Nat → Ffi}
    (h : ∀ i, ∀ r : RingBuf α, (ev i).onCons r = r) :
    replay Ffi.onCons ([.peek k n idx] ++ (List.range n).map ev ++ [.release n]) r =
      r.release n := by
  rw [replay_append, replay_append]
  show (replay Ffi.onCons ((List.range n).map ev) r).release n = _
  rw [replay_id]
  intro e he
  obtain ⟨i, -, rfl⟩ := List.mem_map.1 he
  exact h i

/-- The granted entries, read index by index. -/
theorem map_get_cursor {α β : Type} (r : RingBuf α) (f : α → β) {n : Nat} (h : n ≤ r.used) :
    (List.range n).map (fun i => f (r.get (cursor (r.cons + i)))) =
      (r.entries.take n).map f := by
  rw [r.take_entries h, List.map_map]
  simp only [RingBuf.get_cursor, Function.comp_def]

/-- What holds of the granted entries holds of each that is read. -/
theorem consView_desc {α : Type} {r : RingBuf α} {P : α → Prop} {n : Nat} (h : n ≤ r.used)
    (hall : ∀ e ∈ r.entries.take n, P e) (grant : Nat) {k : Nat} (hk : k < n) :
    P ((consView r grant).desc (cursor (r.cons + k))) := by
  refine hall _ ?_
  rw [r.take_entries h]
  exact List.mem_map.2 ⟨k, List.mem_range.2 hk, (r.get_cursor _).symm⟩

theorem step_service_of {i : ι} {v : ν} {batchSize n grant : Nat} {c : Call (Vec (BufMmap T))}
    (h : service .release s.area (consView (s.link i).cq grant) batchSize ⟨s.vecs v, []⟩ =
      .ok (.ok n) c) :
    step s (.service i v batchSize grant) = some
      ({ s with
          vecs := Function.update s.vecs v c.bufs
          link := Function.update s.link i
            { s.link i with cq := replay Ffi.onCons c.trace (s.link i).cq } },
        ⟨n, c.trace⟩) := by
  simp only [step, stepIn, h]

/-- A `service` always returns, with the number of completions it was granted. -/
theorem step_service (s : Sys ι ν δ T) (i : ι) (v : ν) (batchSize grant : Nat)
    (hlen : afXdpReserved ≤ s.area.bufLen) :
    ∃ tr, step s (.service i v batchSize grant) =
      some (s.afterService i v
          (peekCount (s.link i).cq grant (serviceRequest (s.vecs v) batchSize)),
        ⟨peekCount (s.link i).cq grant (serviceRequest (s.vecs v) batchSize), tr⟩) := by
  obtain ⟨n, hn⟩ : ∃ n, peekCount (s.link i).cq grant (serviceRequest (s.vecs v) batchSize) = n :=
    ⟨_, rfl⟩
  have hpeek : (consView (s.link i).cq grant).peek (serviceRequest (s.vecs v) batchSize) =
      (n, cursor (s.link i).cq.cons) := by rw [← hn]; rfl
  have hused : n ≤ (s.link i).cq.used := by rw [← hn, peekCount]; omega
  rw [hn]
  rcases Nat.eq_zero_or_pos n with rfl | hpos
  · refine ⟨_, (step_service_of (service_zero hpeek)).trans (congrArg (fun x => some (x, _)) ?_)⟩
    simp [Sys.afterService, Ffi.onCons]
  · refine ⟨_, (step_service_of (service_eq hpeek hpos (.inl rfl) hlen)).trans
      (congrArg (fun x => some (x, _)) ?_)⟩
    rw [replay_consume fun _ _ => rfl]
    simp only [consView, map_get_cursor (s.link i).cq _ hused, Sys.afterService]

/-! ## `try_recv` -/

/-- The state after a `try_recv` that was granted `n` descriptors. -/
def Sys.afterRecv (s : Sys ι ν δ T) (i : ι) (d : δ) (user : T) (n : Nat) : Sys ι ν δ T :=
  { s with
    deques := Function.update s.deques d ((s.deques d).pushAll (s.recvBufs i user n))
    link := Function.update s.link i { s.link i with rx := (s.link i).rx.release n }
    hist := Function.update s.hist i { s.hist i with
      pushed := (s.hist i).pushed ++ (s.recvBufs i user n).map (BufMmap.packet · s.mem) } }

theorem step_tryRecv_of {i : ι} {d : δ} {batchSize n grant : Nat} {user : T}
    {c : Call (ArrayDeque (BufMmap T))}
    (h : tryRecv .release s.area (consView (s.link i).rx grant) batchSize user ⟨s.deques d, []⟩ =
      .ok (.ok n) c) :
    step s (.tryRecv i d batchSize user grant) = some
      ({ s with
          deques := Function.update s.deques d c.bufs
          link := Function.update s.link i
            { s.link i with rx := replay Ffi.onCons c.trace (s.link i).rx }
          hist := Function.update s.hist i { s.hist i with
            pushed := (s.hist i).pushed ++
              (c.bufs.list.drop (c.bufs.len - n)).map (BufMmap.packet · s.mem) } },
        ⟨n, c.trace⟩) := by
  simp only [step, stepIn, h]

/-- A `try_recv` whose granted descriptors all have a length that fits a `u16` returns, with the
number of descriptors it was granted. -/
theorem step_tryRecv (s : Sys ι ν δ T) (i : ι) (d : δ) (batchSize : Nat) (user : T) (grant : Nat)
    (hlen : afXdpReserved ≤ s.area.bufLen)
    (hdesc : ∀ e ∈ (s.link i).rx.entries.take (recvCount s i d batchSize grant),
      e.len < 2 ^ 16) :
    ∃ tr, step s (.tryRecv i d batchSize user grant) =
      some (s.afterRecv i d user (recvCount s i d batchSize grant),
        ⟨recvCount s i d batchSize grant, tr⟩) := by
  obtain ⟨hused, hroom⟩ := recvCount_le s i d batchSize grant
  obtain ⟨n, hn⟩ : ∃ n, recvCount s i d batchSize grant = n := ⟨_, rfl⟩
  have hpeek : (consView (s.link i).rx grant).peek (recvRequest (s.deques d) batchSize) =
      (n, cursor (s.link i).rx.cons) := by rw [← hn]; rfl
  have hreq : n ≤ recvRequest (s.deques d) batchSize := by
    rw [← hn, recvCount, peekCount]; omega
  rw [hn] at hused hroom hdesc ⊢
  rcases Nat.eq_zero_or_pos n with rfl | hpos
  · refine ⟨_, (step_tryRecv_of (tryRecv_zero hpeek)).trans (congrArg (fun x => some (x, _)) ?_)⟩
    simp [Sys.afterRecv, Sys.recvBufs, Ffi.onCons, ArrayDeque.len]
  · have hget : ∀ k, k < n →
        ((consView (s.link i).rx grant).desc (cursor ((s.link i).rx.cons + k))).len < 2 ^ 16 :=
      fun _ hk => consView_desc hused hdesc grant hk
    refine ⟨_, (step_tryRecv_of (tryRecv_eq hpeek hpos hreq (.inl rfl) hlen hget)).trans
      (congrArg (fun x => some (x, _)) ?_)⟩
    rw [replay_consume fun _ _ => rfl]
    have hbufs : ((List.range n).map fun k => rxBufOf (s.area.bufLen - afXdpReserved) user
        ((consView (s.link i).rx grant).desc (cursor ((s.link i).rx.cons + k)))) =
        s.recvBufs i user n := map_get_cursor _ _ hused
    have hblen : (s.recvBufs i user n).length = n := by
      rw [recvBufs_length, Nat.min_eq_left hused]
    obtain ⟨hl, -⟩ := (s.deques d).pushAll_eq (s.recvBufs i user n) (by rw [hblen]; exact hroom)
    -- nothing was evicted, so the last `n` elements are the ones pushed
    have hdrop : ((s.deques d).pushAll (s.recvBufs i user n)).list.drop
        (((s.deques d).pushAll (s.recvBufs i user n)).len - n) = s.recvBufs i user n := by
      rw [ArrayDeque.len, hl, List.length_append, hblen, Nat.add_sub_cancel, List.drop_left]
    rw [hbufs, hdrop]
    rfl

/-- Otherwise it panics. -/
theorem step_tryRecv_none (s : Sys ι ν δ T) (i : ι) (d : δ) (batchSize : Nat) (user : T)
    (grant : Nat) (hdesc : ¬ ∀ e ∈ (s.link i).rx.entries.take (recvCount s i d batchSize grant),
      e.len < 2 ^ 16) : step s (.tryRecv i d batchSize user grant) = none := by
  obtain ⟨hused, -⟩ := recvCount_le s i d batchSize grant
  have hpeek : (consView (s.link i).rx grant).peek (recvRequest (s.deques d) batchSize) =
      (recvCount s i d batchSize grant, cursor (s.link i).rx.cons) := rfl
  have hreq : recvCount s i d batchSize grant ≤ recvRequest (s.deques d) batchSize := by
    rw [recvCount, peekCount]; omega
  simp only [not_forall] at hdesc
  obtain ⟨e, he, hbad⟩ := hdesc
  rw [(s.link i).rx.take_entries hused] at he
  obtain ⟨k, hk, rfl⟩ := List.mem_map.1 he
  have hbad' : ¬ ((consView (s.link i).rx grant).desc
      (cursor ((s.link i).rx.cons + k))).len < 2 ^ 16 := by
    show ¬ ((s.link i).rx.get _).len < 2 ^ 16
    rw [RingBuf.get_cursor]; exact hbad
  obtain ⟨err, c, hp⟩ := tryRecv_panic s.area user hpeek hreq (List.mem_range.1 hk) hbad'
  simp only [step, stepIn, hp]

/-! ## `try_send` -/

/-- The store of a buffer's address and length to a Tx slot. -/
def storeDesc (b : BufMmap T) (e : XdpDesc) : XdpDesc :=
  { e with addr := b.addr, len := b.len.toNat }

/-- The state after a `try_send` that was granted `n` slots. -/
def Sys.afterSend (s : Sys ι ν δ T) (i : ι) (d : δ) (n : Nat) : Sys ι ν δ T :=
  { s with
    deques := Function.update s.deques d ((s.deques d).drop n)
    link := Function.update s.link i { s.link i with
      tx := (s.link i).tx.publish (((s.deques d).list.take n).map storeDesc) }
    hist := Function.update s.hist i { s.hist i with
      sent := (s.hist i).sent ++ ((s.deques d).list.take n).map (BufMmap.packet · s.mem) } }

omit [DecidableEq ι] [DecidableEq ν] [DecidableEq δ] [Inhabited T] in
/-- The calls of a `try_send` publish the descriptors of the buffers it took. -/
theorem replay_send {r : RingBuf XdpDesc} {bs : List (BufMmap T)} {n k : Nat} {idx : UInt32}
    {tx : XskRingProd} (hn : n ≤ bs.length) :
    replay Ffi.onTx ([.reserve k n idx] ++ (List.range n).map (sendEvent bs r.prod) ++
      (if 0 < n then [.submit n] else []) ++ wakeupTrace tx) r =
      r.publish ((bs.take n).map storeDesc) := by
  have hst := replay_stores Ffi.onTx (sendEvent bs r.prod) (bs.map storeDesc)
    (fun i hi r => by
      have hi' : i < bs.length := by simpa using hi
      simp [Ffi.onTx, sendEvent, List.getElem?_eq_getElem hi']
      rfl)
    (c := r.prod) (n := n) (by simpa using hn) r
  have hwake : ∀ r : RingBuf XdpDesc, replay Ffi.onTx (wakeupTrace tx) r = r := fun r => by
    refine replay_id r ?_
    intro e he r
    unfold wakeupTrace at he
    split at he <;> simp at he
    subst he; rfl
  rw [replay_append, replay_append, replay_append, hwake]
  show replay Ffi.onTx _ (replay Ffi.onTx ((List.range n).map _) r) = _
  rw [hst, ← List.map_take, RingBuf.publish, List.length_map, List.length_take,
    Nat.min_eq_left hn]
  rcases Nat.eq_zero_or_pos n with rfl | hpos
  · simp
  · rw [if_pos hpos]; rfl

omit [DecidableEq ι] [DecidableEq ν] [DecidableEq δ] [Inhabited T] in
/-- A `try_send` on a ring takes as many buffers as it was granted slots and publishes their
descriptors, and it calls `sendto` exactly if it had something to send and the ring asked for it.
It then returns the number, unless the `sendto` failed with an error that is not accepted. -/
theorem trySend_prodView (r : RingBuf XdpDesc) (granted wake : Bool) (send : Sendto)
    (batchSize : Nat) (d : ArrayDeque (BufMmap T)) :
    ∃ n tr, n = grantCount r granted (min d.len batchSize) ∧
      replay Ffi.onTx tr r = r.publish ((d.list.take n).map storeDesc) ∧
      (Ffi.sendto ∈ tr ↔ min d.len batchSize ≠ 0 ∧ wake = true) ∧
      ((min d.len batchSize ≠ 0 → wake = true → send.Accepted) →
        trySend .release (prodView r granted wake send) batchSize ⟨d, []⟩ =
          .ok (.ok n) ⟨d.drop n, tr⟩) ∧
      (min d.len batchSize ≠ 0 → wake = true → ¬ send.Accepted →
        trySend .release (prodView r granted wake send) batchSize ⟨d, []⟩ =
          .error (.msg "xdpsock_user.c sample panics here") ⟨d.drop n, tr⟩) := by
  obtain ⟨hreq, -⟩ := grantCount_le r granted (min d.len batchSize)
  rcases eq_or_ne (min d.len batchSize) 0 with hzero | hpos
  · refine ⟨0, [], by rw [hzero, grantCount_zero], r.publish_nil.symm, by simp [hzero], ?_, ?_⟩
    · intro _
      exact trySend_nothing hzero
    · intro hne
      exact absurd hzero hne
  obtain ⟨n, hn⟩ : ∃ n, n = grantCount r granted (min d.len batchSize) := ⟨_, rfl⟩
  -- a refused reservation leaves the index at its initial value
  obtain ⟨c, hres, hc⟩ : ∃ c, (prodView r granted wake send).reserve (min d.len batchSize) =
      (n, cursor c) ∧ (n ≠ 0 → c = r.prod) := by
    by_cases hg : (granted && decide (min d.len batchSize ≤ r.free)) = true
    · refine ⟨r.prod, ?_, fun _ => rfl⟩
      rw [hn, grantCount, if_pos hg]
      exact if_pos hg
    · rw [grantCount, if_neg hg] at hn
      refine ⟨0, ?_, fun h => absurd hn h⟩
      rw [hn]
      exact if_neg hg
  rw [← hn] at hreq
  have hle : n ≤ d.list.length := Nat.le_trans hreq (Nat.min_le_left _ _)
  refine ⟨n, [.reserve (min d.len batchSize) n (cursor c)] ++
    (List.range n).map (sendEvent d.list c) ++ (if 0 < n then [.submit n] else []) ++
    wakeupTrace (prodView r granted wake send), hn, ?_, ?_, ?_, ?_⟩
  · rcases Nat.eq_zero_or_pos n with rfl | hn0
    · exact replay_send (n := 0) (Nat.zero_le _)
    · rw [hc (Nat.pos_iff_ne_zero.1 hn0)]
      exact replay_send hle
  · have hsub : Ffi.sendto ∉ ([.reserve (min d.len batchSize) n (cursor c)] ++
        (List.range n).map (sendEvent d.list c) ++
        (if 0 < n then [.submit n] else []) : List Ffi) := by
      simp only [List.mem_append, List.mem_singleton, List.mem_map, not_or]
      refine ⟨⟨by simp, ?_⟩, ?_⟩
      · rintro ⟨j, -, hj⟩; simp [sendEvent] at hj
      · split <;> simp
    rw [List.mem_append, or_iff_right hsub, and_iff_right hpos]
    cases wake <;> simp [wakeupTrace, prodView]
  · intro hsend
    exact trySend_eq hpos hres hreq (.inl rfl) (hsend hpos)
  · rintro - rfl hsend
    exact trySend_wakeup_panic hpos hres hreq (.inl rfl) rfl hsend

theorem step_trySend_of {i : ι} {d : δ} {batchSize n : Nat} {granted : Bool} {send : Sendto}
    {c : Call (ArrayDeque (BufMmap T))}
    (h : trySend .release (prodView (s.link i).tx granted (s.link i).wake send) batchSize
      ⟨s.deques d, []⟩ = .ok (.ok n) c) :
    step s (.trySend i d batchSize granted send) = some
      ({ s with
          deques := Function.update s.deques d c.bufs
          link := Function.update s.link i
            { s.link i with tx := replay Ffi.onTx c.trace (s.link i).tx }
          hist := Function.update s.hist i { s.hist i with
            sent := (s.hist i).sent ++ ((s.deques d).list.take n).map (BufMmap.packet · s.mem) } },
        ⟨n, c.trace⟩) := by
  simp only [step, stepIn, h]

/-- A `try_send` whose `sendto`, if it makes one, succeeds or fails with an accepted error returns
with the number of slots it was granted. It calls `sendto` exactly if it had something to send and
the ring asked for it. -/
theorem step_trySend (s : Sys ι ν δ T) (i : ι) (d : δ) (batchSize : Nat) (granted : Bool)
    (send : Sendto)
    (hsend : min (s.deques d).len batchSize ≠ 0 → (s.link i).wake = true → send.Accepted) :
    ∃ tr, step s (.trySend i d batchSize granted send) =
        some (s.afterSend i d (sendCount s i d batchSize granted),
          ⟨sendCount s i d batchSize granted, tr⟩) ∧
      (Ffi.sendto ∈ tr ↔ min (s.deques d).len batchSize ≠ 0 ∧ (s.link i).wake = true) := by
  obtain ⟨n, tr, rfl, hreplay, hkick, hok, -⟩ :=
    trySend_prodView (s.link i).tx granted (s.link i).wake send batchSize (s.deques d)
  refine ⟨tr, (step_trySend_of (hok hsend)).trans (congrArg (fun x => some (x, _)) ?_), hkick⟩
  rw [hreplay]
  rfl

/-- Otherwise it panics. -/
theorem step_trySend_none (s : Sys ι ν δ T) (i : ι) (d : δ) (batchSize : Nat) (granted : Bool)
    (send : Sendto) (hpos : min (s.deques d).len batchSize ≠ 0) (hw : (s.link i).wake = true)
    (hsend : ¬ send.Accepted) : step s (.trySend i d batchSize granted send) = none := by
  obtain ⟨n, tr, -, -, -, -, hpanic⟩ :=
    trySend_prodView (s.link i).tx granted (s.link i).wake send batchSize (s.deques d)
  simp only [step, stepIn, hpanic hpos hw hsend]

/-! ## Inversions -/

section
variable {s' : Sys ι ν δ T} {i : ι} {v : ν} {d : δ} {batchSize : Nat} {out : Out}

theorem step_fill_inv {granted : Bool} (h : step s (.fill i v batchSize granted) = some (s', out)) :
    s' = s.afterFill i v out.ret ∧
      out.ret = grantCount (s.link i).fq granted (min (s.vecs v).len batchSize) := by
  obtain ⟨tr, ht⟩ := step_fill s i v batchSize granted
  rw [ht] at h
  cases h
  exact ⟨rfl, rfl⟩

theorem step_service_inv {grant : Nat} (hlen : afXdpReserved ≤ s.area.bufLen)
    (h : step s (.service i v batchSize grant) = some (s', out)) :
    s' = s.afterService i v out.ret ∧
      out.ret = peekCount (s.link i).cq grant (serviceRequest (s.vecs v) batchSize) := by
  obtain ⟨tr, ht⟩ := step_service s i v batchSize grant hlen
  rw [ht] at h
  cases h
  exact ⟨rfl, rfl⟩

theorem step_tryRecv_inv {user : T} {grant : Nat} (hlen : afXdpReserved ≤ s.area.bufLen)
    (h : step s (.tryRecv i d batchSize user grant) = some (s', out)) :
    s' = s.afterRecv i d user out.ret ∧ out.ret = recvCount s i d batchSize grant ∧
      ∀ e ∈ (s.link i).rx.entries.take out.ret, e.len < 2 ^ 16 := by
  by_cases hdesc : ∀ e ∈ (s.link i).rx.entries.take (recvCount s i d batchSize grant),
      e.len < 2 ^ 16
  · obtain ⟨tr, ht⟩ := step_tryRecv s i d batchSize user grant hlen hdesc
    rw [ht] at h
    cases h
    exact ⟨rfl, rfl, hdesc⟩
  · rw [step_tryRecv_none s i d batchSize user grant hdesc] at h
    cases h

theorem step_trySend_inv {granted : Bool} {send : Sendto}
    (h : step s (.trySend i d batchSize granted send) = some (s', out)) :
    s' = s.afterSend i d out.ret ∧ out.ret = sendCount s i d batchSize granted ∧
      (Ffi.sendto ∈ out.trace ↔ min (s.deques d).len batchSize ≠ 0 ∧ (s.link i).wake = true) := by
  by_cases hsend : min (s.deques d).len batchSize ≠ 0 → (s.link i).wake = true → send.Accepted
  · obtain ⟨tr, ht, hiff⟩ := step_trySend s i d batchSize granted send hsend
    rw [ht] at h
    cases h
    exact ⟨rfl, rfl, hiff⟩
  · simp only [not_forall] at hsend
    obtain ⟨hpos, hw, hna⟩ := hsend
    rw [step_trySend_none s i d batchSize granted send hpos hw hna] at h
    cases h

end

end Afxdp
