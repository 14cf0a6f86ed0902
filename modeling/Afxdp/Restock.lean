import Afxdp.Receiver
import Afxdp.Relay

/-!
# How the receivers refill

As with the forwarders the statistics of a receiver are the counters of the rings, and its deficit
is what was received and not refilled (`RxWorker.Books`). What was received goes back into the
worker's own buffers before the refill. So those are the buffers it got, less the ones of the
initial fill, and as many more as the deficit says (`RxWorker.Holds`): a refill that is due finds
all the buffers it asks for, and there is room for them in the fill ring (`run_restocks`). Unless
libbpf refuses a refill for which there is room, the kernel is never short of more than a batch and
the threshold, and with an initial fill of at least `FILL_THRESHOLD` it never runs out. With a
smaller one, as for `dump` with fewer than 64 buffers, nothing is ever refilled (`run_lasts`).

Of the calls only an initial fill can panic, and in a debug build one whose ring index overflows
(`run_rx_panics_iff`).
-/

namespace Afxdp

open Run (run run_invariant)

/-! ## Books -/

/-- Whether the initial fill is done. -/
def RxPc.filled : RxPc → Bool
  | .getBufs | .initialFill => false
  | _ => true

/-- What the initial fill put into the fill ring, which is in no statistics. -/
def RxWorker.initial (opt : RxOpt) (wk : RxWorker) : Op → Nat
  | .fill => if wk.pc.filled then opt.initialFillNum else 0
  | _ => 0

/-- The statistics are the counters of the rings, and the deficit is what was received and not
refilled. -/
structure RxWorker.Books (opt : RxOpt) (wk : RxWorker) (l : Link) : Prop where
  count : ∀ o, l.count o = wk.initial opt o + wk.stats.count o
  deficit : wk.fqDeficit + wk.stats.fqBufsFilled = wk.stats.rxPackets
  balanced : l.Balanced

/-- A worker that began with `base` buffers holds them, those it got, and those it received and did
not refill, except for the ones of the initial fill. Nothing is pending when it refills. -/
structure RxWorker.Holds (opt : RxOpt) (base : Nat) (wk : RxWorker) (bufs pending : Nat) :
    Prop where
  total : bufs + pending + wk.initial opt .fill = base + wk.got + wk.fqDeficit
  drained : wk.pc ≠ .drain → pending = 0
  fresh : wk.pc = .getBufs ∨ opt.startBufs = none → wk.got = 0
  enough : wk.pc.filled = true → opt.initialFillNum ≤ base + wk.got

section
variable {pr : Profile} {opt : RxOpt} {base : Nat} {wk : RxWorker} {l : Link}

@[simp] theorem RxOpt.loopHead_filled : opt.loopHead.filled = true := by
  rw [loopHead]
  split <;> rfl

theorem RxOpt.loopHead_ne (pc : RxPc) (hcommand : pc ≠ .command) (hrecv : pc ≠ .tryRecv) :
    opt.loopHead ≠ pc := by
  rw [loopHead]
  split
  · exact hcommand.symm
  · exact hrecv.symm

/-- The buffers of the initial fill are in the fill ring, with the kernel to receive, in the Rx
ring, or to be refilled. -/
theorem RxWorker.Books.supply (h : wk.Books opt l) :
    l.fq.used + l.krx.length + l.rx.used + wk.fqDeficit = wk.initial opt .fill := by
  have hfill := h.count .fill
  have hrecv := h.count .recv
  have hdeficit := h.deficit
  have hbal := h.balanced.rx
  have hfq := l.fq.cons_le
  have hrx := l.rx.cons_le
  simp only [Link.count, Stats.count] at hfill hrecv
  have hnone : wk.initial opt .recv = 0 := rfl
  simp only [Spsc.RingBuf.used]
  omega

/-- A call keeps the books if the worker enters what it returned. -/
theorem RxWorker.Books.call {W : Type} [DecidableEq W] {s s' : RxSys W} {w : W}
    (h : wk.Books opt (s.link w)) (hlen : afXdpReserved ≤ s.area.bufLen)
    {a : Act W (Option W) W Unit} {o : Out} (hs : step s a = some (s', o)) (op : Op)
    (hop : a.op? = some (op, w)) {wk' : RxWorker}
    (hcount : ∀ op', wk'.initial opt op' + wk'.stats.count op' =
      wk.initial opt op' + wk.stats.count op' + if op' = op then o.ret else 0)
    (hdeficit : wk'.fqDeficit + wk'.stats.fqBufsFilled = wk'.stats.rxPackets) :
    wk'.Books opt (s'.link w) := by
  obtain ⟨hcounts, hbal, -⟩ := step_counts hlen hs w
  refine ⟨?_, hdeficit, hbal h.balanced⟩
  intro op'
  rw [hcounts op', h.count op', hcount op', returned, hop]
  refine congrArg _ (if_congr ?_ rfl rfl)
  simp only [Option.some.injEq, Prod.mk.injEq, and_true]
  exact eq_comm

/-- A step that is not a call on the link keeps them. -/
theorem RxWorker.Books.other {W : Type} [DecidableEq W] {s s' : RxSys W} {w : W}
    (h : wk.Books opt (s.link w)) (hlen : afXdpReserved ≤ s.area.bufLen)
    {a : Act W (Option W) W Unit} {o : Out} (hs : step s a = some (s', o))
    (hop : ∀ op, a.op? ≠ some (op, w)) : wk.Books opt (s'.link w) := by
  obtain ⟨hcounts, hbal, -⟩ := step_counts hlen hs w
  refine ⟨?_, h.deficit, hbal h.balanced⟩
  intro op
  rw [hcounts op, returned_of_ne o (hop op), Nat.add_zero]
  exact h.count op

/-- A worker that moves on without a call keeps them. -/
theorem RxWorker.Books.skip (h : wk.Books opt l) {pc : RxPc} (hpc : pc.filled = wk.pc.filled)
    (got : Nat) : RxWorker.Books opt { wk with pc, got } l := by
  refine ⟨?_, h.deficit, h.balanced⟩
  intro o
  rw [h.count o]
  cases o <;> simp only [initial, hpc]

end

/-- The books of all workers, and what they hold. -/
def Receiver.Accounts {W : Type} (opt : RxOpt) (base : W → Nat) (f : Receiver W) : Prop :=
  ∀ w, (f.workers w).Books opt (f.sys.link w) ∧
    (f.workers w).Holds opt (base w) (f.sys.vecs (some w)).len (f.sys.deques w).len

section
variable {W : Type} [DecidableEq W] {pr : Profile} {opt : RxOpt} {base : W → Nat}
  {f f' : Receiver W} {w : W}

/-- A step of one worker keeps them if it keeps those of this worker, and nothing of the others
changes. -/
theorem Receiver.Accounts.set (hf : f.Accounts opt base) {s : RxSys W} {wk : RxWorker}
    (hbooks : ∀ v, v ≠ w → (f.workers v).Books opt (s.link v))
    (hvecs : ∀ v, v ≠ w → s.vecs (some v) = f.sys.vecs (some v))
    (hdeques : ∀ v, v ≠ w → s.deques v = f.sys.deques v) (hw : wk.Books opt (s.link w))
    (hheld : wk.Holds opt (base w) (s.vecs (some w)).len (s.deques w).len) :
    (f.set w s wk).Accounts opt base := by
  intro v
  show _ ∧ ((f.set w s wk).workers v).Holds opt _ (s.vecs (some v)).len (s.deques v).len
  rcases eq_or_ne v w with rfl | hv
  · rw [set_self]
    exact ⟨hw, hheld⟩
  · rw [set_of_ne f hv, hvecs v hv, hdeques v hv]
    exact ⟨hbooks v hv, (hf v).2⟩

/-- Every step keeps them. -/
theorem Receiver.Accounts.step {a : RxAct W} {out : List Line}
    (hlen : afXdpReserved ≤ f.sys.area.bufLen) (hf : f.Accounts opt base)
    (h : rxStep pr opt f a = some (f', out)) : f'.Accounts opt base := by
  -- a call of one worker is not one on another worker's link
  have hother : ∀ {w : W} {a s o op}, Afxdp.step f.sys a = some (s, o) → a.op? = some (op, w) →
      ∀ v, v ≠ w → (f.workers v).Books opt (s.link v) := by
    intro w a s o op hs hop v hv
    refine (hf v).1.other hlen hs fun op' hop' => hv ?_
    rw [hop] at hop'
    exact (Prod.mk.inj (Option.some.inj hop')).2.symm
  have hvec : ∀ {w v : W} (b : Vec (BufMmap Unit)), v ≠ w →
      Function.update f.sys.vecs (some w) b (some v) = f.sys.vecs (some v) := fun b hv =>
    Function.update_of_ne (fun heq => hv (Option.some.inj heq)) _ _
  -- no worker goes back to the pool
  have hfresh : ∀ (w : W) {pc : RxPc}, pc ≠ .getBufs →
      pc = .getBufs ∨ opt.startBufs = none → (f.workers w).got = 0 := fun w _ hpc h =>
    (hf w).2.fresh (.inr (h.resolve_left hpc))
  have hloop := fun w => hfresh w (opt.loopHead_ne .getBufs (by simp) (by simp))
  cases a with
  | getBufs w =>
    obtain ⟨hpc, -, num, n, hnum, hn, rfl⟩ := rxStep_getBufs_inv h
    obtain ⟨hbooks, hheld⟩ := hf w
    have hne : ∀ v : W, (some v : Option W) ≠ none := fun v => by simp
    refine hf.set (fun v _ => (hf v).1) (fun v hv => ?_) (fun _ _ => rfl)
      (hbooks.skip (by rw [hpc]; rfl) n) ⟨?_, fun _ => ?_, ?_, fun hfilled => ?_⟩
    · show Function.update _ _ _ _ = _
      rw [Function.update_of_ne (by simpa using hv), Function.update_of_ne (hne v)]
    · have htotal := hheld.total
      have hzero := hheld.fresh (.inl hpc)
      have htail : (BufPoolVec.tail (f.sys.vecs none) n).length = n :=
        BufPoolVec.tail_length (hn ▸ Nat.min_le_right _ _)
      simp only [RxWorker.initial, hpc, RxPc.filled, Bool.false_eq_true, if_false] at htotal
      simp only [Function.update_self, Vec.len, Vec.pushAll_list, List.length_append, htail,
        RxWorker.initial, RxPc.filled, Bool.false_eq_true, if_false]
      simp only [Vec.len] at htotal
      omega
    · exact hheld.drained (by simp [hpc])
    · rintro (heq | hnone)
      · cases heq
      · cases hnum.symm.trans hnone
    · cases hfilled
  | initialFill w granted =>
    obtain ⟨hpc, -, s, o, hs, hret, rfl⟩ := rxStep_initialFill_inv h
    obtain ⟨hbooks, hheld⟩ := hf w
    have hbooks' : RxWorker.Books opt { f.workers w with pc := opt.loopHead } (s.link w) := by
      refine hbooks.call hlen hs .fill rfl (fun op => ?_) hbooks.deficit
      have hnone : RxPc.initialFill.filled = false := rfl
      cases op <;> simp [RxWorker.initial, hpc, hnone, hret, Nat.add_comm]
    have hothers := hother hs rfl
    obtain ⟨rfl, hgrant⟩ := step_fill_inv hs
    refine hf.set hothers (fun v hv => hvec _ hv) (fun _ _ => rfl) hbooks' ?_
    have hsupply := hbooks.supply
    have htotal := hheld.total
    have hpending := hheld.drained (by simp [hpc])
    have hle := (grantCount_le (f.sys.link w).fq granted
      (min (f.sys.vecs (some w)).len opt.initialFillNum)).1
    have hinit : (f.workers w).initial opt .fill = 0 := by
      simp [RxWorker.initial, hpc, RxPc.filled]
    have hinit' : RxWorker.initial opt { f.workers w with pc := opt.loopHead } .fill =
        opt.initialFillNum := by simp [RxWorker.initial]
    rw [hinit] at htotal hsupply
    have hbufs : (((f.sys.afterFill w (some w) o.ret).vecs (some w))).len =
        (f.sys.vecs (some w)).len - o.ret := by
      simp [Sys.afterFill, Vec.dropLast, Vec.len]
    have hdeque : ((f.sys.afterFill w (some w) o.ret).deques w).len = (f.sys.deques w).len := rfl
    refine ⟨?_, fun _ => hpending, hloop w, fun _ => ?_⟩
    · rw [hbufs, hdeque, hinit']
      simp only
      omega
    · simp only
      omega
  | command w cmd =>
    obtain ⟨hpc, -, rfl⟩ := rxStep_command_inv h
    obtain ⟨hbooks, hheld⟩ := hf w
    have hfilled : (if cmd = some .exit then RxPc.exited else .tryRecv).filled =
        (f.workers w).pc.filled := by
      rw [hpc]
      split <;> rfl
    refine hf.set (fun v _ => (hf v).1) (fun _ _ => rfl) (fun _ _ => rfl)
      (hbooks.skip hfilled _) ⟨?_, fun _ => hheld.drained (by simp [hpc]), hfresh w ?_,
        fun _ => hheld.enough (by rw [hpc]; rfl)⟩
    · simp only [RxWorker.initial, hfilled]
      exact hheld.total
    · split
      · simp
      · simp
  | tryRecv w grant =>
    obtain ⟨hpc, -, s, o, hs, rfl⟩ := rxStep_tryRecv_inv h
    obtain ⟨hbooks, hheld⟩ := hf w
    have hdeficit := hbooks.deficit
    have hbooks' : RxWorker.Books opt { f.workers w with
        pc := .drain
        fqDeficit := (f.workers w).fqDeficit + o.ret
        stats := { (f.workers w).stats with
          rxPackets := (f.workers w).stats.rxPackets + o.ret } } (s.link w) := by
      refine hbooks.call hlen hs .recv rfl (fun op => ?_) ?_
      · cases op <;> simp [RxWorker.initial, Stats.count, hpc, RxPc.filled]
      · simp only
        omega
    have hothers := hother hs rfl
    obtain ⟨rfl, hret, -⟩ := step_tryRecv_inv hlen hs
    obtain ⟨hused, hroom⟩ := recvCount_le f.sys w w opt.batchSize grant
    rw [← hret] at hused hroom
    have hblen : (f.sys.recvBufs w () o.ret).length = o.ret := by
      rw [recvBufs_length, Nat.min_eq_left hused]
    obtain ⟨hlist, -⟩ := (f.sys.deques w).pushAll_eq (f.sys.recvBufs w () o.ret) (by rwa [hblen])
    refine hf.set hothers (fun _ _ => rfl) (fun v hv => Function.update_of_ne hv _ _) hbooks'
      ⟨?_, fun hne => absurd rfl hne, hfresh w (by simp), fun _ => hheld.enough (by rw [hpc]; rfl)⟩
    have htotal := hheld.total
    have hdeque : ((f.sys.afterRecv w w () o.ret).deques w).len =
        (f.sys.deques w).len + o.ret := by
      simp only [Sys.afterRecv, Function.update_self, ArrayDeque.len, hlist, List.length_append,
        hblen]
    rw [hdeque]
    simp only [Sys.afterRecv, RxWorker.initial, hpc, RxPc.filled, if_true] at htotal ⊢
    omega
  | drain w =>
    obtain ⟨hpc, -, rfl⟩ := rxStep_drain_inv h
    obtain ⟨hbooks, hheld⟩ := hf w
    have hdeque : ((f.sys.drained w).deques w).len = 0 := by
      rw [ArrayDeque.len, Sys.drained_list, List.length_nil]
    refine hf.set (fun v _ => (hf v).1) (fun v hv => hvec _ hv)
      (fun v hv => Function.update_of_ne hv _ _) (hbooks.skip (by rw [hpc]; rfl) _)
      ⟨?_, fun _ => hdeque, hfresh w (by simp), fun _ => hheld.enough (by rw [hpc]; rfl)⟩
    have htotal := hheld.total
    rw [Sys.drained_len, hdeque]
    simp only [RxWorker.initial, hpc, RxPc.filled, if_true] at htotal ⊢
    omega
  | fill w granted =>
    obtain ⟨hpc, ⟨-, -, rfl⟩ | ⟨-, s, o, hs, hle, -, rfl⟩⟩ := rxStep_fill_inv h
    · obtain ⟨hbooks, hheld⟩ := hf w
      refine hf.set (fun v _ => (hf v).1) (fun _ _ => rfl) (fun _ _ => rfl)
        (hbooks.skip (by rw [hpc]; exact opt.loopHead_filled) _)
        ⟨?_, fun _ => hheld.drained (by simp [hpc]), hloop w,
          fun _ => hheld.enough (by rw [hpc]; rfl)⟩
      have htotal := hheld.total
      simp only [RxWorker.initial, hpc, RxPc.filled, if_true] at htotal
      simp only [RxWorker.initial, RxOpt.loopHead_filled, if_true]
      exact htotal
    · obtain ⟨hbooks, hheld⟩ := hf w
      have hdeficit := hbooks.deficit
      have hbooks' : RxWorker.Books opt { f.workers w with
          pc := opt.loopHead
          fqDeficit := (f.workers w).fqDeficit - o.ret
          stats := { (f.workers w).stats with
            fqBufsFilled := (f.workers w).stats.fqBufsFilled + o.ret } } (s.link w) := by
        refine hbooks.call hlen hs .fill rfl (fun op => ?_) ?_
        · have hdone : RxPc.fill.filled = true := rfl
          cases op <;> simp [RxWorker.initial, Stats.count, hpc, hdone, Nat.add_assoc]
        · simp only
          omega
      have hothers := hother hs rfl
      obtain ⟨rfl, hgrant⟩ := step_fill_inv hs
      have hbound := (grantCount_le (f.sys.link w).fq granted
        (min (f.sys.vecs (some w)).len (f.workers w).fqDeficit)).1
      have hbufs : (((f.sys.afterFill w (some w) o.ret).vecs (some w))).len =
          (f.sys.vecs (some w)).len - o.ret := by
        simp [Sys.afterFill, Vec.dropLast, Vec.len]
      refine hf.set hothers (fun v hv => hvec _ hv) (fun _ _ => rfl) hbooks'
        ⟨?_, fun _ => hheld.drained (by simp [hpc]), hloop w,
          fun _ => hheld.enough (by rw [hpc]; rfl)⟩
      have htotal := hheld.total
      have hdeque : ((f.sys.afterFill w (some w) o.ret).deques w).len = (f.sys.deques w).len := rfl
      rw [hbufs, hdeque]
      simp only [RxWorker.initial, hpc, RxPc.filled, if_true] at htotal
      simp only [RxWorker.initial, RxOpt.loopHead_filled, if_true]
      omega
  | kernel w k =>
    obtain ⟨-, s, o, hs, rfl⟩ := rxStep_kernel_inv h
    have hbooks : ∀ v, (f.workers v).Books opt (s.link v) := fun v =>
      (hf v).1.other hlen hs (by simp [Act.op?])
    obtain ⟨mem, l, hi, -, rfl⟩ := step_kernel_inv hs
    exact fun v => ⟨hbooks v, (hf v).2⟩

omit [DecidableEq W] in
/-- At the start nothing was done. -/
theorem Receiver.Accounts.start {s : RxSys W} {area : MmapArea} {v₀ : Option W}
    {b : Vec (BufMmap Unit)} (hs : s.Start area v₀ b) :
    (Receiver.start opt s).Accounts opt fun w => (s.vecs (some w)).len := by
  intro w
  have hpc : opt.worker.pc.filled = false := by
    rw [RxOpt.worker]
    split <;> rfl
  have hnone : ∀ o, opt.worker.initial opt o = 0 := by
    intro o
    cases o with
    | fill => simp only [RxWorker.initial, hpc, Bool.false_eq_true, if_false]
    | _ => rfl
  have hdeque : (s.deques w).len = 0 := by rw [ArrayDeque.len, hs.deques, List.length_nil]
  refine ⟨⟨fun o => ?_, rfl, (hs.link w).balanced⟩, ?_, fun _ => hdeque, fun _ => rfl, fun h => ?_⟩
  · show (s.link w).count o = opt.worker.initial opt o + _
    rw [(hs.link w).count, hnone]
    cases o <;> rfl
  · show (s.vecs (some w)).len + (s.deques w).len + opt.worker.initial opt .fill = _
    rw [hnone, hdeque]
    rfl
  · cases hpc.symm.trans h

/-! ## Refills -/

/-- The area, the books, and the sizes of the fill rings. -/
structure Receiver.Stocked (opt : RxOpt) (area : MmapArea) (base : W → Nat) (f : Receiver W) :
    Prop where
  area : f.sys.area = area
  size : ∀ w, opt.initialFillNum ≤ (f.sys.link w).fq.size
  accounts : f.Accounts opt base

section
variable {area : MmapArea}

/-- Every step keeps them. -/
theorem Receiver.Stocked.step {a : RxAct W} {out : List Line} (hlen : afXdpReserved ≤ area.bufLen)
    (hf : f.Stocked opt area base) (h : rxStep pr opt f a = some (f', out)) :
    f'.Stocked opt area base := by
  have hkept := rxStep_keeps (I := fun s : RxSys W =>
    s.area = area ∧ ∀ w, opt.initialFillNum ≤ (s.link w).fq.size) ?_ ⟨hf.area, hf.size⟩ h
  · refine ⟨hkept.1, hkept.2, hf.accounts.step ?_ h⟩
    rwa [hf.area]
  · rintro s a s' o ⟨harea, hsize⟩ hs
    have hlen' : afXdpReserved ≤ s.area.bufLen := by rwa [harea]
    refine ⟨(step_area hlen' hs).trans harea, fun w => ?_⟩
    rw [(step_counts hlen' hs w).2.2]
    exact hsize w

omit [DecidableEq W] in
theorem Receiver.Stocked.start {s : RxSys W} {v₀ : Option W} {b : Vec (BufMmap Unit)}
    (hs : s.Start area v₀ b) (hsize : ∀ w, opt.initialFillNum ≤ (s.link w).fq.size) :
    (Receiver.start opt s).Stocked opt area fun w => (s.vecs (some w)).len :=
  ⟨hs.area, hsize, .start hs⟩

/-- A refill that is due finds all the buffers it asks for, and room for them. -/
theorem Receiver.Stocked.refill_ret (hf : f.Stocked opt area base)
    (hpc : (f.workers w).pc = .fill) {granted : Bool} {s : RxSys W} {o : Out}
    (hs : Afxdp.step f.sys (.fill w (some w) (f.workers w).fqDeficit granted) = some (s, o)) :
    o.ret = if granted then (f.workers w).fqDeficit else 0 := by
  obtain ⟨hbooks, hheld⟩ := hf.accounts w
  have hfilled : (f.workers w).pc.filled = true := by
    rw [hpc]
    rfl
  have hsupply := hbooks.supply
  have htotal := hheld.total
  have henough := hheld.enough hfilled
  have hpending := hheld.drained (by simp [hpc])
  have hroom := (f.sys.link w).fq.used_add_free
  have hfit := hf.size w
  simp only [RxWorker.initial, hfilled, if_true] at hsupply htotal
  have hret := (step_fill_inv hs).2
  rw [Nat.min_eq_right (by omega)] at hret
  rw [hret]
  cases granted with
  | false => rfl
  | true => rw [grantCount_true, if_pos (by omega), if_pos rfl]

/-- So it fills all that is missing unless it is refused. -/
theorem Receiver.Stocked.refill (hf : f.Stocked opt area base) {granted : Bool} {out : List Line}
    (h : rxStep pr opt f (.fill w granted) = some (f', out)) :
    (f'.workers w).fqDeficit = if granted && fillThreshold ≤ (f.workers w).fqDeficit then 0
      else (f.workers w).fqDeficit := by
  obtain ⟨hpc, ⟨hbelow, -, rfl⟩ | ⟨hdue, s, o, hs, -, -, rfl⟩⟩ := rxStep_fill_inv h
  · rw [set_self, if_neg (by simp only [Bool.and_eq_true, decide_eq_true_eq]; omega)]
  · simp only [set_self, hf.refill_ret hpc hs, hdue, decide_true, Bool.and_true]
    split
    · exact Nat.sub_self _
    · exact Nat.sub_zero _

end

theorem run_stocked {s₀ : RxSys W} {area : MmapArea} {v₀ : Option W} {b : Vec (BufMmap Unit)}
    {as : List (RxAct W)} {outs : List (List Line)} (hlen : afXdpReserved ≤ area.bufLen)
    (hs : s₀.Start area v₀ b) (hsize : ∀ w, opt.initialFillNum ≤ (s₀.link w).fq.size)
    (hrun : run (rxStep pr opt) (.start opt s₀) as = some (f, outs)) :
    f.Stocked opt area fun w => (s₀.vecs (some w)).len :=
  run_invariant (Q := fun _ => True) (fun _ _ _ _ _ hi hstep => hi.step hlen hstep)
    (.start hs hsize) (fun _ _ => trivial) hrun

/-- In every run, whatever the kernel and the other workers do, a worker whose initial fill is done
accounts for its buffers: those of the initial fill are in the fill ring, with the kernel to
receive, in the Rx ring, or to be refilled; what was received was refilled or is to be; and it holds
the buffers it began with and got, less those of the initial fill, and those to be refilled. So a
refill that is due and not refused leaves nothing to be refilled. -/
theorem run_restocks {s₀ : RxSys W} {area : MmapArea} {v₀ : Option W} {b : Vec (BufMmap Unit)}
    {as : List (RxAct W)} {outs : List (List Line)} (hlen : afXdpReserved ≤ area.bufLen)
    (hs : s₀.Start area v₀ b) (hsize : ∀ w, opt.initialFillNum ≤ (s₀.link w).fq.size)
    (hrun : run (rxStep pr opt) (.start opt s₀) as = some (f, outs)) (w : W)
    (hpc : (f.workers w).pc.filled = true) :
    let l := f.sys.link w
    let wk := f.workers w
    l.fq.used + l.krx.length + l.rx.used + wk.fqDeficit = opt.initialFillNum ∧
      wk.stats.rxPackets = wk.fqDeficit + wk.stats.fqBufsFilled ∧
      (f.sys.vecs (some w)).len + (f.sys.deques w).len + opt.initialFillNum =
        (s₀.vecs (some w)).len + wk.got + wk.fqDeficit ∧
      ∀ granted f' out, rxStep pr opt f (.fill w granted) = some (f', out) →
        (f'.workers w).fqDeficit =
          if granted && fillThreshold ≤ wk.fqDeficit then 0 else wk.fqDeficit := by
  have hf := run_stocked hlen hs hsize hrun
  obtain ⟨hbooks, hheld⟩ := hf.accounts w
  have hsupply := hbooks.supply
  have htotal := hheld.total
  simp only [RxWorker.initial, hpc, if_true] at hsupply htotal
  exact ⟨hsupply, hbooks.deficit.symm, htotal, fun _ _ _ h => hf.refill h⟩

theorem run_restocks_dumpRun :
    ∃ f outs, run (rxStep .release (dump 65 64)) (.start (dump 65 64) (dumpSys 7)) dumpRun =
        some (f, outs) ∧
      (f.sys.link ()).fq.used + (f.sys.link ()).krx.length + (f.sys.link ()).rx.used + 65 = 65 ∧
      (f.workers ()).stats.rxPackets = 65 + (f.workers ()).stats.fqBufsFilled ∧
      ∀ f' out, rxStep .release (dump 65 64) f (.fill () true) = some (f', out) →
        (f'.workers ()).fqDeficit = 0 := by
  obtain ⟨f, outs, hrun, hpc, hdeficit⟩ := dumpRun_some
  have hfilled : (f.workers ()).pc.filled = true := by
    rw [hpc]
    rfl
  obtain ⟨hsupply, hrx, -, hrefill⟩ :=
    run_restocks (by decide) (Sys.init_start _ _ _ _) dumpSys_fits hrun () hfilled
  rw [hdeficit] at hsupply hrx hrefill
  exact ⟨f, outs, hrun, hsupply, hrx, hrefill true⟩

/-- The kernel handles one packet of a link in a step at most. -/
theorem rxStep_handled {a : RxAct W} {out : List Line} (hlen : afXdpReserved ≤ f.sys.area.bufLen)
    (h : rxStep pr opt f a = some (f', out)) (w : W) :
    (f'.sys.link w).handled ≤ (f.sys.link w).handled + 1 := by
  cases a with
  | kernel v k =>
    obtain ⟨-, s, o, hs, rfl⟩ := rxStep_kernel_inv h
    exact step_kernel_handled hs w
  | _ =>
    refine Nat.le_succ_of_le (Nat.le_of_eq (over_handled (rxStep_over fun _ ha => ha) hlen ?_ h w))
    trivial

/-- In every run no counter exceeds the number of steps, so in fewer than `2 ^ 64` steps no counter
of the source wraps. -/
theorem run_rx_stats_le {s₀ : RxSys W} {area : MmapArea} {v₀ : Option W} {b : Vec (BufMmap Unit)}
    {as : List (RxAct W)} {outs : List (List Line)} (hlen : afXdpReserved ≤ area.bufLen)
    (hs : s₀.Start area v₀ b) (hsize : ∀ w, opt.initialFillNum ≤ (s₀.link w).fq.size)
    (hrun : run (rxStep pr opt) (.start opt s₀) as = some (f, outs)) (w : W) :
    (f.workers w).stats.rxPackets ≤ as.length ∧ (f.workers w).fqDeficit ≤ as.length ∧
      (f.workers w).stats.fqBufsFilled ≤ as.length := by
  have hhandled : (f.sys.link w).handled ≤ (s₀.link w).handled + as.length := by
    refine Run.run_le (fun f : Receiver W => (f.sys.link w).handled) (Q := fun _ => True)
      (I := fun f => f.sys.area = area) ?_ hs.area (fun _ _ => trivial) hrun
    rintro f a f' u - harea hstep
    have hlen' : afXdpReserved ≤ f.sys.area.bufLen := by rwa [harea]
    refine ⟨rxStep_keeps (I := fun s => s.area = area) ?_ harea hstep,
      rxStep_handled hlen' hstep _⟩
    intro s a s' out harea hs
    rw [step_area (by rwa [harea]) hs, harea]
  rw [(hs.link w).handled] at hhandled
  obtain ⟨hbooks, -⟩ := (run_stocked hlen hs hsize hrun).accounts w
  have hcount := hbooks.count .recv
  have hdeficit := hbooks.deficit
  have hrx := (f.sys.link w).rx.cons_le
  simp only [Link.count, RxWorker.initial, Stats.count, Link.handled] at hcount hhandled
  omega

/-! ## Supply -/

/-- The deficit is below the threshold, and a batch may come on top until it is refilled. -/
def RxWorker.Bounded (opt : RxOpt) (wk : RxWorker) : Prop :=
  wk.fqDeficit < fillThreshold + if wk.pc = .drain ∨ wk.pc = .fill then opt.batchSize else 0

/-- A step in which no refill is refused keeps that. -/
theorem Receiver.Stocked.bounded {area : MmapArea} (hlen : afXdpReserved ≤ area.bufLen)
    (hf : f.Stocked opt area base) (hbounded : ∀ w, (f.workers w).Bounded opt) {a : RxAct W}
    {out : List Line} (ha : ∀ w, a ≠ .fill w false) (h : rxStep pr opt f a = some (f', out)) :
    ∀ w, (f'.workers w).Bounded opt := by
  -- a worker that is not between a reception and its refill may go anywhere
  have hmove : ∀ {w : W} {pc : RxPc} (got : Nat), (f.workers w).pc ≠ .drain →
      (f.workers w).pc ≠ .fill → RxWorker.Bounded opt { f.workers w with pc, got } := by
    intro w pc got hdrain hfill
    have hold := hbounded w
    rw [RxWorker.Bounded, if_neg (not_or.2 ⟨hdrain, hfill⟩)] at hold
    exact Nat.lt_of_lt_of_le hold (Nat.le_add_right _ _)
  cases a with
  | getBufs w =>
    obtain ⟨hpc, -, num, n, -, -, rfl⟩ := rxStep_getBufs_inv h
    exact forall_set hbounded (hmove n (by simp [hpc]) (by simp [hpc]))
  | initialFill w granted =>
    obtain ⟨hpc, -, s, o, -, -, rfl⟩ := rxStep_initialFill_inv h
    exact forall_set hbounded (hmove _ (by simp [hpc]) (by simp [hpc]))
  | command w cmd =>
    obtain ⟨hpc, -, rfl⟩ := rxStep_command_inv h
    exact forall_set hbounded (hmove _ (by simp [hpc]) (by simp [hpc]))
  | tryRecv w grant =>
    obtain ⟨hpc, -, s, o, hs, rfl⟩ := rxStep_tryRecv_inv h
    obtain ⟨-, hret, -⟩ := step_tryRecv_inv (by rwa [hf.area]) hs
    have hbatch : o.ret ≤ opt.batchSize := by
      rw [hret, recvCount, peekCount, recvRequest]
      omega
    have hold := hbounded w
    rw [RxWorker.Bounded, if_neg (by simp [hpc])] at hold
    refine forall_set hbounded ?_
    simp only [RxWorker.Bounded, true_or, if_true]
    omega
  | drain w =>
    obtain ⟨hpc, -, rfl⟩ := rxStep_drain_inv h
    have hold := hbounded w
    rw [RxWorker.Bounded, if_pos (.inl hpc)] at hold
    refine forall_set hbounded ?_
    rwa [RxWorker.Bounded, if_pos (.inr rfl)]
  | fill w granted =>
    cases granted with
    | false => exact absurd rfl (ha w)
    | true =>
      have hdeficit := hf.refill h
      have hbelow : (f'.workers w).fqDeficit < fillThreshold := by
        rw [hdeficit]
        split
        · decide
        · next hnot =>
            simp only [Bool.true_and, decide_eq_true_eq] at hnot
            omega
      obtain ⟨-, ⟨-, -, rfl⟩ | ⟨-, s, o, -, -, -, rfl⟩⟩ := rxStep_fill_inv h
      all_goals
        rw [set_self] at hbelow
        exact forall_set hbounded (Nat.lt_of_lt_of_le hbelow (Nat.le_add_right _ _))
  | kernel w k =>
    obtain ⟨-, s, o, -, rfl⟩ := rxStep_kernel_inv h
    exact hbounded

/-- Below the threshold nothing is refilled. -/
theorem Receiver.Stocked.starves {area : MmapArea} (hf : f.Stocked opt area base)
    (hsmall : opt.initialFillNum < fillThreshold)
    (hnone : ∀ w, (f.workers w).stats.fqBufsFilled = 0) {a : RxAct W} {out : List Line}
    (h : rxStep pr opt f a = some (f', out)) : ∀ w, (f'.workers w).stats.fqBufsFilled = 0 := by
  cases a with
  | getBufs w =>
    obtain ⟨-, -, num, n, -, -, rfl⟩ := rxStep_getBufs_inv h
    exact forall_set (P := fun wk => wk.stats.fqBufsFilled = 0) hnone (hnone w)
  | initialFill w granted =>
    obtain ⟨-, -, s, o, -, -, rfl⟩ := rxStep_initialFill_inv h
    exact forall_set (P := fun wk => wk.stats.fqBufsFilled = 0) hnone (hnone w)
  | command w cmd =>
    obtain ⟨-, -, rfl⟩ := rxStep_command_inv h
    exact forall_set (P := fun wk => wk.stats.fqBufsFilled = 0) hnone (hnone w)
  | tryRecv w grant =>
    obtain ⟨-, -, s, o, -, rfl⟩ := rxStep_tryRecv_inv h
    exact forall_set (P := fun wk => wk.stats.fqBufsFilled = 0) hnone (hnone w)
  | drain w =>
    obtain ⟨-, -, rfl⟩ := rxStep_drain_inv h
    exact forall_set (P := fun wk => wk.stats.fqBufsFilled = 0) hnone (hnone w)
  | fill w granted =>
    obtain ⟨-, ⟨-, -, rfl⟩ | ⟨hdue, s, o, -, -, -, rfl⟩⟩ := rxStep_fill_inv h
    · exact forall_set (P := fun wk => wk.stats.fqBufsFilled = 0) hnone (hnone w)
    · -- no deficit is that large
      have hsupply := (hf.accounts w).1.supply
      have hinitial : (f.workers w).initial opt .fill ≤ opt.initialFillNum := by
        rw [RxWorker.initial]
        split <;> omega
      omega
  | kernel w k =>
    obtain ⟨-, s, o, -, rfl⟩ := rxStep_kernel_inv h
    exact hnone

/-- Take any run in which libbpf refuses no refill for which there is room. With an initial fill of
at least `FILL_THRESHOLD`, each worker that is done with it has its buffers in the fill ring, with
the kernel to receive, or in the Rx ring, up to less than the threshold, and up to a batch more
until what was received is refilled; so at the beginning of the loop there is always one. With a
smaller initial fill nothing is ever refilled, and the worker receives at most that many packets. -/
theorem run_lasts {s₀ : RxSys W} {area : MmapArea} {v₀ : Option W} {b : Vec (BufMmap Unit)}
    {as : List (RxAct W)} {outs : List (List Line)} (hlen : afXdpReserved ≤ area.bufLen)
    (hs : s₀.Start area v₀ b) (hsize : ∀ w, opt.initialFillNum ≤ (s₀.link w).fq.size)
    (hgrant : ∀ w, .fill w false ∉ as)
    (hrun : run (rxStep pr opt) (.start opt s₀) as = some (f, outs)) (w : W)
    (hpc : (f.workers w).pc.filled = true) :
    let l := f.sys.link w
    let wk := f.workers w
    if fillThreshold ≤ opt.initialFillNum then
      opt.initialFillNum < l.fq.used + l.krx.length + l.rx.used +
        (fillThreshold + if wk.pc = .drain ∨ wk.pc = .fill then opt.batchSize else 0)
    else wk.stats.fqBufsFilled = 0 ∧ wk.stats.rxPackets ≤ opt.initialFillNum := by
  have hf : f.Stocked opt area (fun w => (s₀.vecs (some w)).len) ∧
      (∀ w, (f.workers w).Bounded opt) ∧ (opt.initialFillNum < fillThreshold →
        ∀ w, (f.workers w).stats.fqBufsFilled = 0) := by
    refine run_invariant (Q := fun a => ∀ w, a ≠ .fill w false)
      (I := fun f : Receiver W => f.Stocked opt area (fun w => (s₀.vecs (some w)).len) ∧
        (∀ w, (f.workers w).Bounded opt) ∧ (opt.initialFillNum < fillThreshold →
          ∀ w, (f.workers w).stats.fqBufsFilled = 0)) ?_ ?_ ?_ hrun
    · rintro f a f' out ha ⟨hf, hbounded, hnone⟩ hstep
      exact ⟨hf.step hlen hstep, hf.bounded hlen hbounded ha hstep,
        fun hsmall => hf.starves hsmall (hnone hsmall) hstep⟩
    · refine ⟨.start hs hsize, fun _ => ?_, fun _ _ => rfl⟩
      exact Nat.lt_of_lt_of_le (by decide : 0 < fillThreshold) (Nat.le_add_right _ _)
    · intro a ha w heq
      exact hgrant w (heq ▸ ha)
  obtain ⟨hstocked, hbounded, hnone⟩ := hf
  obtain ⟨hbooks, -⟩ := hstocked.accounts w
  have hsupply := hbooks.supply
  have hdeficit := hbooks.deficit
  have hbound := hbounded w
  simp only [RxWorker.initial, hpc, if_true] at hsupply
  rw [RxWorker.Bounded] at hbound
  simp only
  by_cases hsmall : fillThreshold ≤ opt.initialFillNum
  · rw [if_pos hsmall]
    omega
  · have hzero := hnone (Nat.lt_of_not_le hsmall) w
    rw [if_neg hsmall]
    exact ⟨hzero, by omega⟩

/-- Two packets that `dump` receives in turn. -/
def twoRounds : List (RxAct Unit) :=
  [.initialFill () true, .kernel () .takeFill, .kernel () (.publish 0 256 1 0), .tryRecv () 1,
    .drain (), .fill () true, .kernel () .takeFill, .kernel () (.publish 0 256 1 0), .tryRecv () 1,
    .drain (), .fill () true]

theorem run_lasts_dumpRun :
    (∃ f outs, run (rxStep .release (dump 65 64)) (.start (dump 65 64) (dumpSys 7))
        (dumpRun ++ [.fill () true]) = some (f, outs) ∧
      65 < (f.sys.link ()).fq.used + (f.sys.link ()).krx.length + (f.sys.link ()).rx.used + 64) ∧
    ∃ f outs, run (rxStep .release (dump 2 64))
        (.start (dump 2 64) (Sys.init ⟨2, 2048⟩ (some ()) (MmapArea.chunkVec 2 2048) 4)) twoRounds =
          some (f, outs) ∧
      (f.workers ()).stats.fqBufsFilled = 0 ∧ (f.workers ()).stats.rxPackets ≤ 2 := by
  constructor
  · have hloop : (run (rxStep .release (dump 65 64)) (.start (dump 65 64) (dumpSys 7))
        (dumpRun ++ [.fill () true])).any (fun r => (r.1.workers ()).pc = .tryRecv) = true := by
      decide +kernel
    obtain ⟨⟨f, outs⟩, hrun, hpc⟩ := (Option.any_eq_true _ _).1 hloop
    have hpc : (f.workers ()).pc = .tryRecv := of_decide_eq_true hpc
    have hfilled : (f.workers ()).pc.filled = true := by
      rw [hpc]
      rfl
    have hgrant : .fill () false ∉ dumpRun ++ [.fill () true] := by decide +kernel
    have hlasts := run_lasts (by decide) (Sys.init_start _ _ _ _) dumpSys_fits (fun _ => hgrant)
      hrun () hfilled
    simp only [hpc] at hlasts
    exact ⟨f, outs, hrun, hlasts⟩
  · have hloop : (run (rxStep .release (dump 2 64))
        (.start (dump 2 64) (Sys.init ⟨2, 2048⟩ (some ()) (MmapArea.chunkVec 2 2048) 4))
        twoRounds).any (fun r => (r.1.workers ()).pc.filled) = true := by
      decide +kernel
    obtain ⟨⟨f, outs⟩, hrun, hfilled⟩ := (Option.any_eq_true _ _).1 hloop
    have hgrant : .fill () false ∉ twoRounds := by decide +kernel
    have hlasts := run_lasts (by decide) (Sys.init_start _ _ _ _)
      (fun _ => show 2 ≤ 2 ^ 4 by decide) (fun _ => hgrant) hrun () hfilled
    exact ⟨f, outs, hrun, hlasts⟩

/-- With `--bufnum 63` nothing is ever refilled, and `rxdrop` is above the threshold. -/
example : (dump 63 64).initialFillNum < fillThreshold ∧ fillThreshold ≤ rxdrop.initialFillNum := by
  decide

/-! ## Panics -/

/-- The call is the one that the worker makes next. -/
def Receiver.Due (f : Receiver W) : RxAct W → Prop
  | .getBufs w => (f.workers w).pc = .getBufs
  | .initialFill w _ => (f.workers w).pc = .initialFill
  | .command w _ => (f.workers w).pc = .command
  | .tryRecv w _ => (f.workers w).pc = .tryRecv
  | .drain w => (f.workers w).pc = .drain
  | .fill w _ => (f.workers w).pc = .fill
  | .kernel _ _ => False

/-- The call of the crate that a worker makes next, unless it makes none. -/
def Receiver.call (opt : RxOpt) (f : Receiver W) : RxAct W → Option (Act W (Option W) W Unit)
  | .initialFill w granted =>
    if (f.workers w).pc = .initialFill then some (.fill w (some w) opt.initialFillNum granted)
    else none
  | .tryRecv w grant =>
    if (f.workers w).pc = .tryRecv then some (.tryRecv w w opt.batchSize () grant) else none
  | .fill w granted =>
    if (f.workers w).pc = .fill ∧ (f.workers w).fqDeficit ≥ fillThreshold then
      some (.fill w (some w) (f.workers w).fqDeficit granted)
    else none
  | _ => none

/-- The ring index of the call overflows. -/
def Receiver.Overflows (pr : Profile) (opt : RxOpt) (f : Receiver W) (a : RxAct W) : Prop :=
  ∃ c, f.call opt a = some c ∧ c.Overflows pr f.sys

/-- What a call of a worker panics on in either build. -/
def Receiver.PanicsOn (opt : RxOpt) (f : Receiver W) : RxAct W → Prop
  | .initialFill w granted => (f.sys.vecs (some w)).len < opt.initialFillNum ∨
      0 < opt.initialFillNum ∧ granted = false
  | _ => False

/-- What is needed of a state for the calls of the workers to return. -/
structure Receiver.Sane (opt : RxOpt) (area : MmapArea) (base : W → Nat) (f : Receiver W) :
    Prop where
  framed : f.sys.Framed area 0
  stocked : f.Stocked opt area base
  pool : ∀ w, (f.workers w).pc = .getBufs → opt.startBufs.isSome = true

/-- Without an overflow the worker of a debug build does what the one of a release build does. -/
theorem rxStep_of_not_overflows {a : RxAct W} (hlen : afXdpReserved ≤ f.sys.area.bufLen)
    (hinc : ¬f.Overflows pr opt a) : rxStep pr opt f a = rxStep .release opt f a := by
  have hstep : ∀ c, f.call opt a = some c → stepIn pr f.sys c = step f.sys c :=
    fun c hc => stepIn_of_not_overflows hlen fun hover => hinc ⟨c, hc, hover⟩
  cases a with
  | getBufs w =>
    have hget : ∀ num, BufPoolVec.get pr ⟨f.sys.vecs none⟩ (f.sys.vecs (some w)) num =
        BufPoolVec.get .release ⟨f.sys.vecs none⟩ (f.sys.vecs (some w)) num := fun num =>
      (BufPoolVec.get_of (BufPoolVec.moveTail_eq pr _ _ num)).trans
        (BufPoolVec.get_of (BufPoolVec.moveTail_eq .release _ _ num)).symm
    simp only [rxStep, hget]
  | initialFill w granted =>
    simp only [rxStep]
    split
    · next hpc => rw [hstep _ (by rw [Receiver.call, if_pos hpc]), stepIn_release]
    · rfl
  | tryRecv w grant =>
    simp only [rxStep]
    split
    · next hpc => rw [hstep _ (by rw [Receiver.call, if_pos hpc]), stepIn_release]
    · rfl
  | fill w granted =>
    simp only [rxStep]
    split
    · next hpc =>
        split
        · next hdue =>
            have hle := (grantCount_le (f.sys.link w).fq granted
              (min (f.sys.vecs (some w)).len (f.workers w).fqDeficit)).1
            have hret := Nat.le_trans hle (Nat.min_le_right _ _)
            obtain ⟨tr, hfill⟩ := step_fill f.sys w (some w) (f.workers w).fqDeficit granted
            rw [hstep _ (by rw [Receiver.call, if_pos ⟨hpc, hdue⟩]), stepIn_release, hfill,
              Option.bind_some, Option.bind_some, pr.sub64_ok hret,
              Profile.release.sub64_ok hret]
        · rfl
    · rfl
  | _ => rfl

/-- The worker of a debug build panics where its ring index overflows. -/
theorem rxStep_of_overflows {a : RxAct W} (hlen : afXdpReserved ≤ f.sys.area.bufLen)
    (hover : f.Overflows pr opt a) : rxStep pr opt f a = none := by
  obtain ⟨c, hc, hover⟩ := hover
  have hnone := stepIn_of_overflows hlen hover
  cases a with
  | initialFill w granted =>
    simp only [Receiver.call, Option.ite_none_right_eq_some, Option.some.injEq] at hc
    obtain ⟨hpc, rfl⟩ := hc
    simp only [rxStep, if_pos hpc, hnone, Option.bind_none]
  | tryRecv w grant =>
    simp only [Receiver.call, Option.ite_none_right_eq_some, Option.some.injEq] at hc
    obtain ⟨hpc, rfl⟩ := hc
    simp only [rxStep, if_pos hpc, hnone, Option.map_none]
  | fill w granted =>
    simp only [Receiver.call, Option.ite_none_right_eq_some, Option.some.injEq] at hc
    obtain ⟨⟨hpc, hdue⟩, rfl⟩ := hc
    simp only [rxStep, if_pos hpc, if_pos hdue, hnone, Option.bind_none]
  | _ => cases hc

/-- In such a state a call that is due panics on what is listed and on nothing else, in a release
build. -/
theorem Receiver.Sane.release_panics_iff {area : MmapArea} (hf : f.Sane opt area base)
    (hlen : afXdpReserved ≤ area.bufLen) (hfit : area.bufLen < 2 ^ 16 + afXdpReserved)
    {a : RxAct W} (hdue : f.Due a) : rxStep .release opt f a = none ↔ f.PanicsOn opt a := by
  cases a with
  | getBufs w =>
    have hpc : (f.workers w).pc = .getBufs := hdue
    obtain ⟨num, hnum⟩ := Option.isSome_iff_exists.1 (hf.pool w hpc)
    have hmove := BufPoolVec.moveTail_eq .release (f.sys.vecs none) (f.sys.vecs (some w)) num
    have hget : BufPoolVec.get .release ⟨f.sys.vecs none⟩ (f.sys.vecs (some w)) num = _ :=
      BufPoolVec.get_of hmove
    refine iff_of_false ?_ id
    simp only [rxStep, hpc, hnum, hget, reduceCtorEq, not_false_eq_true]
  | initialFill w granted =>
    have hpc : (f.workers w).pc = .initialFill := hdue
    obtain ⟨tr, hfill⟩ := step_fill f.sys w (some w) opt.initialFillNum granted
    have hsupply := (hf.stocked.accounts w).1.supply
    simp only [RxWorker.initial, hpc, RxPc.filled, Bool.false_eq_true, if_false] at hsupply
    have hroom := (f.sys.link w).fq.used_add_free
    have hsize := hf.stocked.size w
    simp only [rxStep, hpc, if_true, stepIn_release, hfill, Option.bind_some, ite_eq_right_iff,
      reduceCtorEq, imp_false, PanicsOn]
    cases granted with
    | false =>
      simp only [grantCount, Bool.false_and, Bool.false_eq_true, if_false, and_true]
      omega
    | true =>
      rw [grantCount_true, if_pos (by omega)]
      simp only [reduceCtorEq, and_false, or_false]
      omega
  | command w cmd =>
    have hpc : (f.workers w).pc = .command := hdue
    refine iff_of_false ?_ id
    simp only [rxStep, hpc, if_true, reduceCtorEq, not_false_eq_true]
  | tryRecv w grant =>
    have hpc : (f.workers w).pc = .tryRecv := hdue
    -- a packet leaves room for the reserved bytes
    have hdesc : ∀ e ∈ (f.sys.link w).rx.entries.take
        (recvCount f.sys w w opt.batchSize grant), e.len < 2 ^ 16 := by
      intro e he
      have hfits := ((hf.framed.link w).rx e (List.mem_of_mem_take he)).fits
      omega
    have hlen' : afXdpReserved ≤ f.sys.area.bufLen := by rwa [hf.stocked.area]
    obtain ⟨tr, hrecv⟩ := step_tryRecv f.sys w w opt.batchSize () grant hlen' hdesc
    refine iff_of_false ?_ id
    simp only [rxStep, hpc, if_true, stepIn_release, hrecv, Option.map_some, reduceCtorEq,
      not_false_eq_true]
  | drain w =>
    have hpc : (f.workers w).pc = .drain := hdue
    refine iff_of_false ?_ id
    simp only [rxStep, hpc, if_true, reduceCtorEq, not_false_eq_true]
  | fill w granted =>
    have hpc : (f.workers w).pc = .fill := hdue
    obtain ⟨tr, hfill⟩ := step_fill f.sys w (some w) (f.workers w).fqDeficit granted
    have hle := (grantCount_le (f.sys.link w).fq granted
      (min (f.sys.vecs (some w)).len (f.workers w).fqDeficit)).1
    refine iff_of_false ?_ id
    simp only [rxStep, hpc, if_true]
    split
    · rw [stepIn_release, hfill, Option.bind_some]
      simp only [Profile.release.sub64_ok (Nat.le_trans hle (Nat.min_le_right _ _)), reduceCtorEq,
        not_false_eq_true]
    · simp
  | kernel w k => exact hdue.elim

/-- In a debug build it panics on an overflow as well. -/
theorem Receiver.Sane.panics_iff {area : MmapArea} (hf : f.Sane opt area base)
    (hlen : afXdpReserved ≤ area.bufLen) (hfit : area.bufLen < 2 ^ 16 + afXdpReserved)
    {a : RxAct W} (hdue : f.Due a) :
    rxStep pr opt f a = none ↔ f.PanicsOn opt a ∨ f.Overflows pr opt a := by
  have hlen' : afXdpReserved ≤ f.sys.area.bufLen := by rwa [hf.stocked.area]
  by_cases hover : f.Overflows pr opt a
  · simp only [rxStep_of_overflows hlen' hover, hover, or_true]
  · rw [rxStep_of_not_overflows hlen' hover, hf.release_panics_iff hlen hfit hdue]
    simp only [hover, or_false]

/-- No worker goes back to the pool. -/
theorem rxStep_waiting {a : RxAct W} {out : List Line} (h : rxStep pr opt f a = some (f', out))
    {v : W} (hpc : (f'.workers v).pc = .getBufs) : (f.workers v).pc = .getBufs := by
  have hset : ∀ {w : W} {s : RxSys W} {wk : RxWorker}, wk.pc ≠ .getBufs →
      ((f.set w s wk).workers v).pc = .getBufs → (f.workers v).pc = .getBufs := by
    intro w s wk hwk hpc
    rcases eq_or_ne v w with rfl | hv
    · rw [Receiver.set_self] at hpc
      exact absurd hpc hwk
    · rwa [Receiver.set_of_ne f hv] at hpc
  have hloop : opt.loopHead ≠ .getBufs := opt.loopHead_ne .getBufs (by simp) (by simp)
  cases a with
  | getBufs w =>
    obtain ⟨-, -, num, n, -, -, rfl⟩ := rxStep_getBufs_inv h
    exact hset (by simp) hpc
  | initialFill w granted =>
    obtain ⟨-, -, s, o, -, -, rfl⟩ := rxStep_initialFill_inv h
    exact hset hloop hpc
  | command w cmd =>
    obtain ⟨-, -, rfl⟩ := rxStep_command_inv h
    refine hset ?_ hpc
    split
    · simp
    · simp
  | tryRecv w grant =>
    obtain ⟨-, -, s, o, -, rfl⟩ := rxStep_tryRecv_inv h
    exact hset (by simp) hpc
  | drain w =>
    obtain ⟨-, -, rfl⟩ := rxStep_drain_inv h
    exact hset (by simp) hpc
  | fill w granted =>
    obtain ⟨-, ⟨-, -, rfl⟩ | ⟨-, s, o, -, -, -, rfl⟩⟩ := rxStep_fill_inv h
    · exact hset hloop hpc
    · exact hset hloop hpc
  | kernel w k =>
    obtain ⟨-, s, o, -, rfl⟩ := rxStep_kernel_inv h
    exact hpc

/-- Every lawful step keeps it so. -/
theorem Receiver.Sane.step {area : MmapArea} {a : RxAct W} {out : List Line}
    (hlen : afXdpReserved ≤ area.bufLen) (hf : f.Sane opt area base)
    (ha : a.Allowed (Act.Lawful area 0)) (h : rxStep pr opt f a = some (f', out)) :
    f'.Sane opt area base where
  framed := (rxStep_over fun _ => Act.lawful_of_ne_kernel).step_invariant
    (fun _ _ _ _ ha hi hs => hi.step hlen ha hs) ha hf.framed h
  stocked := hf.stocked.step hlen h
  pool := fun w hpc => hf.pool w (rxStep_waiting h hpc)

omit [DecidableEq W] in
theorem Receiver.Sane.start {bufNum bufLen : Nat} {s : RxSys W} {v₀ : Option W}
    (hlen : afXdpReserved < bufLen)
    (hs : s.Start ⟨bufNum, bufLen⟩ v₀ (MmapArea.chunkVec bufNum bufLen))
    (hsize : ∀ w, opt.initialFillNum ≤ (s.link w).fq.size) :
    (Receiver.start opt s).Sane opt ⟨bufNum, bufLen⟩ fun w => (s.vecs (some w)).len where
  framed := Sys.Framed.start hlen (Nat.zero_le _) (List.Subperm.refl _) hs
  stocked := .start hs hsize
  pool := by
    intro w hpc
    have hpc' : opt.worker.pc = .getBufs := hpc
    rw [RxOpt.worker] at hpc'
    split at hpc'
    · assumption
    · cases hpc'

omit [DecidableEq W] in
/-- The steps of a run in which the kernel leaves room for the reserved bytes are lawful. -/
theorem RxAct.lawful_of_publish {bufNum bufLen : Nat} {as : List (RxAct W)}
    (h : ∀ w j o len opts, .kernel w (.publish j o len opts) ∈ as →
      o ≤ afXdpReserved ∧ len + afXdpReserved ≤ bufLen) :
    ∀ a ∈ as, a.Allowed (Act.Lawful ⟨bufNum, bufLen⟩ 0) := by
  intro a ha
  unfold RxAct.Allowed
  split
  · next w k =>
      cases k with
      | publish j o len opts => exact ⟨Nat.zero_le _, h w j o len opts ha⟩
      | _ => trivial
  · trivial

/-- Take any run of the workers of a receiver, in either build, over an area that `new` made, with
chunks whose packets have lengths that fit a `u16`, with fill rings that have room for the initial
fill, and with a kernel that publishes packets at offsets up to `AF_XDP_RESERVED`, with lengths that
are `AF_XDP_RESERVED` less than those of the chunks at most. In every state that it reaches the next
call of a worker panics if and only if it is an initial fill that is refused or finds too few
buffers, or a call of a debug build whose ring index overflows: in a release build nothing panics
once a worker is in its loop. -/
theorem run_rx_panics_iff {p : Profile} {mmap : Nat → Nat → Bool} {bufNum bufLen : Nat}
    {options : MmapAreaOptions} {area : MmapArea} {b : Vec (BufMmap Unit)} {s₀ : RxSys W}
    {v₀ : Option W} {as : List (RxAct W)} {outs : List (List Line)} (hlen : afXdpReserved < bufLen)
    (hfit : bufLen < 2 ^ 16 + afXdpReserved) (hnum : bufNum * bufLen < 2 ^ 64)
    (hnew : MmapArea.new p mmap bufNum bufLen options = .ok (.ok (area, b)))
    (hs : s₀.Start area v₀ b) (hsize : ∀ w, opt.initialFillNum ≤ (s₀.link w).fq.size)
    (hlaw : ∀ w j o len opts, .kernel w (.publish j o len opts) ∈ as →
      o ≤ afXdpReserved ∧ len + afXdpReserved ≤ bufLen)
    (hrun : run (rxStep pr opt) (.start opt s₀) as = some (f, outs)) {a : RxAct W}
    (hdue : f.Due a) :
    rxStep pr opt f a = none ↔ f.PanicsOn opt a ∨ f.Overflows pr opt a := by
  have hlen' := Nat.le_of_lt hlen
  obtain ⟨rfl, rfl⟩ := MmapArea.new_inv hnum hlen' hnew
  have hsane : f.Sane opt ⟨bufNum, bufLen⟩ fun w => (s₀.vecs (some w)).len :=
    run_invariant (fun _ _ _ _ ha hi hstep => hi.step hlen' ha hstep) (.start hlen hs hsize)
      (RxAct.lawful_of_publish hlaw) hrun
  exact hsane.panics_iff hlen' hfit hdue

theorem run_rx_panics_iff_dumpRun :
    ∃ f outs, run (rxStep .release (dump 65 64)) (.start (dump 65 64) (dumpSys 7)) dumpRun =
        some (f, outs) ∧
      (rxStep .release (dump 65 64) f (.fill () false) = none ↔
        f.PanicsOn (dump 65 64) (.fill () false) ∨
          f.Overflows .release (dump 65 64) (.fill () false)) := by
  obtain ⟨f, outs, hrun, hpc, -⟩ := dumpRun_some
  exact ⟨f, outs, hrun, run_rx_panics_iff (by decide) (by decide) (by decide) dumpSys_new
    (Sys.init_start _ _ _ _) dumpSys_fits (fun _ _ _ _ _ => dumpRun_publish) hrun hpc⟩

end

end Afxdp
