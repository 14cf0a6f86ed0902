import Afxdp.Counts
import Afxdp.TwoLink

/-!
# How the forwarders refill

A forwarder refills a link by what it received on it, once this is at least `FILL_THRESHOLD`. Its
statistics are what its calls returned, so they are the counters of the rings (`FwdWorker.Books`),
and the deficit of a link is what was received and not refilled. So after the initial fill the
kernel has on each link the buffers of the initial fill, less the deficit
(`FwdWorker.Books.supply`).

With the packets that are pending every buffer and every packet is accounted for (`run_accounts`).
No counter exceeds the number of steps (`run_stats_le`).

If the initial fill is below the threshold, no link is ever refilled, and it receives no more
packets than the initial fill put in (`run_starves`). If every refill is complete, the kernel is
never short of more than a batch and the threshold (`run_supply`).
-/

namespace Afxdp

open Run (run EveryStep checkSteps everyStep_of_checkSteps)

/-! ## Books -/

/-- What the calls `o` of a link returned, by the statistics. -/
def Stats.count (st : Stats) : Op → Nat
  | .fill => st.fqBufsFilled
  | .recv => st.rxPackets
  | .send => st.txPackets
  | .service => st.cqBufsReceived

/-- Whether the initial fill of a link is done. -/
def FwdPc.filled : FwdPc → Pos → Bool
  | .getBufs, _ | .initialFill .first, _ => false
  | .initialFill .second, pos => pos = .first
  | _, _ => true

/-- What the initial fill of a link put into its fill ring, which is in no statistics. -/
def FwdWorker.initial (opt : FwdOpt) (wk : FwdWorker) (pos : Pos) : Op → Nat
  | .fill => if wk.pc.filled pos then opt.initialFillNum else 0
  | _ => 0

/-- The statistics are the counters of the rings, and the deficit of a link is what was received on
it and not refilled. -/
structure FwdWorker.Books (opt : FwdOpt) (wk : FwdWorker) (pos : Pos) (l : Link) : Prop where
  count : ∀ o, l.count o = wk.initial opt pos o + (wk.stats pos).count o
  deficit : wk.fqDeficit pos + (wk.stats pos).fqBufsFilled = (wk.stats pos).rxPackets
  balanced : l.Balanced

section
variable {pr : Profile} {opt : FwdOpt} {wk : FwdWorker} {pos : Pos} {l : Link}

@[simp] theorem FwdOpt.loopHead_filled (pos : Pos) : opt.loopHead.filled pos = true := by
  rw [loopHead]
  split <;> rfl

@[simp] theorem FwdOpt.nextLink_filled (p pos : Pos) : (opt.nextLink p).filled pos = true := by
  cases p
  · rfl
  · exact loopHead_filled pos

/-- The initial fill of a link is done where the worker goes on behind it, and not before. -/
theorem FwdOpt.nextFill_filled (p pos : Pos) : (opt.nextFill p).filled pos =
    ((FwdPc.initialFill p).filled pos || decide (pos = p)) := by
  cases p
  · cases pos <;> rfl
  · rw [nextFill, loopHead_filled]
    cases pos <;> rfl

theorem FwdPc.initialFill_filled (pos : Pos) : (initialFill pos).filled pos = false := by
  cases pos <;> rfl

/-- The buffers of the initial fill of a link are in the fill ring, with the kernel to receive, in
the Rx ring, or to be refilled. -/
theorem FwdWorker.Books.supply (h : wk.Books opt pos l) (hpc : wk.pc.filled pos = true) :
    l.fq.used + l.krx.length + l.rx.used + wk.fqDeficit pos = opt.initialFillNum := by
  have hfill := h.count .fill
  have hrecv := h.count .recv
  have hdeficit := h.deficit
  have hbal := h.balanced.rx
  have hfq := l.fq.cons_le
  have hrx := l.rx.cons_le
  simp only [Link.count, initial, hpc, if_true, Stats.count] at hfill hrecv
  simp only [Spsc.RingBuf.used]
  omega

/-- What was sent and not completed is in the Tx ring, with the kernel, or in the completion
ring. -/
theorem FwdWorker.Books.inFlight (h : wk.Books opt pos l) :
    l.tx.used + l.ktx.length + l.cq.used + (wk.stats pos).cqBufsReceived =
      (wk.stats pos).txPackets := by
  have hsend := h.count .send
  have hservice := h.count .service
  have hbal := h.balanced.tx
  have htx := l.tx.cons_le
  have hcq := l.cq.cons_le
  simp only [Link.count, initial, Stats.count] at hsend hservice
  simp only [Spsc.RingBuf.used]
  omega

/-- The kernel receives into fill entries only. -/
theorem FwdWorker.Books.received_le (h : wk.Books opt pos l) :
    l.rx.prod ≤ opt.initialFillNum + (wk.stats pos).fqBufsFilled ∧
      (wk.stats pos).rxPackets ≤ l.rx.prod := by
  have hfill := h.count .fill
  have hrecv := h.count .recv
  have hbal := h.balanced.rx
  have hfq := l.fq.cons_le
  have hrx := l.rx.cons_le
  have hinitial : wk.initial opt pos .fill ≤ opt.initialFillNum := by
    rw [initial]
    split <;> omega
  simp only [Link.count, initial, Stats.count] at hfill hrecv hinitial
  omega

end

/-- The books of all workers. -/
def Forwarder.Books {W : Type} (opt : FwdOpt) (f : Forwarder W) : Prop :=
  ∀ w pos, (f.workers w).Books opt pos (f.sys.link (w, pos))

section
variable {W : Type} [DecidableEq W] {pr : Profile} {opt : FwdOpt} {f f' : Forwarder W} {w : W}

/-- A worker that moves on without a call keeps the books. -/
theorem Forwarder.Books.skip (hf : f.Books opt) {s : FwdSys W}
    (hlink : s.link = f.sys.link) {pc : FwdPc}
    (hpc : ∀ pos, pc.filled pos = (f.workers w).pc.filled pos) :
    (f.set w (s, { f.workers w with pc })).Books opt := by
  intro v pos
  show FwdWorker.Books opt _ pos (s.link (v, pos))
  rw [hlink]
  rcases eq_or_ne v w with rfl | hv
  · rw [set_self]
    refine ⟨?_, (hf v pos).deficit, (hf v pos).balanced⟩
    intro o
    rw [(hf v pos).count o]
    cases o <;> simp only [FwdWorker.initial, hpc]
  · rw [set_of_ne f hv]
    exact hf v pos

/-- A call keeps the books if the worker enters what it returned. -/
theorem Forwarder.Books.call (hf : f.Books opt) (hlen : afXdpReserved ≤ f.sys.area.bufLen)
    {a : Act (W × Pos) (Option W) (W × Pos) Unit} {s : FwdSys W}
    {out : Out} (hs : step f.sys a = some (s, out)) (o : Op) (pos : Pos)
    (hop : a.op? = some (o, (w, pos))) {wk : FwdWorker}
    (hcount : ∀ p o', wk.initial opt p o' + (wk.stats p).count o' =
      (f.workers w).initial opt p o' + ((f.workers w).stats p).count o' +
        if o' = o ∧ p = pos then out.ret else 0)
    (hdeficit : ∀ p, wk.fqDeficit p + (wk.stats p).fqBufsFilled = (wk.stats p).rxPackets) :
    (f.set w (s, wk)).Books opt := by
  intro v p
  obtain ⟨hcounts, hbal, -⟩ := step_counts hlen hs (v, p)
  show FwdWorker.Books opt _ p (s.link (v, p))
  rcases eq_or_ne v w with rfl | hv
  · rw [set_self]
    refine ⟨?_, hdeficit p, hbal (hf v p).balanced⟩
    intro o'
    rw [hcounts o', (hf v p).count o', hcount p o', returned, hop]
    refine congrArg _ (if_congr ?_ rfl rfl)
    simp only [Option.some.injEq, Prod.mk.injEq, true_and]
    exact and_congr eq_comm eq_comm
  · rw [set_of_ne f hv]
    refine ⟨?_, (hf v p).deficit, hbal (hf v p).balanced⟩
    intro o'
    have hne : a.op? ≠ some (o', (v, p)) := by
      rw [hop]
      simpa using fun _ h => absurd h.symm hv
    rw [hcounts o', returned_of_ne out hne, Nat.add_zero]
    exact (hf v p).count o'

/-- So does a call of the loop that changes the statistics and the deficit of one link. -/
theorem Forwarder.Books.enter (hf : f.Books opt) (hlen : afXdpReserved ≤ f.sys.area.bufLen)
    {a : Act (W × Pos) (Option W) (W × Pos) Unit} {s : FwdSys W}
    {out : Out} (hs : step f.sys a = some (s, out)) (o : Op) (pos : Pos)
    (hop : a.op? = some (o, (w, pos))) {wk : FwdWorker}
    (hfilled : ∀ p, wk.pc.filled p = (f.workers w).pc.filled p)
    (hstats : ∀ p, p ≠ pos → wk.stats p = (f.workers w).stats p)
    (hdeficits : ∀ p, p ≠ pos → wk.fqDeficit p = (f.workers w).fqDeficit p)
    (hcount : ∀ o', (wk.stats pos).count o' =
      ((f.workers w).stats pos).count o' + if o' = o then out.ret else 0)
    (hdeficit : wk.fqDeficit pos + (wk.stats pos).fqBufsFilled = (wk.stats pos).rxPackets) :
    (f.set w (s, wk)).Books opt := by
  refine hf.call hlen hs o pos hop ?_ ?_
  · intro p o'
    have hinitial : wk.initial opt p o' = (f.workers w).initial opt p o' := by
      cases o' <;> simp only [FwdWorker.initial, hfilled]
    rw [hinitial]
    rcases eq_or_ne p pos with rfl | hp
    · rw [hcount o', Nat.add_assoc]
      simp
    · rw [hstats p hp]
      simp [hp]
  · intro p
    rcases eq_or_ne p pos with rfl | hp
    · exact hdeficit
    · rw [hdeficits p hp, hstats p hp]
      exact (hf w p).deficit

/-- Every step keeps the books. -/
theorem Forwarder.Books.step {a : FwdAct W} {u : Unit} (hlen : afXdpReserved ≤ f.sys.area.bufLen)
    (hf : f.Books opt) (h : fwdStep pr opt f a = some (f', u)) : f'.Books opt := by
  cases a with
  | getBufs w =>
    obtain ⟨hpc, num, n, -, -, rfl⟩ := fwdStep_getBufs_inv h
    refine hf.skip rfl fun pos => ?_
    rw [hpc]
    rfl
  | initialFill w granted =>
    obtain ⟨pos, s, out, hpc, hs, hret, rfl⟩ := fwdStep_initialFill_inv h
    refine hf.call hlen hs .fill pos rfl ?_ fun p => (hf w p).deficit
    intro p o
    cases o with
    | fill =>
      simp only [FwdWorker.initial, hpc, FwdOpt.nextFill_filled]
      rcases eq_or_ne p pos with rfl | hp
      · simp [FwdPc.initialFill_filled, hret, Nat.add_comm]
      · simp [hp]
    | _ => simp [FwdWorker.initial]
  | command w cmd =>
    obtain ⟨hpc, rfl⟩ := fwdStep_command_inv h
    refine hf.skip rfl fun pos => ?_
    rw [hpc]
    split <;> rfl
  | service w grant =>
    obtain ⟨pos, s, out, hpc, hs, rfl⟩ := fwdStep_service_inv h
    refine hf.enter hlen hs .service pos rfl ?_
      (fun p hp => Function.update_of_ne hp _ _) (fun _ _ => rfl) ?_ ?_
    · intro p
      rw [hpc]
      rfl
    · intro o
      cases o <;> simp [Stats.count]
    · simpa using (hf w pos).deficit
  | tryRecv w grant =>
    obtain ⟨pos, s, out, hpc, hs, rfl⟩ := fwdStep_tryRecv_inv h
    refine hf.enter hlen hs .recv pos rfl ?_
      (fun p hp => Function.update_of_ne hp _ _) (fun p hp => Function.update_of_ne hp _ _) ?_ ?_
    · intro p
      rw [hpc]
      rfl
    · intro o
      cases o <;> simp [Stats.count]
    · have hdeficit := (hf w pos).deficit
      simp only [Function.update_self]
      omega
  | forward w granted send =>
    obtain ⟨pos, hpc, rfl | ⟨s, out, hs, rfl⟩⟩ := fwdStep_forward_inv h
    · refine hf.skip rfl fun p => ?_
      rw [hpc]
      rfl
    · refine hf.enter hlen hs .send pos.other rfl ?_
        (fun p hp => Function.update_of_ne hp _ _) (fun _ _ => rfl) ?_ ?_
      · intro p
        rw [hpc]
        rfl
      · intro o
        cases o <;> simp [Stats.count]
      · simpa using (hf w pos.other).deficit
  | fill w granted =>
    obtain ⟨pos, hpc, ⟨-, rfl⟩ | ⟨-, s, out, hs, hret, rfl⟩⟩ := fwdStep_fill_inv h
    · refine hf.skip rfl fun p => ?_
      rw [hpc]
      exact FwdOpt.nextLink_filled pos p
    · refine hf.enter hlen hs .fill pos rfl ?_
        (fun p hp => Function.update_of_ne hp _ _) (fun p hp => Function.update_of_ne hp _ _) ?_ ?_
      · intro p
        rw [hpc]
        exact FwdOpt.nextLink_filled pos p
      · intro o
        cases o <;> simp [Stats.count]
      · have hdeficit := (hf w pos).deficit
        simp only [Function.update_self]
        omega
  | kernel w pos k =>
    obtain ⟨s, out, hs, rfl⟩ := fwdStep_kernel_inv h
    intro v p
    obtain ⟨hcounts, hbal, -⟩ := step_counts hlen hs (v, p)
    refine ⟨?_, (hf v p).deficit, hbal (hf v p).balanced⟩
    intro o
    rw [hcounts o, returned_of_ne out (by simp [Act.op?]), Nat.add_zero]
    exact (hf v p).count o

omit [DecidableEq W] in
/-- At the start nothing was done. -/
theorem Forwarder.Books.start {s : FwdSys W} {area : MmapArea}
    {v₀ : Option W} {b : Vec (BufMmap Unit)} (hs : s.Start area v₀ b) :
    (Forwarder.start opt s).Books opt := by
  intro w pos
  have hpc : ∀ p, opt.worker.pc.filled p = false := by
    intro p
    rw [FwdOpt.worker]
    split <;> rfl
  refine ⟨?_, rfl, (hs.link (w, pos)).balanced⟩
  intro o
  refine (Link.Fresh.count (hs.link (w, pos)) o).trans ?_
  cases o with
  | fill =>
    show 0 = (if opt.worker.pc.filled pos then opt.initialFillNum else 0) + 0
    rw [hpc]
    rfl
  | _ => rfl

/-! ## Pending packets -/

/-- What was received on a link was sent on the other one or is pending, by the statistics. -/
def Forwarder.Pending (f : Forwarder W) : Prop := ∀ w pos, ((f.workers w).stats pos).rxPackets =
  ((f.workers w).stats pos.other).txPackets + (f.sys.deques (w, pos)).list.length

/-- A step that receives `n` packets and takes `m` of the pending ones to send keeps that. -/
theorem Forwarder.Pending.call (hf : f.Pending) {s : FwdSys W} {wk : FwdWorker} (pos : Pos)
    {n m : Nat} (hdeques : ∀ d, d ≠ (w, pos) → s.deques d = f.sys.deques d)
    (hlen : (s.deques (w, pos)).list.length + m = (f.sys.deques (w, pos)).list.length + n)
    (hrx : ∀ p, (wk.stats p).rxPackets =
      ((f.workers w).stats p).rxPackets + if p = pos then n else 0)
    (htx : ∀ p, (wk.stats p.other).txPackets =
      ((f.workers w).stats p.other).txPackets + if p = pos then m else 0) :
    (f.set w (s, wk)).Pending := by
  intro v p
  have hold := hf v p
  show _ = _ + (s.deques (v, p)).list.length
  rcases eq_or_ne v w with rfl | hv
  · rw [set_self, hrx, htx]
    rcases eq_or_ne p pos with rfl | hp
    · rw [if_pos rfl, if_pos rfl]
      omega
    · rw [if_neg hp, if_neg hp, hdeques _ (by simp [hp])]
      exact hold
  · rw [set_of_ne f hv, hdeques _ (by simp [hv])]
    exact hold

/-- So does one that changes neither the statistics of packets nor the deques. -/
theorem Forwarder.Pending.skip (hf : f.Pending) {s : FwdSys W} {wk : FwdWorker}
    (hdeques : s.deques = f.sys.deques)
    (hrx : ∀ pos, (wk.stats pos).rxPackets = ((f.workers w).stats pos).rxPackets)
    (htx : ∀ pos, (wk.stats pos).txPackets = ((f.workers w).stats pos).txPackets) :
    (f.set w (s, wk)).Pending :=
  hf.call .first (n := 0) (m := 0) (fun _ _ => by rw [hdeques]) (by rw [hdeques])
    (fun p => by rw [hrx, ite_self, Nat.add_zero]) fun p => by rw [htx, ite_self, Nat.add_zero]

/-- A field of the statistics after those of one link are replaced. -/
theorem stats_update (g : Stats → Nat) {stats : Pos → Stats} {q : Pos} {st : Stats} {n : Nat}
    (hst : g st = g (stats q) + n) (p : Pos) :
    g (Function.update stats q st p) = g (stats p) + if p = q then n else 0 := by
  rcases eq_or_ne p q with rfl | hp
  · rw [Function.update_self, if_pos rfl, hst]
  · rw [Function.update_of_ne hp, if_neg hp, Nat.add_zero]

/-- Every step keeps it. -/
theorem Forwarder.Pending.step {a : FwdAct W} {u : Unit} (hlen : afXdpReserved ≤ f.sys.area.bufLen)
    (hf : f.Pending) (h : fwdStep pr opt f a = some (f', u)) : f'.Pending := by
  cases a with
  | getBufs w =>
    obtain ⟨-, num, n, -, -, rfl⟩ := fwdStep_getBufs_inv h
    exact hf.skip rfl (fun _ => rfl) fun _ => rfl
  | initialFill w granted =>
    obtain ⟨pos, s, out, -, hs, -, rfl⟩ := fwdStep_initialFill_inv h
    obtain ⟨rfl, -⟩ := step_fill_inv hs
    exact hf.skip rfl (fun _ => rfl) fun _ => rfl
  | command w cmd =>
    obtain ⟨-, rfl⟩ := fwdStep_command_inv h
    exact hf.skip rfl (fun _ => rfl) fun _ => rfl
  | service w grant =>
    obtain ⟨pos, s, out, -, hs, rfl⟩ := fwdStep_service_inv h
    obtain ⟨rfl, -⟩ := step_service_inv hlen hs
    refine hf.skip rfl (fun p => ?_) fun p => ?_
    · exact (stats_update Stats.rxPackets rfl p).trans (by rw [ite_self, Nat.add_zero])
    · exact (stats_update Stats.txPackets rfl p).trans (by rw [ite_self, Nat.add_zero])
  | tryRecv w grant =>
    obtain ⟨pos, s, out, -, hs, rfl⟩ := fwdStep_tryRecv_inv h
    obtain ⟨rfl, hret, -⟩ := step_tryRecv_inv hlen hs
    obtain ⟨hused, hroom⟩ := recvCount_le f.sys (w, pos) (w, pos) socketBatchSize grant
    rw [← hret] at hused hroom
    have hblen : (f.sys.recvBufs (w, pos) () out.ret).length = out.ret := by
      rw [recvBufs_length, Nat.min_eq_left hused]
    obtain ⟨hlist, -⟩ := (f.sys.deques (w, pos)).pushAll_eq (f.sys.recvBufs (w, pos) () out.ret)
      (by rwa [hblen])
    refine hf.call pos (n := out.ret) (m := 0) (fun d hd => ?_) ?_ (fun p => ?_) fun p => ?_
    · exact Function.update_of_ne hd _ _
    · simp only [Sys.afterRecv, Function.update_self, hlist, List.length_append, hblen,
        Nat.add_zero]
    · exact stats_update Stats.rxPackets rfl p
    · exact (stats_update Stats.txPackets rfl p.other).trans (by rw [ite_self, ite_self])
  | forward w granted send =>
    obtain ⟨pos, -, rfl | ⟨s, out, hs, rfl⟩⟩ := fwdStep_forward_inv h
    · exact hf.skip rfl (fun _ => rfl) fun _ => rfl
    · obtain ⟨rfl, hret, -⟩ := step_trySend_inv hs
      have hle := (grantCount_le (f.sys.link (w, pos.other)).tx granted
        (min (f.sys.deques (w, pos)).len socketBatchSize)).1
      rw [← sendCount, ← hret, ArrayDeque.len] at hle
      refine hf.call pos (n := 0) (m := out.ret) (fun d hd => ?_) ?_ (fun p => ?_) fun p => ?_
      · exact Function.update_of_ne hd _ _
      · simp only [Sys.afterSend, Function.update_self, ArrayDeque.drop, List.length_drop]
        omega
      · exact (stats_update Stats.rxPackets rfl p).trans (by rw [ite_self, ite_self])
      · refine (stats_update Stats.txPackets rfl p.other).trans (congrArg _ (if_congr ?_ rfl rfl))
        cases p <;> cases pos <;> decide
  | fill w granted =>
    obtain ⟨pos, -, ⟨-, rfl⟩ | ⟨-, s, out, hs, -, rfl⟩⟩ := fwdStep_fill_inv h
    · exact hf.skip rfl (fun _ => rfl) fun _ => rfl
    · obtain ⟨rfl, -⟩ := step_fill_inv hs
      refine hf.skip rfl (fun p => ?_) fun p => ?_
      · exact (stats_update Stats.rxPackets rfl p).trans (by rw [ite_self, Nat.add_zero])
      · exact (stats_update Stats.txPackets rfl p).trans (by rw [ite_self, Nat.add_zero])
  | kernel w pos k =>
    obtain ⟨s, out, hs, rfl⟩ := fwdStep_kernel_inv h
    obtain ⟨mem, l, hi, -, rfl⟩ := step_kernel_inv hs
    exact hf

/-! ## Runs -/

theorem run_books {s₀ : FwdSys W} {area : MmapArea} {v₀ : Option W} {b : Vec (BufMmap Unit)}
    {as : List (FwdAct W)} {outs : List Unit} (hlen : afXdpReserved ≤ area.bufLen)
    (hs : s₀.Start area v₀ b) (hrun : run (fwdStep pr opt) (.start opt s₀) as = some (f, outs)) :
    f.Books opt ∧ f.Pending := by
  refine (fwdStep_invariant (I := fun s => s.area = area)
    (J := fun f => f.Books opt ∧ f.Pending) ?_ ?_ hs.area ⟨Forwarder.Books.start hs, ?_⟩ hrun).2
  · intro s a s' out harea hstep
    rw [step_area (by rw [harea]; exact hlen) hstep, harea]
  · rintro f a f' u harea ⟨hbooks, hpending⟩ hstep
    have hlen' : afXdpReserved ≤ f.sys.area.bufLen := by
      rw [harea]
      exact hlen
    exact ⟨hbooks.step hlen' hstep, hpending.step hlen' hstep⟩
  · intro w pos
    show 0 = 0 + (s₀.deques (w, pos)).list.length
    rw [hs.deques, List.length_nil]

/-- In every run, whatever the kernel and the other workers do, each link that is filled accounts
for its buffers and packets: those of the initial fill are in the fill ring, with the kernel to
receive, in the Rx ring, or to be refilled; what was received was refilled or is to be; it was sent
on the other link or is pending; and what was sent was completed or is in the Tx ring, with the
kernel, or in the completion ring. -/
theorem run_accounts {s₀ : FwdSys W} {area : MmapArea} {v₀ : Option W} {b : Vec (BufMmap Unit)}
    {as : List (FwdAct W)} {outs : List Unit} (hlen : afXdpReserved ≤ area.bufLen)
    (hs : s₀.Start area v₀ b) (hrun : run (fwdStep pr opt) (.start opt s₀) as = some (f, outs))
    (w : W) (pos : Pos) (hpc : (f.workers w).pc.filled pos = true) :
    let l := f.sys.link (w, pos)
    let wk := f.workers w
    l.fq.used + l.krx.length + l.rx.used + wk.fqDeficit pos = opt.initialFillNum ∧
      (wk.stats pos).rxPackets = wk.fqDeficit pos + (wk.stats pos).fqBufsFilled ∧
      (wk.stats pos).rxPackets =
        (wk.stats pos.other).txPackets + (f.sys.deques (w, pos)).list.length ∧
      (wk.stats pos).txPackets =
        l.tx.used + l.ktx.length + l.cq.used + (wk.stats pos).cqBufsReceived := by
  obtain ⟨hbooks, hpending⟩ := run_books hlen hs hrun
  exact ⟨(hbooks w pos).supply hpc, (hbooks w pos).deficit.symm, hpending w pos,
    (hbooks w pos).inFlight.symm⟩

theorem run_accounts_relayRun :
    ∃ f outs, run (fwdStep .release (l2fwd2link 2))
        (.start (l2fwd2link 2) (Sys.init ⟨2, 2048⟩ (some ()) (MmapArea.chunkVec 2 2048) 4))
        relayRun = some (f, outs) ∧
      (f.sys.link ((), .first)).fq.used + (f.sys.link ((), .first)).krx.length +
          (f.sys.link ((), .first)).rx.used + (f.workers ()).fqDeficit .first =
        (l2fwd2link 2).initialFillNum := by
  have hfilled : (run (fwdStep .release (l2fwd2link 2))
      (.start (l2fwd2link 2) (Sys.init ⟨2, 2048⟩ (some ()) (MmapArea.chunkVec 2 2048) 4))
      relayRun).any (fun r => (r.1.workers ()).pc.filled .first) = true := by
    decide +kernel
  obtain ⟨⟨f, outs⟩, hrun, hpc⟩ := (Option.any_eq_true _ _).1 hfilled
  exact ⟨f, outs, hrun,
    (run_accounts (by decide) (Sys.init_start _ _ _ _) hrun () .first hpc).1⟩

/-- The kernel handles one packet of a link in a step at most. -/
theorem fwdStep_handled {a : FwdAct W} {u : Unit} (hlen : afXdpReserved ≤ f.sys.area.bufLen)
    (h : fwdStep pr opt f a = some (f', u)) (i : W × Pos) :
    (f'.sys.link i).handled ≤ (f.sys.link i).handled + 1 := by
  cases a with
  | kernel w pos k =>
    obtain ⟨s, out, hs, rfl⟩ := fwdStep_kernel_inv h
    exact step_kernel_handled hs i
  | _ =>
    refine Nat.le_succ_of_le (Nat.le_of_eq (over_handled (fwdStep_over fun _ ha => ha) hlen ?_ h i))
    trivial

/-- In every run no counter exceeds the number of steps, as each packet that a worker received was
published in a step of its own. So in fewer than `2 ^ 64` steps no counter of the source wraps. -/
theorem run_stats_le {s₀ : FwdSys W} {area : MmapArea} {v₀ : Option W} {b : Vec (BufMmap Unit)}
    {as : List (FwdAct W)} {outs : List Unit} (hlen : afXdpReserved ≤ area.bufLen)
    (hs : s₀.Start area v₀ b) (hrun : run (fwdStep pr opt) (.start opt s₀) as = some (f, outs))
    (w : W) (pos : Pos) :
    ((f.workers w).stats pos).rxPackets ≤ as.length ∧ (f.workers w).fqDeficit pos ≤ as.length ∧
      ((f.workers w).stats pos).fqBufsFilled ≤ as.length ∧
      ((f.workers w).stats pos).txPackets ≤ as.length ∧
      ((f.workers w).stats pos).cqBufsReceived ≤ as.length := by
  obtain ⟨hbooks, hpending⟩ := run_books hlen hs hrun
  have hrx : ∀ pos, ((f.workers w).stats pos).rxPackets ≤ as.length := by
    intro pos
    have hhandled : (f.sys.link (w, pos)).handled ≤ (s₀.link (w, pos)).handled + as.length := by
      refine Run.run_le (fun f : Forwarder W => (f.sys.link (w, pos)).handled) (Q := fun _ => True)
        (I := fun f => f.sys.area = area) ?_ hs.area (fun _ _ => trivial) hrun
      rintro f a f' u - harea hstep
      have hlen' : afXdpReserved ≤ f.sys.area.bufLen := by rwa [harea]
      refine ⟨fwdStep_keeps (I := fun s => s.area = area) ?_ harea hstep,
        fwdStep_handled hlen' hstep _⟩
      intro s a s' out harea hs
      rw [step_area (by rwa [harea]) hs, harea]
    rw [(hs.link (w, pos)).handled] at hhandled
    have hreceived := (hbooks w pos).received_le.2
    simp only [Link.handled] at hhandled
    omega
  have hother := hpending w pos.other
  rw [Pos.other_other] at hother
  have hrxOther := hrx pos.other
  have hdeficit := (hbooks w pos).deficit
  have hflight := (hbooks w pos).inFlight
  have hown := hrx pos
  omega

/-! ## Below the threshold -/

/-- Only a refill that is due adds to what was refilled. -/
theorem fwdStep_fqBufsFilled {a : FwdAct W} {u : Unit} (h : fwdStep pr opt f a = some (f', u))
    (v : W) (p : Pos) :
    ((f'.workers v).stats p).fqBufsFilled = ((f.workers v).stats p).fqBufsFilled ∨
      fillThreshold ≤ (f.workers v).fqDeficit p := by
  have hkeep : ∀ {w s wk}, (∀ p, (wk.stats p).fqBufsFilled =
      ((f.workers w).stats p).fqBufsFilled) → (((f.set w (s, wk)).workers v).stats p).fqBufsFilled =
        ((f.workers v).stats p).fqBufsFilled := by
    intro w s wk hwk
    exact Forwarder.forall_set (f := f) (w := w) (p := (s, wk)) (P := fun v wk =>
      (wk.stats p).fqBufsFilled = ((f.workers v).stats p).fqBufsFilled) (fun _ => rfl) (hwk p) v
  have hupdate : ∀ {w q st}, st.fqBufsFilled = ((f.workers w).stats q).fqBufsFilled → ∀ p,
      (Function.update (f.workers w).stats q st p).fqBufsFilled =
        ((f.workers w).stats p).fqBufsFilled := by
    intro w q st hst p
    rcases eq_or_ne p q with rfl | hp
    · rw [Function.update_self, hst]
    · rw [Function.update_of_ne hp]
  cases a with
  | getBufs w =>
    obtain ⟨-, num, n, -, -, rfl⟩ := fwdStep_getBufs_inv h
    exact .inl (hkeep fun _ => rfl)
  | initialFill w granted =>
    obtain ⟨pos, s, out, -, -, -, rfl⟩ := fwdStep_initialFill_inv h
    exact .inl (hkeep fun _ => rfl)
  | command w cmd =>
    obtain ⟨-, rfl⟩ := fwdStep_command_inv h
    exact .inl (hkeep fun _ => rfl)
  | service w grant =>
    obtain ⟨pos, s, out, -, -, rfl⟩ := fwdStep_service_inv h
    exact .inl (hkeep (hupdate rfl))
  | tryRecv w grant =>
    obtain ⟨pos, s, out, -, -, rfl⟩ := fwdStep_tryRecv_inv h
    exact .inl (hkeep (hupdate rfl))
  | forward w granted send =>
    obtain ⟨pos, -, rfl | ⟨s, out, -, rfl⟩⟩ := fwdStep_forward_inv h
    · exact .inl (hkeep fun _ => rfl)
    · exact .inl (hkeep (hupdate rfl))
  | fill w granted =>
    obtain ⟨pos, -, ⟨-, rfl⟩ | ⟨hdue, s, out, -, -, rfl⟩⟩ := fwdStep_fill_inv h
    · exact .inl (hkeep fun _ => rfl)
    · by_cases hvp : v = w ∧ p = pos
      · obtain ⟨rfl, rfl⟩ := hvp
        exact .inr hdue
      · refine .inl ?_
        rcases eq_or_ne v w with rfl | hv
        · rw [Forwarder.set_self]
          exact congrArg _ (Function.update_of_ne (fun hp => hvp ⟨rfl, hp⟩) _ _)
        · rw [Forwarder.set_of_ne f hv]
  | kernel w pos k =>
    obtain ⟨s, out, -, rfl⟩ := fwdStep_kernel_inv h
    exact .inl rfl

/-- If the initial fill is below the threshold, then in every run no link is ever refilled, and on
each link the kernel receives no more packets than the initial fill put in, whatever is completed
in the meantime. For `l2fwd-2link` this is so with fewer than 128 buffers. -/
theorem run_starves {s₀ : FwdSys W} {area : MmapArea} {v₀ : Option W} {b : Vec (BufMmap Unit)}
    {as : List (FwdAct W)} {outs : List Unit} (hlen : afXdpReserved ≤ area.bufLen)
    (hs : s₀.Start area v₀ b) (hsmall : opt.initialFillNum < fillThreshold)
    (hrun : run (fwdStep pr opt) (.start opt s₀) as = some (f, outs)) (w : W) (pos : Pos) :
    ((f.workers w).stats pos).fqBufsFilled = 0 ∧
      ((f.workers w).stats pos).rxPackets ≤ (f.sys.link (w, pos)).rx.prod ∧
      (f.sys.link (w, pos)).rx.prod ≤ opt.initialFillNum := by
  have hinv : f.sys.area = area ∧ f.Books opt ∧
      ∀ w pos, ((f.workers w).stats pos).fqBufsFilled = 0 := by
    refine fwdStep_invariant (I := fun s => s.area = area)
      (J := fun f => f.Books opt ∧ ∀ w pos, ((f.workers w).stats pos).fqBufsFilled = 0) ?_ ?_
      hs.area ⟨Forwarder.Books.start hs, fun _ _ => rfl⟩ hrun
    · intro s a s' out harea hstep
      rw [step_area (by rw [harea]; exact hlen) hstep, harea]
    · rintro f a f' u harea ⟨hf, hnone⟩ hstep
      refine ⟨hf.step (by rw [harea]; exact hlen) hstep, ?_⟩
      intro v p
      rcases fwdStep_fqBufsFilled hstep v p with heq | hdue
      · rw [heq, hnone v p]
      · -- no deficit is that large
        obtain ⟨hle, hge⟩ := (hf v p).received_le
        have hdeficit := (hf v p).deficit
        have hzero := hnone v p
        omega
  obtain ⟨-, hbooks, hnone⟩ := hinv
  obtain ⟨hle, hge⟩ := (hbooks w pos).received_le
  rw [hnone w pos] at hle
  exact ⟨hnone w pos, hge, hle⟩

end

theorem run_starves_relayRun :
    ∃ f outs, run (fwdStep .release (l2fwd2link 2))
        (.start (l2fwd2link 2) (Sys.init ⟨2, 2048⟩ (some ()) (MmapArea.chunkVec 2 2048) 4))
        relayRun = some (f, outs) ∧
      ((f.workers ()).stats .first).fqBufsFilled = 0 ∧
      ((f.workers ()).stats .first).rxPackets ≤ (f.sys.link ((), .first)).rx.prod ∧
      (f.sys.link ((), .first)).rx.prod ≤ (l2fwd2link 2).initialFillNum := by
  obtain ⟨⟨f, outs⟩, hrun⟩ := Option.isSome_iff_exists.1 relayRun_isSome
  exact ⟨f, outs, hrun,
    run_starves (by decide) (Sys.init_start _ _ _ _) (by decide) hrun () .first⟩

/-! ## Above the threshold -/

section
variable {W : Type} [DecidableEq W] {pr : Profile} {opt : FwdOpt} {f f' : Forwarder W} {w : W}

/-- A refill that is due is not refused, and finds as many buffers as it asks for. -/
def Forwarder.covered (f : Forwarder W) : FwdAct W → Bool
  | .fill w granted =>
    match (f.workers w).pc with
    | .fill pos => (f.workers w).fqDeficit pos < fillThreshold ||
        granted && (f.workers w).fqDeficit pos ≤ (f.sys.vecs (some w)).len
    | _ => true
  | _ => true

/-- Between the calls for a link its deficit is below the threshold; a batch may come on top until
it is refilled. -/
def FwdWorker.Bounded (wk : FwdWorker) : Prop :=
  ∀ pos, wk.fqDeficit pos <
    fillThreshold + if wk.pc = .forward pos ∨ wk.pc = .fill pos then socketBatchSize else 0

/-- A worker that adds to no deficit stays bounded, if a deficit that is refilled by now is below
the threshold. -/
theorem FwdWorker.Bounded.keep {wk wk' : FwdWorker} (h : wk.Bounded)
    (hle : ∀ pos, wk'.fqDeficit pos ≤ wk.fqDeficit pos)
    (hpc : ∀ pos, wk.pc = .forward pos ∨ wk.pc = .fill pos →
      (wk'.pc = .forward pos ∨ wk'.pc = .fill pos) ∨ wk'.fqDeficit pos < fillThreshold) :
    wk'.Bounded := by
  intro pos
  have hold := h pos
  have hnew := hle pos
  by_cases hnow : wk'.pc = .forward pos ∨ wk'.pc = .fill pos
  · rw [if_pos hnow]
    split at hold <;> omega
  · rw [if_neg hnow]
    by_cases hthen : wk.pc = .forward pos ∨ wk.pc = .fill pos
    · exact (hpc pos hthen).resolve_left hnow
    · rw [if_neg hthen] at hold
      omega

/-- So does one that is not between a reception and its refill, wherever it goes. -/
theorem FwdWorker.Bounded.leave {wk : FwdWorker} (h : wk.Bounded)
    (hpc : ∀ pos, wk.pc ≠ .forward pos ∧ wk.pc ≠ .fill pos) (pc : FwdPc) (st : Pos → Stats) :
    FwdWorker.Bounded ⟨pc, wk.fqDeficit, st⟩ :=
  h.keep (fun _ => Nat.le_refl _) fun pos hpos =>
    absurd hpos (not_or.2 ⟨(hpc pos).1, (hpc pos).2⟩)

/-- With fill rings that have room for the initial fill, a covered refill leaves no deficit. -/
theorem fwdStep_bounded {a : FwdAct W} {u : Unit} (hlen : afXdpReserved ≤ f.sys.area.bufLen)
    (hsize : ∀ i, opt.initialFillNum ≤ (f.sys.link i).fq.size) (hbooks : f.Books opt)
    (hf : ∀ w, (f.workers w).Bounded) (hcovered : f.covered a = true)
    (h : fwdStep pr opt f a = some (f', u)) : ∀ v, (f'.workers v).Bounded := by
  cases a with
  | getBufs w =>
    obtain ⟨hpc, num, n, -, -, rfl⟩ := fwdStep_getBufs_inv h
    exact Forwarder.forall_set (P := fun _ => FwdWorker.Bounded) hf
      ((hf w).leave (fun _ => by simp [hpc]) _ _)
  | initialFill w granted =>
    obtain ⟨pos, s, out, hpc, -, -, rfl⟩ := fwdStep_initialFill_inv h
    exact Forwarder.forall_set (P := fun _ => FwdWorker.Bounded) hf
      ((hf w).leave (fun _ => by simp [hpc]) _ _)
  | command w cmd =>
    obtain ⟨hpc, rfl⟩ := fwdStep_command_inv h
    exact Forwarder.forall_set (P := fun _ => FwdWorker.Bounded) hf
      ((hf w).leave (fun _ => by simp [hpc]) _ _)
  | service w grant =>
    obtain ⟨pos, s, out, hpc, -, rfl⟩ := fwdStep_service_inv h
    exact Forwarder.forall_set (P := fun _ => FwdWorker.Bounded) hf
      ((hf w).leave (fun _ => by simp [hpc]) _ _)
  | tryRecv w grant =>
    obtain ⟨pos, s, out, hpc, hs, rfl⟩ := fwdStep_tryRecv_inv h
    obtain ⟨-, hret, -⟩ := step_tryRecv_inv hlen hs
    have hbatch : out.ret ≤ socketBatchSize := by
      rw [hret, recvCount, peekCount, recvRequest]
      omega
    refine Forwarder.forall_set (P := fun _ => FwdWorker.Bounded) hf ?_
    intro p
    have hold := hf w p
    rw [if_neg (by simp [hpc])] at hold
    rcases eq_or_ne p pos with rfl | hp
    · simp only [Function.update_self, true_or, if_true]
      omega
    · simp only [Function.update_of_ne hp]
      omega
  | forward w granted send =>
    obtain ⟨pos, hpc, rfl | ⟨s, out, hs, rfl⟩⟩ := fwdStep_forward_inv h
    all_goals
      refine Forwarder.forall_set (P := fun _ => FwdWorker.Bounded) hf ((hf w).keep ?_ ?_)
      · exact fun _ => Nat.le_refl _
      · intro p hp
        rw [hpc] at hp
        simp only [FwdPc.forward.injEq, reduceCtorEq, or_false] at hp
        exact .inl (.inr (congrArg _ hp))
  | fill w granted =>
    obtain ⟨pos, hpc, ⟨hbelow, rfl⟩ | ⟨hdue, s, out, hs, -, rfl⟩⟩ := fwdStep_fill_inv h
    · refine Forwarder.forall_set (P := fun _ => FwdWorker.Bounded) hf ((hf w).keep ?_ ?_)
      · exact fun _ => Nat.le_refl _
      · intro p hp
        rw [hpc] at hp
        simp only [FwdPc.fill.injEq, reduceCtorEq, false_or] at hp
        exact .inr (hp ▸ hbelow)
    · -- the refill is complete
      have hret := (step_fill_inv hs).2
      have hsupply := (hbooks w pos).supply (by rw [hpc]; rfl)
      have hroom := (f.sys.link (w, pos)).fq.used_add_free
      have hfit := hsize (w, pos)
      simp only [Forwarder.covered, hpc, Bool.or_eq_true, Bool.and_eq_true, decide_eq_true_eq]
        at hcovered
      obtain ⟨rfl, hbufs⟩ := hcovered.resolve_left (Nat.not_lt_of_le hdue)
      have hall : out.ret = (f.workers w).fqDeficit pos := by
        rw [hret, Nat.min_eq_right hbufs, grantCount_true, if_pos (by omega)]
      refine Forwarder.forall_set (P := fun _ => FwdWorker.Bounded) hf ((hf w).keep ?_ ?_)
      · intro p
        rcases eq_or_ne p pos with rfl | hp
        · simp only [Function.update_self]
          exact Nat.sub_le _ _
        · simp only [Function.update_of_ne hp]
          exact Nat.le_refl _
      · intro p hp
        rw [hpc] at hp
        simp only [FwdPc.fill.injEq, reduceCtorEq, false_or] at hp
        subst hp
        simp only [Function.update_self, hall, Nat.sub_self]
        exact .inr (by decide)
  | kernel w pos k =>
    obtain ⟨s, out, -, rfl⟩ := fwdStep_kernel_inv h
    exact hf

/-- If no refill that is due is refused or finds too few buffers, and the fill rings have room for
the initial fill, then in every run each link that is filled has the buffers of its initial fill
in its fill ring, with the kernel to receive, or in its Rx ring, up to a batch and the threshold. -/
theorem run_supply {s₀ : FwdSys W} {area : MmapArea} {v₀ : Option W} {b : Vec (BufMmap Unit)}
    {as : List (FwdAct W)} {outs : List Unit} (hlen : afXdpReserved ≤ area.bufLen)
    (hs : s₀.Start area v₀ b) (hsize : ∀ i, opt.initialFillNum ≤ (s₀.link i).fq.size)
    (hcovered : EveryStep (fwdStep pr opt) (fun f a _ _ => f.covered a = true) (.start opt s₀) as)
    (hrun : run (fwdStep pr opt) (.start opt s₀) as = some (f, outs)) (w : W) (pos : Pos)
    (hpc : (f.workers w).pc.filled pos = true) :
    opt.initialFillNum < (f.sys.link (w, pos)).fq.used + (f.sys.link (w, pos)).krx.length +
      (f.sys.link (w, pos)).rx.used + (fillThreshold + socketBatchSize) := by
  have hinv : (f.sys.area = area ∧ ∀ i, opt.initialFillNum ≤ (f.sys.link i).fq.size) ∧
      f.Books opt ∧ ∀ w, (f.workers w).Bounded := by
    refine hcovered.invariant (I := fun f =>
      (f.sys.area = area ∧ ∀ i, opt.initialFillNum ≤ (f.sys.link i).fq.size) ∧
        f.Books opt ∧ ∀ w, (f.workers w).Bounded) ?_ ?_ hrun
    · rintro f a f' u ha ⟨⟨harea, hsize⟩, hbooks, hbounded⟩ hstep
      have hlen' : afXdpReserved ≤ f.sys.area.bufLen := by
        rw [harea]
        exact hlen
      refine ⟨?_, hbooks.step hlen' hstep, fwdStep_bounded hlen' hsize hbooks hbounded ha hstep⟩
      refine fwdStep_keeps (I := fun s =>
        s.area = area ∧ ∀ i, opt.initialFillNum ≤ (s.link i).fq.size) ?_ ⟨harea, hsize⟩ hstep
      rintro s a s' out ⟨harea, hsize⟩ hs
      have hlen'' : afXdpReserved ≤ s.area.bufLen := by
        rw [harea]
        exact hlen
      refine ⟨(step_area hlen'' hs).trans harea, fun i => ?_⟩
      rw [(step_counts hlen'' hs i).2.2]
      exact hsize i
    · refine ⟨⟨hs.area, hsize⟩, Forwarder.Books.start hs, fun _ pos => ?_⟩
      show 0 < _
      exact Nat.lt_of_lt_of_le (by decide) (Nat.le_add_right fillThreshold _)
  obtain ⟨-, hbooks, hbounded⟩ := hinv
  have hsupply := (hbooks w pos).supply hpc
  have hdeficit := hbounded w pos
  split at hdeficit <;> omega

end

/-- A worker that takes 192 buffers and fills each of its links with 64 of them. -/
def supplySys (e : Fin 32) : Forwarder Unit :=
  .start ⟨64, some 192, true⟩ (Sys.init ⟨192, 2048⟩ none (MmapArea.chunkVec 192 2048) e)

/-- It receives 64 packets, sends them on and refills its first link. -/
def supplyRun : List (FwdAct Unit) :=
  [.getBufs (), .initialFill () true, .initialFill () true] ++
    (List.replicate 64 [.kernel () .first .takeFill,
      .kernel () .first (.publish 0 256 14 0)]).flatten ++
    [.command () none, .service () 0, .tryRecv () 64, .forward () true .sent, .fill () true]

theorem run_supply_supplyRun :
    ∃ f outs, run (fwdStep .release ⟨64, some 192, true⟩) (supplySys 7) supplyRun = some (f, outs) ∧
      ((f.workers ()).stats .first).fqBufsFilled = 64 ∧
      64 < (f.sys.link ((), .first)).fq.used + (f.sys.link ((), .first)).krx.length +
        (f.sys.link ((), .first)).rx.used + (fillThreshold + socketBatchSize) := by
  have hboth : (checkSteps (fwdStep .release ⟨64, some 192, true⟩) Forwarder.covered (supplySys 7)
      supplyRun && (run (fwdStep .release ⟨64, some 192, true⟩) (supplySys 7) supplyRun).any
        fun r => ((r.1.workers ()).stats .first).fqBufsFilled = 64 ∧
          (r.1.workers ()).pc.filled .first = true) = true := by
    decide +kernel
  obtain ⟨hchecked, hfilled⟩ := (Bool.and_eq_true _ _).mp hboth
  have hcovered := everyStep_of_checkSteps hchecked
  obtain ⟨⟨f, outs⟩, hrun, hend⟩ := (Option.any_eq_true _ _).1 hfilled
  obtain ⟨hrefilled, hpc⟩ := of_decide_eq_true hend
  exact ⟨f, outs, hrun, hrefilled, run_supply (by decide) (Sys.init_start _ _ _ _)
    (fun _ => show 64 ≤ 2 ^ 7 by decide) hcovered hrun () .first hpc⟩

end Afxdp
