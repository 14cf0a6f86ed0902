import Afxdp.Restock

/-!
# `dump`

What `dump` prints. For each packet that it receives it prints the Ethernet header at the start of
the buffer's slice. The slice is not cut to the length of the packet, so behind it are bytes that
are not the packet's. But it begins with the packet, and the packets come in the order in which the
kernel published them, none missing and none twice (`run_dump`).

The other two lines are about buffers. `oops` says that none is left, which is not more than that
all are with the kernel. `under filled` says that a refill was not of `FILL_THRESHOLD` buffers,
which it also says of the ones that fill more (`run_dump_lines`).
-/

namespace Afxdp

open Run (run run_invariant run_outputs)
open Mem (readAt)

/-- A packet is at the start of the slice that holds it. -/
theorem BufMmap.packet_prefix {T : Type} {b : BufMmap T} {mem : Nat → UInt8} {bytes : List UInt8}
    (h : b.packet mem = some bytes) : bytes <+: b.getData mem := by
  unfold packet at h
  split at h
  · cases h
    exact List.take_prefix _ _
  · cases h

/-- The bytes of which a line prints the header. -/
def Line.data? : Line → Option (List UInt8)
  | .ethernet data => some data
  | _ => none

/-- The bytes of which the headers were printed. -/
def printed (outs : List (List Line)) : List (List UInt8) := outs.flatten.filterMap Line.data?

theorem printed_concat (outs : List (List Line)) (out : List Line) :
    printed (outs ++ [out]) = printed outs ++ out.filterMap Line.data? := by
  rw [printed, List.flatten_append, List.flatten_singleton, List.filterMap_append, printed]

/-- What is printed of the pending packets begins with them. -/
theorem Sys.lines_data {W : Type} {s : RxSys W} {w : W} (rest : List Line)
    (hrest : rest.filterMap Line.data? = []) {packets : List (List UInt8)}
    (h : (s.deques w).list.map (BufMmap.packet · s.mem) = packets.map some) :
    List.Forall₂ (· <+: ·) packets ((s.lines w ++ rest).filterMap Line.data?) := by
  have hdata : (s.lines w).filterMap Line.data? =
      (s.deques w).list.map (BufMmap.getData · s.mem) := by
    rw [Sys.lines, List.filterMap_map]
    exact congrFun List.filterMap_eq_map' _
  rw [List.filterMap_append, hrest, List.append_nil, hdata]
  generalize (s.deques w).list = bufs at h
  induction bufs generalizing packets with
  | nil =>
      rw [List.map_nil, eq_comm, List.map_eq_nil_iff] at h
      rw [h]
      exact .nil
  | cons b bufs ih =>
      obtain ⟨bytes, packets, rfl, hb, hbufs⟩ := List.map_eq_cons_iff.1 h.symm
      exact .cons (BufMmap.packet_prefix hb.symm) (ih hbufs.symm)

section
variable {pr : Profile} {opt : RxOpt} {f f' : Receiver Unit} {area : MmapArea} {S : Finset Nat}

/-- The packets that were received are those of which a line was printed, which begins with the
packet, and those that are pending. -/
def Receiver.Shows (f : Receiver Unit) (lines : List (List UInt8)) : Prop :=
  ∃ shown, List.Forall₂ (· <+: ·) shown lines ∧ (f.sys.hist ()).pushed =
    shown.map some ++ (f.sys.deques ()).list.map (BufMmap.packet · f.sys.mem)

/-- A step keeps that. -/
theorem Receiver.Shows.step {lines : List (List UInt8)} {a : RxAct Unit} {out : List Line}
    (hlen : afXdpReserved ≤ area.bufLen) (hprints : opt.prints = true)
    (hsound : f.sys.Sound area S) (hf : f.Shows lines) (h : rxStep pr opt f a = some (f', out)) :
    f'.Shows (lines ++ out.filterMap Line.data?) := by
  have hlen' : afXdpReserved ≤ f.sys.area.bufLen := by rwa [hsound.conserved.areaEq]
  obtain ⟨shown, hshown, hpushed⟩ := hf
  have hkeep : ∀ {g : Receiver Unit}, (g.sys.hist ()).pushed = (f.sys.hist ()).pushed →
      (g.sys.deques ()).list.map (BufMmap.packet · g.sys.mem) =
        (f.sys.deques ()).list.map (BufMmap.packet · f.sys.mem) → g.Shows lines := by
    intro g hhist hpackets
    exact ⟨shown, hshown, by rw [hhist, hpackets, hpushed]⟩
  cases a with
  | getBufs w =>
    obtain ⟨-, rfl, num, n, -, -, rfl⟩ := rxStep_getBufs_inv h
    rw [List.filterMap_nil, List.append_nil]
    exact hkeep rfl rfl
  | initialFill w granted =>
    obtain ⟨-, rfl, s, o, hs, -, rfl⟩ := rxStep_initialFill_inv h
    obtain ⟨rfl, -⟩ := step_fill_inv hs
    rw [List.filterMap_nil, List.append_nil]
    exact hkeep rfl rfl
  | command w cmd =>
    obtain ⟨-, rfl, rfl⟩ := rxStep_command_inv h
    rw [List.filterMap_nil, List.append_nil]
    exact hkeep rfl rfl
  | tryRecv w grant =>
    obtain ⟨-, rfl, s, o, hs, rfl⟩ := rxStep_tryRecv_inv h
    obtain ⟨rfl, hret, -⟩ := step_tryRecv_inv hlen' hs
    cases w
    obtain ⟨hused, hroom⟩ := recvCount_le f.sys () () opt.batchSize grant
    rw [← hret] at hused hroom
    have hblen : (f.sys.recvBufs () () o.ret).length = o.ret := by
      rw [recvBufs_length, Nat.min_eq_left hused]
    obtain ⟨hlist, -⟩ := (f.sys.deques ()).pushAll_eq (f.sys.recvBufs () () o.ret) (by rwa [hblen])
    rw [List.filterMap_nil, List.append_nil]
    refine ⟨shown, hshown, ?_⟩
    show ((f.sys.afterRecv () () () o.ret).hist ()).pushed = _ ++
      ((f.sys.afterRecv () () () o.ret).deques ()).list.map (BufMmap.packet · f.sys.mem)
    simp only [Sys.afterRecv, Function.update_self]
    rw [hlist, hpushed, List.map_append, List.append_assoc]
  | drain w =>
    obtain ⟨-, hout, rfl⟩ := rxStep_drain_inv h
    rw [hprints, if_pos rfl] at hout
    have hpackets : ∃ packets : List (List UInt8),
        (f.sys.deques w).list.map (BufMmap.packet · f.sys.mem) = packets.map some := by
      refine ⟨(f.sys.deques w).list.map fun b => readAt f.sys.mem b.addr b.len.toNat, ?_⟩
      rw [List.map_map]
      exact List.map_congr_left fun b hb =>
        (hsound.framed.held (.deque w) b hb).packet_eq f.sys.mem
    obtain ⟨packets, hpackets⟩ := hpackets
    refine ⟨shown ++ packets, List.rel_append hshown ?_, ?_⟩
    · rw [hout]
      refine Sys.lines_data _ ?_ hpackets
      split <;> rfl
    · show (f.sys.hist ()).pushed = _ ++ ((f.sys.drained w).deques ()).list.map _
      rw [Sys.drained_list, List.map_nil, List.append_nil, List.map_append, hpushed, hpackets]
  | fill w granted =>
    obtain ⟨-, ⟨-, rfl, rfl⟩ | ⟨-, s, o, hs, -, hout, rfl⟩⟩ := rxStep_fill_inv h
    · rw [List.filterMap_nil, List.append_nil]
      exact hkeep rfl rfl
    · obtain ⟨rfl, -⟩ := step_fill_inv hs
      have hnone : out.filterMap Line.data? = [] := by
        rw [hout]
        split <;> rfl
      rw [hnone, List.append_nil]
      exact hkeep rfl rfl
  | kernel w k =>
    obtain ⟨rfl, s, o, hs, rfl⟩ := rxStep_kernel_inv h
    have hpackets : ∀ b ∈ (f.sys.deques ()).list, b.packet s.mem = b.packet f.sys.mem :=
      fun b hb => step_kernel_packet hsound.framed hsound.conserved hs (c := .deque ()) hb
    obtain ⟨mem, l, hi, hk, rfl⟩ := step_kernel_inv hs
    rw [List.filterMap_nil, List.append_nil]
    refine hkeep ?_ (List.map_congr_left hpackets)
    show (Function.update f.sys.hist w hi ()).pushed = _
    rw [Function.update_self, (kernelStep_hist hk).2]

/-! ## Runs -/

/-- Take any run of `dump`, in either build, over an area that `new` made, interleaved in any way
with the kernel, which publishes packets at offsets up to `AF_XDP_RESERVED`, with lengths that are
`AF_XDP_RESERVED` less than those of the chunks at most. The packets that the kernel published are,
in this order and byte for byte, the ones at the beginning of the slices whose headers were printed,
one for each line, then those that are pending, and those in the Rx ring. -/
theorem run_dump {p : Profile} {mmap : Nat → Nat → Bool} {bufNum bufLen batchSize : Nat}
    {options : MmapAreaOptions} {area : MmapArea} {b : Vec (BufMmap Unit)} {s₀ : RxSys Unit}
    {v₀ : Option Unit} {as : List (RxAct Unit)} {outs : List (List Line)}
    (hlen : afXdpReserved < bufLen) (hsize : bufNum * bufLen < 2 ^ 64)
    (hnew : MmapArea.new p mmap bufNum bufLen options = .ok (.ok (area, b)))
    (hs : s₀.Start area v₀ b)
    (hlaw : ∀ w j o len opts, .kernel w (.publish j o len opts) ∈ as →
      o ≤ afXdpReserved ∧ len + afXdpReserved ≤ bufLen)
    (hrun : run (rxStep pr (dump bufNum batchSize)) (.start (dump bufNum batchSize) s₀) as =
      some (f, outs)) :
    ∃ shown, List.Forall₂ (· <+: ·) shown (printed outs) ∧
      (f.sys.hist ()).published.map some = shown.map some ++
        (f.sys.deques ()).list.map (BufMmap.packet · f.sys.mem) ++
        (f.sys.link ()).rx.entries.map fun e => some (readAt f.sys.mem e.addr e.len) := by
  obtain ⟨rfl, rfl⟩ := MmapArea.new_inv hsize (Nat.le_of_lt hlen) hnew
  have hshows₀ : (Receiver.start (dump bufNum batchSize) s₀).Shows (printed []) := by
    refine ⟨[], .nil, ?_⟩
    show (s₀.hist ()).pushed = [] ++ (s₀.deques ()).list.map _
    rw [hs.hist, hs.deques]
    rfl
  obtain ⟨S, hsound₀⟩ : ∃ S, s₀.Sound ⟨bufNum, bufLen⟩ S := ⟨_, Sys.Sound.start hlen hs⟩
  have hkept : f.sys.Sound ⟨bufNum, bufLen⟩ S ∧ f.Shows (printed outs) := by
    refine run_outputs (Q := RxAct.Allowed (Act.Lawful ⟨bufNum, bufLen⟩ 0))
      (I := fun f outs => f.sys.Sound ⟨bufNum, bufLen⟩ S ∧ f.Shows (printed outs)) ?_
      ⟨hsound₀, hshows₀⟩ (RxAct.lawful_of_publish hlaw) hrun
    rintro f outs a f' out ha ⟨hsound, hshows⟩ hstep
    refine ⟨(rxStep_over fun _ => Act.lawful_of_ne_kernel).step_invariant
      (fun _ _ _ _ ha hi hs => hi.step hlen ha hs) ha hsound hstep, ?_⟩
    rw [printed_concat]
    exact hshows.step (Nat.le_of_lt hlen) rfl hsound hstep
  obtain ⟨hsound, shown, hshown, hpushed⟩ := hkept
  refine ⟨shown, hshown, ?_⟩
  rw [(hsound.carries ()).recv, hpushed]

theorem run_dump_dumpRun :
    ∃ f outs, run (rxStep .release (dump 65 64)) (.start (dump 65 64) (dumpSys 7)) dumpRun =
        some (f, outs) ∧
      ∃ shown, List.Forall₂ (· <+: ·) shown (printed outs) ∧
        (f.sys.hist ()).published.map some = shown.map some ++
          (f.sys.deques ()).list.map (BufMmap.packet · f.sys.mem) ++
          (f.sys.link ()).rx.entries.map fun e => some (readAt f.sys.mem e.addr e.len) := by
  obtain ⟨f, outs, hrun, -⟩ := dumpRun_some
  exact ⟨f, outs, hrun, run_dump (by decide) (by decide) dumpSys_new (Sys.init_start _ _ _ _)
    (fun _ _ _ _ _ => dumpRun_publish) hrun⟩

/-- Take any run of `dump`, in either build, over an area that `new` made. In a round it prints
`oops` exactly if the initial fill took all buffers and nothing is to be refilled: then all are with
the kernel. And it prints `under filled` exactly if a refill is due that is not one of
`FILL_THRESHOLD` buffers. As there are always enough buffers, that is one of more, in which nothing
is missing, or one that was refused. -/
theorem run_dump_lines {p : Profile} {mmap : Nat → Nat → Bool} {bufNum bufLen batchSize : Nat}
    {options : MmapAreaOptions} {area : MmapArea} {b : Vec (BufMmap Unit)} {s₀ : RxSys Unit}
    {as : List (RxAct Unit)} {outs : List (List Line)} (hlen : afXdpReserved ≤ bufLen)
    (hsize : bufNum * bufLen < 2 ^ 64)
    (hnew : MmapArea.new p mmap bufNum bufLen options = .ok (.ok (area, b)))
    (hs : s₀.Start area (some ()) b)
    (hfit : ∀ w, (dump bufNum batchSize).initialFillNum ≤ (s₀.link w).fq.size)
    (hrun : run (rxStep pr (dump bufNum batchSize)) (.start (dump bufNum batchSize) s₀) as =
      some (f, outs)) :
    let deficit := (f.workers ()).fqDeficit
    (∀ f' out, rxStep pr (dump bufNum batchSize) f (.drain ()) = some (f', out) →
      (.oops ∈ out ↔ bufNum ≤ xskRingProdDefaultNumDescs ∧ deficit = 0)) ∧
    ∀ granted f' out n,
      rxStep pr (dump bufNum batchSize) f (.fill () granted) = some (f', out) →
      (.underFilled n ∈ out ↔ fillThreshold ≤ deficit ∧ n = (if granted then deficit else 0) ∧
        n ≠ fillThreshold) := by
  obtain ⟨rfl, rfl⟩ := MmapArea.new_inv hsize hlen hnew
  have hf := run_stocked hlen hs hfit hrun
  have hbase : (s₀.vecs (some ())).len = bufNum := by
    rw [hs.vec]
    simp [MmapArea.chunkVec, Vec.len]
  obtain ⟨-, hheld⟩ := hf.accounts ()
  simp only [hbase] at hheld
  have hgot := hheld.fresh (.inr rfl)
  have hprints : (dump bufNum batchSize).prints = true := rfl
  refine ⟨fun f' out h => ?_, fun granted f' out n h => ?_⟩
  · obtain ⟨hpc, hout, -⟩ := rxStep_drain_inv h
    have htotal := hheld.total
    simp only [RxWorker.initial, hpc, RxPc.filled, if_true] at htotal
    have hinitial : (dump bufNum batchSize).initialFillNum =
        min xskRingProdDefaultNumDescs bufNum := rfl
    have hempty : ((f.sys.drained ()).vecs (some ())).len = 0 ↔
        bufNum ≤ xskRingProdDefaultNumDescs ∧ (f.workers ()).fqDeficit = 0 := by
      rw [Sys.drained_len]
      omega
    have hlines : Line.oops ∉ f.sys.lines () := by simp [Sys.lines]
    rw [← hempty, hout, if_pos hprints, List.mem_append]
    split
    · next hnone => simp [hlines, hnone]
    · next hsome => simp [hlines, hsome]
  · obtain ⟨hpc, ⟨hbelow, rfl, -⟩ | ⟨hdue, s, o, hs, -, hout, -⟩⟩ := rxStep_fill_inv h
    · simp only [List.not_mem_nil, false_iff]
      omega
    · rw [hout, hf.refill_ret hpc hs]
      generalize (if granted then (f.workers ()).fqDeficit else 0) = ret
      by_cases hret : ret = fillThreshold
      · simp only [hprints, hret, bne_self_eq_false, Bool.and_false, Bool.false_eq_true, if_false,
          List.not_mem_nil, false_iff]
        rintro ⟨-, rfl, hne⟩
        exact hne rfl
      · simp only [hprints, bne_iff_ne.2 hret, Bool.and_self, if_true, List.mem_singleton,
          Line.underFilled.injEq]
        constructor
        · rintro rfl
          exact ⟨hdue, rfl, hret⟩
        · exact fun h => h.2.1

/-- Both lines are printed: `oops` where nothing was received yet, and `under filled` by a refill of
65 buffers, which is complete. -/
theorem run_dump_lines_dumpRun :
    (∃ f outs f' out, run (rxStep .release (dump 65 64)) (.start (dump 65 64) (dumpSys 7))
        [.initialFill () true, .tryRecv () 0] = some (f, outs) ∧
      rxStep .release (dump 65 64) f (.drain ()) = some (f', out) ∧ .oops ∈ out) ∧
    ∃ f outs f' out, run (rxStep .release (dump 65 64)) (.start (dump 65 64) (dumpSys 7)) dumpRun =
        some (f, outs) ∧
      rxStep .release (dump 65 64) f (.fill () true) = some (f', out) ∧ .underFilled 65 ∈ out := by
  constructor
  · have hdrain : (run (rxStep .release (dump 65 64)) (.start (dump 65 64) (dumpSys 7))
        [.initialFill () true, .tryRecv () 0]).any (fun r => (r.1.workers ()).fqDeficit = 0 ∧
          (rxStep .release (dump 65 64) r.1 (.drain ())).isSome) = true := by
      decide +kernel
    obtain ⟨⟨f, outs⟩, hrun, hnext⟩ := (Option.any_eq_true _ _).1 hdrain
    obtain ⟨hdeficit, hstep⟩ := of_decide_eq_true hnext
    obtain ⟨⟨f', out⟩, hstep⟩ := Option.isSome_iff_exists.1 hstep
    exact ⟨f, outs, f', out, hrun, hstep, ((run_dump_lines (by decide) (by decide) dumpSys_new
      (Sys.init_start _ _ _ _) dumpSys_fits hrun).1 f' out hstep).2 ⟨by decide, hdeficit⟩⟩
  · have hfill : (run (rxStep .release (dump 65 64)) (.start (dump 65 64) (dumpSys 7)) dumpRun).any
        (fun r => (r.1.workers ()).fqDeficit = 65 ∧
          (rxStep .release (dump 65 64) r.1 (.fill () true)).isSome) = true := by
      decide +kernel
    obtain ⟨⟨f, outs⟩, hrun, hnext⟩ := (Option.any_eq_true _ _).1 hfill
    obtain ⟨hdeficit, hstep⟩ := of_decide_eq_true hnext
    have hdeficit : (f.workers ()).fqDeficit = 65 := hdeficit
    obtain ⟨⟨f', out⟩, hstep⟩ := Option.isSome_iff_exists.1 hstep
    refine ⟨f, outs, f', out, hrun, hstep, ((run_dump_lines (by decide) (by decide) dumpSys_new
      (Sys.init_start _ _ _ _) dumpSys_fits hrun).2 true f' out 65 hstep).2 ?_⟩
    rw [hdeficit]
    decide

end

end Afxdp
