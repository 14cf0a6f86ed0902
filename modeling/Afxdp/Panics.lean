import Afxdp.Isolation
import Afxdp.Relay

/-!
# Where the forwarders panic

The workers of a forwarder panic where a call returns an error, where an initial fill is incomplete,
and where Rust does. In a reachable state most of that cannot happen: a buffer that is received fits
the deque, the length of its packet fits a `u16`, and no deficit underflows. What is left is an
initial fill that is refused or finds too few buffers, a `sendto` that the ring asks for and that
fails with an error that is not accepted (`Forwarder.PanicsOn`), and in a debug build a ring index
that overflows (`Forwarder.Overflows`). There, and only there, a worker does not get on
(`run_panics_iff`).
-/

namespace Afxdp

open Run (run)

section
variable {W : Type}

/-- The call is the one that the worker makes next. -/
def Forwarder.Due (f : Forwarder W) : FwdAct W → Prop
  | .getBufs w => (f.workers w).pc = .getBufs
  | .initialFill w _ => ∃ pos, (f.workers w).pc = .initialFill pos
  | .command w _ => (f.workers w).pc = .command
  | .service w _ => ∃ pos, (f.workers w).pc = .service pos
  | .tryRecv w _ => ∃ pos, (f.workers w).pc = .tryRecv pos
  | .forward w _ _ => ∃ pos, (f.workers w).pc = .forward pos
  | .fill w _ => ∃ pos, (f.workers w).pc = .fill pos
  | .kernel _ _ _ => False

/-- The call of the crate that a worker makes next, unless it makes none. -/
def Forwarder.call (opt : FwdOpt) (f : Forwarder W) :
    FwdAct W → Option (Act (W × Pos) (Option W) (W × Pos) Unit)
  | .initialFill w granted =>
    match (f.workers w).pc with
    | .initialFill pos => some (.fill (w, pos) (some w) opt.initialFillNum granted)
    | _ => none
  | .service w grant =>
    match (f.workers w).pc with
    | .service pos => some (.service (w, pos) (some w) serviceBatchSize grant)
    | _ => none
  | .tryRecv w grant =>
    match (f.workers w).pc with
    | .tryRecv pos => some (.tryRecv (w, pos) (w, pos) socketBatchSize () grant)
    | _ => none
  | .forward w granted send =>
    match (f.workers w).pc with
    | .forward pos =>
      if (f.sys.deques (w, pos)).list = [] then none
      else some (.trySend (w, pos.other) (w, pos) socketBatchSize granted send)
    | _ => none
  | .fill w granted =>
    match (f.workers w).pc with
    | .fill pos =>
      if (f.workers w).fqDeficit pos ≥ fillThreshold then
        some (.fill (w, pos) (some w) ((f.workers w).fqDeficit pos) granted)
      else none
    | _ => none
  | _ => none

/-- The ring index of the call overflows. -/
def Forwarder.Overflows (pr : Profile) (opt : FwdOpt) (f : Forwarder W) (a : FwdAct W) : Prop :=
  ∃ c, f.call opt a = some c ∧ c.Overflows pr f.sys

/-- What a worker panics on in either build. -/
def Forwarder.PanicsOn (opt : FwdOpt) (f : Forwarder W) : FwdAct W → Prop
  | .initialFill w granted => (f.sys.vecs (some w)).len < opt.initialFillNum ∨
      0 < opt.initialFillNum ∧ granted = false
  | .forward w _ send => ∃ pos, (f.workers w).pc = .forward pos ∧
      (f.sys.deques (w, pos)).list ≠ [] ∧ (f.sys.link (w, pos.other)).wake = true ∧ ¬send.Accepted
  | _ => False

/-- Before the initial fill of a link nothing is in its fill ring. -/
theorem FwdWorker.Books.fq_used {opt : FwdOpt} {wk : FwdWorker} {pos : Pos} {l : Link}
    (h : wk.Books opt pos l) (hpc : wk.pc.filled pos = false) : l.fq.used = 0 := by
  have hfill := h.count .fill
  have hrecv := h.count .recv
  have hdeficit := h.deficit
  have hbal := h.balanced.rx
  have hrx := l.rx.cons_le
  simp only [Link.count, initial, hpc, Bool.false_eq_true, if_false, Stats.count] at hfill hrecv
  simp only [Spsc.RingBuf.used]
  omega

variable [DecidableEq W] {pr : Profile} {opt : FwdOpt} {f : Forwarder W} {area : MmapArea}

/-- What is needed of a state for the calls of the workers to return. -/
structure Forwarder.Sane (opt : FwdOpt) (area : MmapArea) (f : Forwarder W) : Prop where
  framed : f.sys.Framed area 0
  books : f.Books opt
  size : ∀ i, opt.initialFillNum ≤ (f.sys.link i).fq.size
  pool : ∀ w, (f.workers w).pc = .getBufs → opt.startBufs.isSome = true

/-- Without an overflow the worker of a debug build does what the one of a release build does. -/
theorem fwdStep_of_not_overflows {a : FwdAct W} (hlen : afXdpReserved ≤ f.sys.area.bufLen)
    (hinc : ¬f.Overflows pr opt a) : fwdStep pr opt f a = fwdStep .release opt f a := by
  have hstep : ∀ c, f.call opt a = some c → stepIn pr f.sys c = step f.sys c :=
    fun c hc => stepIn_of_not_overflows hlen fun hover => hinc ⟨c, hc, hover⟩
  cases a with
  | getBufs w =>
    have hget : ∀ num, BufPoolVec.get pr ⟨f.sys.vecs none⟩ (f.sys.vecs (some w)) num =
        BufPoolVec.get .release ⟨f.sys.vecs none⟩ (f.sys.vecs (some w)) num := fun num =>
      (BufPoolVec.get_of (BufPoolVec.moveTail_eq pr _ _ num)).trans
        (BufPoolVec.get_of (BufPoolVec.moveTail_eq .release _ _ num)).symm
    simp only [fwdStep, hget]
  | initialFill w granted =>
    simp only [fwdStep]
    split
    · next pos hpc =>
        rw [hstep _ (by simp only [Forwarder.call, hpc])]
        rfl
    · rfl
  | command w cmd => rfl
  | service w grant =>
    simp only [fwdStep]
    split
    · next pos hpc =>
        rw [hstep _ (by simp only [Forwarder.call, hpc])]
        rfl
    · rfl
  | tryRecv w grant =>
    simp only [fwdStep]
    split
    · next pos hpc =>
        rw [hstep _ (by simp only [Forwarder.call, hpc])]
        rfl
    · rfl
  | forward w granted send =>
    simp only [fwdStep]
    split
    · next pos hpc =>
        split
        · rfl
        · next hsome =>
            rw [hstep _ (by simp only [Forwarder.call, hpc, if_neg hsome])]
            rfl
    · rfl
  | fill w granted =>
    simp only [fwdStep]
    split
    · next pos hpc =>
        split
        · next hdue =>
            have hle := (grantCount_le (f.sys.link (w, pos)).fq granted
              (min (f.sys.vecs (some w)).len ((f.workers w).fqDeficit pos))).1
            have hret := Nat.le_trans hle (Nat.min_le_right _ _)
            obtain ⟨tr, hfill⟩ :=
              step_fill f.sys (w, pos) (some w) ((f.workers w).fqDeficit pos) granted
            rw [hstep _ (by simp only [Forwarder.call, hpc, if_pos hdue]), stepIn_release, hfill,
              Option.bind_some, Option.bind_some, pr.sub64_ok hret,
              Profile.release.sub64_ok hret]
        · rfl
    · rfl
  | kernel w pos k => rfl

/-- The worker of a debug build panics where its ring index overflows. -/
theorem fwdStep_of_overflows {a : FwdAct W} (hlen : afXdpReserved ≤ f.sys.area.bufLen)
    (hover : f.Overflows pr opt a) : fwdStep pr opt f a = none := by
  obtain ⟨c, hc, hover⟩ := hover
  have hnone := stepIn_of_overflows hlen hover
  cases a with
  | initialFill w granted =>
    simp only [Forwarder.call] at hc
    split at hc
    · next pos hpc =>
        cases hc
        simp only [fwdStep, hpc, hnone, Option.bind_none]
    · cases hc
  | service w grant =>
    simp only [Forwarder.call] at hc
    split at hc
    · next pos hpc =>
        cases hc
        simp only [fwdStep, hpc, hnone, Option.map_none]
    · cases hc
  | tryRecv w grant =>
    simp only [Forwarder.call] at hc
    split at hc
    · next pos hpc =>
        cases hc
        simp only [fwdStep, hpc, hnone, Option.map_none]
    · cases hc
  | forward w granted send =>
    simp only [Forwarder.call] at hc
    split at hc
    · next pos hpc =>
        split at hc
        · cases hc
        · next hsome =>
            cases hc
            simp only [fwdStep, hpc, if_neg hsome, hnone, Option.map_none]
    · cases hc
  | fill w granted =>
    simp only [Forwarder.call] at hc
    split at hc
    · next pos hpc =>
        split at hc
        · next hdue =>
            cases hc
            simp only [fwdStep, hpc, if_pos hdue, hnone, Option.bind_none]
        · cases hc
    · cases hc
  | _ => cases hc

/-- In such a state a call that is due panics on what is listed and on nothing else, in a release
build. -/
theorem Forwarder.Sane.release_panics_iff (hf : f.Sane opt area)
    (hlen : afXdpReserved ≤ area.bufLen) (hfit : area.bufLen < 2 ^ 16 + afXdpReserved)
    {a : FwdAct W} (hdue : f.Due a) : fwdStep .release opt f a = none ↔ f.PanicsOn opt a := by
  have harea := hf.framed.areaEq
  have hlen' : afXdpReserved ≤ f.sys.area.bufLen := by rwa [harea]
  cases a with
  | getBufs w =>
    obtain ⟨num, hnum⟩ := Option.isSome_iff_exists.1 (hf.pool w hdue)
    have hmove := BufPoolVec.moveTail_eq .release (f.sys.vecs none) (f.sys.vecs (some w)) num
    have hget : BufPoolVec.get .release ⟨f.sys.vecs none⟩ (f.sys.vecs (some w)) num = _ :=
      BufPoolVec.get_of hmove
    refine iff_of_false ?_ id
    have hpc : (f.workers w).pc = .getBufs := hdue
    simp only [fwdStep, hpc, hnum, hget, reduceCtorEq, not_false_eq_true]
  | initialFill w granted =>
    obtain ⟨pos, hpc⟩ := hdue
    obtain ⟨tr, hfill⟩ := step_fill f.sys (w, pos) (some w) opt.initialFillNum granted
    have hused := (hf.books w pos).fq_used (by rw [hpc, FwdPc.initialFill_filled])
    have hroom := (f.sys.link (w, pos)).fq.used_add_free
    have hsize := hf.size (w, pos)
    simp only [fwdStep, hpc, stepIn_release, hfill, Option.bind_some, ite_eq_right_iff,
      reduceCtorEq, imp_false, PanicsOn]
    cases granted with
    | false =>
      simp only [grantCount, Bool.false_and, Bool.false_eq_true, if_false, and_true]
      omega
    | true =>
      rw [grantCount_true, if_pos (by omega)]
      simp only [reduceCtorEq, and_false, or_false]
      omega
  | command w cmd =>
    have hpc : (f.workers w).pc = .command := hdue
    refine iff_of_false ?_ id
    simp only [fwdStep, hpc, if_true, reduceCtorEq, not_false_eq_true]
  | service w grant =>
    obtain ⟨pos, hpc⟩ := hdue
    obtain ⟨tr, hservice⟩ := step_service f.sys (w, pos) (some w) serviceBatchSize grant hlen'
    refine iff_of_false ?_ id
    simp only [fwdStep, hpc, stepIn_release, hservice, Option.map_some, reduceCtorEq,
      not_false_eq_true]
  | tryRecv w grant =>
    obtain ⟨pos, hpc⟩ := hdue
    -- a packet leaves room for the reserved bytes
    have hdesc : ∀ e ∈ (f.sys.link (w, pos)).rx.entries.take
        (recvCount f.sys (w, pos) (w, pos) socketBatchSize grant), e.len < 2 ^ 16 := by
      intro e he
      have hfits := ((hf.framed.link (w, pos)).rx e (List.mem_of_mem_take he)).fits
      omega
    obtain ⟨tr, hrecv⟩ := step_tryRecv f.sys (w, pos) (w, pos) socketBatchSize () grant hlen' hdesc
    refine iff_of_false ?_ id
    simp only [fwdStep, hpc, stepIn_release, hrecv, Option.map_some, reduceCtorEq,
      not_false_eq_true]
  | forward w granted send =>
    obtain ⟨pos, hpc⟩ := hdue
    by_cases hnone : (f.sys.deques (w, pos)).list = []
    · refine iff_of_false ?_ ?_
      · simp only [fwdStep, hpc, hnone, if_true, reduceCtorEq, not_false_eq_true]
      · rintro ⟨p, hp, hne, -⟩
        obtain rfl : pos = p := FwdPc.forward.inj (hpc.symm.trans hp)
        exact hne hnone
    · have hsome : min (f.sys.deques (w, pos)).len socketBatchSize ≠ 0 := by
        have hpos := List.length_pos_iff.2 hnone
        simp only [ArrayDeque.len, socketBatchSize]
        omega
      by_cases hbad : (f.sys.link (w, pos.other)).wake = true ∧ ¬send.Accepted
      · refine iff_of_true ?_ ⟨pos, hpc, hnone, hbad⟩
        have hstep := step_trySend_none f.sys (w, pos.other) (w, pos) socketBatchSize granted send
          hsome hbad.1 hbad.2
        simp only [fwdStep, hpc, hnone, if_false, stepIn_release, hstep, Option.map_none]
      · obtain ⟨tr, hstep, -⟩ := step_trySend f.sys (w, pos.other) (w, pos) socketBatchSize granted
          send fun _ hwake => not_not.1 fun h => hbad ⟨hwake, h⟩
        refine iff_of_false ?_ ?_
        · simp only [fwdStep, hpc, hnone, if_false, stepIn_release, hstep, Option.map_some,
            reduceCtorEq, not_false_eq_true]
        · rintro ⟨p, hp, -, h⟩
          obtain rfl : pos = p := FwdPc.forward.inj (hpc.symm.trans hp)
          exact hbad h
  | fill w granted =>
    obtain ⟨pos, hpc⟩ := hdue
    obtain ⟨tr, hfill⟩ := step_fill f.sys (w, pos) (some w) ((f.workers w).fqDeficit pos) granted
    have hle := (grantCount_le (f.sys.link (w, pos)).fq granted
      (min (f.sys.vecs (some w)).len ((f.workers w).fqDeficit pos))).1
    refine iff_of_false ?_ id
    simp only [fwdStep, hpc]
    split
    · rw [stepIn_release, hfill, Option.bind_some]
      simp only [Profile.release.sub64_ok (Nat.le_trans hle (Nat.min_le_right _ _)), reduceCtorEq,
        not_false_eq_true]
    · simp
  | kernel w pos k => exact hdue.elim

/-- In a debug build it panics on an overflow as well. -/
theorem Forwarder.Sane.panics_iff (hf : f.Sane opt area) (hlen : afXdpReserved ≤ area.bufLen)
    (hfit : area.bufLen < 2 ^ 16 + afXdpReserved) {a : FwdAct W} (hdue : f.Due a) :
    fwdStep pr opt f a = none ↔ f.PanicsOn opt a ∨ f.Overflows pr opt a := by
  have hlen' : afXdpReserved ≤ f.sys.area.bufLen := by rwa [hf.framed.areaEq]
  by_cases hover : f.Overflows pr opt a
  · simp only [fwdStep_of_overflows hlen' hover, hover, or_true]
  · rw [fwdStep_of_not_overflows hlen' hover, hf.release_panics_iff hlen hfit hdue]
    simp only [hover, or_false]

/-! ## Runs -/

/-- Every reachable state is one. -/
theorem run_sane {bufNum bufLen : Nat} {s₀ : FwdSys W} {v₀ : Option W} {as : List (FwdAct W)}
    {outs : List Unit} (hlen : afXdpReserved < bufLen)
    (hs : s₀.Start ⟨bufNum, bufLen⟩ v₀ (MmapArea.chunkVec bufNum bufLen))
    (hsize : ∀ i, opt.initialFillNum ≤ (s₀.link i).fq.size)
    (hlaw : ∀ w pos j o len opts, .kernel w pos (.publish j o len opts) ∈ as →
      o ≤ afXdpReserved ∧ len + afXdpReserved ≤ bufLen)
    (hrun : run (fwdStep pr opt) (.start opt s₀) as = some (f, outs)) :
    f.Sane opt ⟨bufNum, bufLen⟩ := by
  have hlen' := Nat.le_of_lt hlen
  have hstart := Sys.Framed.start hlen (Nat.zero_le _) (List.Subperm.refl _) hs
  have hpool : ∀ w : W, ((Forwarder.start opt s₀).workers w).pc = .getBufs →
      opt.startBufs.isSome = true := by
    intro w hpc
    have hpc' : opt.worker.pc = .getBufs := hpc
    rw [FwdOpt.worker] at hpc'
    split at hpc'
    · assumption
    · cases hpc'
  have hallowed : ∀ a ∈ as, a.Allowed (Act.Lawful ⟨bufNum, bufLen⟩ 0) :=
    FwdAct.lawful_of_publish hlaw
  have hkept : (f.sys.Framed ⟨bufNum, bufLen⟩ 0 ∧
      ∀ i, opt.initialFillNum ≤ (f.sys.link i).fq.size) ∧ f.Books opt ∧
        ∀ w, (f.workers w).pc = .getBufs → opt.startBufs.isSome = true := by
    refine (fwdStep_over fun _ => Act.lawful_of_ne_kernel).invariant_and
      (I := fun s => s.Framed ⟨bufNum, bufLen⟩ 0 ∧ ∀ i, opt.initialFillNum ≤ (s.link i).fq.size)
      (J := fun f => f.Books opt ∧
        ∀ w, (f.workers w).pc = .getBufs → opt.startBufs.isSome = true)
      ?_ ?_ ⟨hstart, hsize⟩ ⟨Forwarder.Books.start hs, hpool⟩ hallowed hrun
    · rintro s a s' out ha ⟨hframed, hsize⟩ hstep
      refine ⟨hframed.step hlen' ha hstep, fun i => ?_⟩
      rw [(step_counts (by rw [hframed.areaEq]; exact hlen') hstep i).2.2]
      exact hsize i
    · rintro f a f' u - ⟨hframed, -⟩ ⟨hbooks, hpool⟩ hstep
      refine ⟨hbooks.step (by rw [hframed.areaEq]; exact hlen') hstep, fun w hpc => ?_⟩
      by_cases ha : a = .getBufs w
      · rw [ha] at hstep
        exact hpool w (fwdStep_getBufs_inv hstep).1
      · exact hpool w ((fwdStep_waiting hstep ha).1 hpc)
  obtain ⟨⟨hframed, hsize⟩, hbooks, hpool⟩ := hkept
  exact ⟨hframed, hbooks, hsize, hpool⟩

/-- Take any run of the workers of a forwarder, in either build, over an area that `new` made, with
chunks whose packets have lengths that fit a `u16`, with fill rings that have room for the initial
fill, and with a kernel that publishes packets at offsets up to `AF_XDP_RESERVED`, with lengths that
are `AF_XDP_RESERVED` less than those of the chunks at most. In every state that it reaches the next
call of a worker panics if and only if it is an initial fill that is refused or finds too few
buffers, or a `forward` with something pending whose `sendto` is asked for and fails with an error
that is not accepted, or a call of a debug build whose ring index overflows. -/
theorem run_panics_iff {p : Profile} {mmap : Nat → Nat → Bool} {bufNum bufLen : Nat}
    {options : MmapAreaOptions} {area : MmapArea} {b : Vec (BufMmap Unit)} {s₀ : FwdSys W}
    {v₀ : Option W} {as : List (FwdAct W)} {outs : List Unit} (hlen : afXdpReserved < bufLen)
    (hfit : bufLen < 2 ^ 16 + afXdpReserved) (hnum : bufNum * bufLen < 2 ^ 64)
    (hnew : MmapArea.new p mmap bufNum bufLen options = .ok (.ok (area, b)))
    (hs : s₀.Start area v₀ b) (hsize : ∀ i, opt.initialFillNum ≤ (s₀.link i).fq.size)
    (hlaw : ∀ w pos j o len opts, .kernel w pos (.publish j o len opts) ∈ as →
      o ≤ afXdpReserved ∧ len + afXdpReserved ≤ bufLen)
    (hrun : run (fwdStep pr opt) (.start opt s₀) as = some (f, outs)) {a : FwdAct W}
    (hdue : f.Due a) :
    fwdStep pr opt f a = none ↔ f.PanicsOn opt a ∨ f.Overflows pr opt a := by
  obtain ⟨rfl, rfl⟩ := MmapArea.new_inv hnum (Nat.le_of_lt hlen) hnew
  exact (run_sane hlen hs hsize hlaw hrun).panics_iff (Nat.le_of_lt hlen) hfit hdue

end

/-- A packet is pending, and the other link asks for a wakeup. -/
def wakeRun : List (FwdAct Unit) := relayRun.take 7 ++ [.kernel () .second (.setWake true)]

theorem run_panics_iff_wakeRun :
    ∃ f outs, run (fwdStep .release (l2fwd2link 2))
        (.start (l2fwd2link 2) (Sys.init ⟨2, 2048⟩ (some ()) (MmapArea.chunkVec 2 2048) 4))
        wakeRun = some (f, outs) ∧
      (fwdStep .release (l2fwd2link 2) f (.forward () true (.failed (.other 1))) = none ↔
        f.PanicsOn (l2fwd2link 2) (.forward () true (.failed (.other 1))) ∨
          f.Overflows .release (l2fwd2link 2) (.forward () true (.failed (.other 1)))) := by
  have hnew : MmapArea.new (T := Unit) .release (fun _ _ => true) 2 2048 {} =
      .ok (.ok (⟨2, 2048⟩, MmapArea.chunkVec 2 2048)) :=
    MmapArea.new_ok (by decide) (by decide) rfl
  have hpc : (run (fwdStep .release (l2fwd2link 2))
      (.start (l2fwd2link 2) (Sys.init ⟨2, 2048⟩ (some ()) (MmapArea.chunkVec 2 2048) 4))
      wakeRun).any (fun r => (r.1.workers ()).pc = .forward .first) = true := by
    decide +kernel
  obtain ⟨⟨f, outs⟩, hrun, hpc⟩ := (Option.any_eq_true _ _).1 hpc
  refine ⟨f, outs, hrun, run_panics_iff (by decide) (by decide) (by decide) hnew
    (Sys.init_start _ _ _ _) (fun i => ?_) ?_ hrun ⟨.first, of_decide_eq_true hpc⟩⟩
  · show (l2fwd2link 2).initialFillNum ≤ 2 ^ 4
    decide
  · intro w pos j o len opts hmem
    simp [wakeRun, relayRun] at hmem
    obtain ⟨-, -, rfl, rfl, -⟩ := hmem
    decide

end Afxdp
