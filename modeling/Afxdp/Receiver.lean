import Afxdp.L2fwd
import Afxdp.Refill

/-!
# The receivers

`dump` and the workers of `rxdrop` only receive: what they received they put back into their
buffers, and refill by as much once it is at least `FILL_THRESHOLD`. `dump` has all buffers of the
area to itself, prints each packet before that, and complains if no buffer is left. A worker of
`rxdrop` takes its buffers from a shared pool and looks for a command in each round (`RxOpt`). A
state is the data path of all workers over one area, and for each worker where it is, how many
buffers it got from the pool, its fill deficit and its statistics (`Receiver`). A step is one call
of a worker, in the order of its loop, or one thing the kernel does, with the lines that `dump`
prints in it. `rxStep` has no successor where a worker panics.

A worker puts its packets back one by one (`leads_drain`), and every other step is like one of a
forwarder, so the receivers are programs over the data path (`rxStep_over`).

The `poll` of an idle receive socket and what is printed outside the loop are left out. What a
worker pops from its command queue is open here.
-/

namespace Afxdp

open Run (run Leads)

/-! ## Programs -/

/-- What the two programs differ in. -/
structure RxOpt where
  /-- `initial_fill_num`, or `fill_size`. -/
  initialFillNum : Nat
  /-- How many buffers a worker takes from the shared pool, if there is one. -/
  startBufs : Option Nat
  /-- Whether a worker looks for commands. -/
  commands : Bool
  batchSize : Nat
  /-- Whether the loop prints. -/
  prints : Bool

/-- `dump`, with the options `bufnum` and `batch_size`. -/
def dump (bufnum batchSize : Nat) : RxOpt :=
  ⟨min xskRingProdDefaultNumDescs bufnum, none, false, batchSize, true⟩

/-- `rxdrop`, with `START_BUFS` buffers for a worker. -/
def rxdrop : RxOpt := ⟨ringSize, some 8192, true, socketBatchSize, false⟩

/-! ## States -/

/-- Where a worker is: before the first calls, before one of the calls of its loop, or out of it. -/
inductive RxPc
  | getBufs
  | initialFill
  | command
  | tryRecv
  /-- Before it puts what it received back into its buffers. -/
  | drain
  | fill
  | exited
deriving DecidableEq, Repr

/-- A worker. -/
structure RxWorker where
  pc : RxPc
  /-- How many buffers it got from the pool. -/
  got : Nat
  fqDeficit : Nat
  stats : Stats

/-- The data path of the workers `W`, with a link and a deque for each. A vector is the one of a
worker or the shared pool, `none`. -/
abbrev RxSys (W : Type) := Sys W (Option W) W Unit

/-- The workers over one area. -/
structure Receiver (W : Type) where
  sys : RxSys W
  workers : W → RxWorker

/-- Where the loop begins. -/
def RxOpt.loopHead (opt : RxOpt) : RxPc := if opt.commands then .command else .tryRecv

/-- A worker that has not made a call. -/
def RxOpt.worker (opt : RxOpt) : RxWorker where
  pc := if opt.startBufs.isSome then .getBufs else .initialFill
  got := 0
  fqDeficit := 0
  stats := {}

/-- The workers before their first calls. -/
def Receiver.start {W : Type} (opt : RxOpt) (s : RxSys W) : Receiver W := ⟨s, fun _ => opt.worker⟩

/-- A line that `dump` prints. -/
inductive Line
  /-- The Ethernet header at the start of these bytes. -/
  | ethernet (data : List UInt8)
  | oops
  | underFilled (got : Nat)
deriving DecidableEq, Repr

/-! ## Steps -/

/-- A call of a worker, with what libbpf and the kernel decide in it, or a step of the kernel. -/
inductive RxAct (W : Type)
  | getBufs (w : W)
  | initialFill (w : W) (granted : Bool)
  /-- Look for a command; `cmd` is what was popped. -/
  | command (w : W) (cmd : Option Command)
  | tryRecv (w : W) (grant : Nat)
  | drain (w : W)
  | fill (w : W) (granted : Bool)
  | kernel (w : W) (k : KAct)
deriving DecidableEq

section
variable {W : Type} [DecidableEq W]

/-- The state in which the data path and a worker are replaced. -/
def Receiver.set (f : Receiver W) (w : W) (s : RxSys W) (wk : RxWorker) : Receiver W :=
  ⟨s, Function.update f.workers w wk⟩

@[simp] theorem Receiver.set_self (f : Receiver W) (w : W) (s : RxSys W) (wk : RxWorker) :
    (f.set w s wk).workers w = wk := Function.update_self _ _ _

theorem Receiver.set_of_ne (f : Receiver W) {w v : W} (h : v ≠ w) (s : RxSys W) (wk : RxWorker) :
    (f.set w s wk).workers v = f.workers v := Function.update_of_ne h _ _

/-- What holds of a worker's replacement and of every worker holds of every worker afterwards. -/
theorem Receiver.forall_set {f : Receiver W} {w : W} {s : RxSys W} {wk : RxWorker}
    {P : RxWorker → Prop} (h : ∀ v, P (f.workers v)) (hw : P wk) (v : W) :
    P ((f.set w s wk).workers v) := by
  rcases eq_or_ne v w with rfl | hv
  · rwa [set_self]
  · rw [set_of_ne f hv]
    exact h v

/-- The data path after a worker put everything in its deque into its buffers. -/
def Sys.drained (s : RxSys W) (w : W) : RxSys W :=
  { s with
    vecs := Function.update s.vecs (some w) ((s.vecs (some w)).pushAll (s.deques w).list)
    deques := Function.update s.deques w ((s.deques w).drop (s.deques w).len) }

theorem Sys.drained_len (s : RxSys W) (w : W) : ((s.drained w).vecs (some w)).len =
    (s.vecs (some w)).len + (s.deques w).len := by
  simp only [drained, Function.update_self, Vec.len, Vec.pushAll_list, List.length_append,
    ArrayDeque.len]

theorem Sys.drained_list (s : RxSys W) (w : W) : ((s.drained w).deques w).list = [] := by
  simp only [drained, Function.update_self, ArrayDeque.drop, ArrayDeque.len, List.drop_length]

/-- What is printed of the packets in the deque of a worker. -/
def Sys.lines (s : RxSys W) (w : W) : List Line :=
  (s.deques w).list.map fun b => .ethernet (b.getData s.mem)

/-- One step of a worker or of the kernel, in a build. -/
def rxStep (pr : Profile) (opt : RxOpt) (f : Receiver W) : RxAct W → Option (Receiver W × List Line)
  | .getBufs w =>
    let wk := f.workers w
    match wk.pc, opt.startBufs with
    | .getBufs, some num =>
      match BufPoolVec.get pr ⟨f.sys.vecs none⟩ (f.sys.vecs (some w)) num with
      | .ok (got, pool, bufs) =>
        let vecs := Function.update (Function.update f.sys.vecs none pool.bufs) (some w) bufs
        some (f.set w { f.sys with vecs } { wk with pc := .initialFill, got }, [])
      | .error _ => none
    | _, _ => none
  | .initialFill w granted =>
    let wk := f.workers w
    if wk.pc = .initialFill then
      (stepIn pr f.sys (.fill w (some w) opt.initialFillNum granted)).bind fun r =>
        -- the worker panics if the fill is incomplete
        if r.2.ret = opt.initialFillNum then
          some (f.set w r.1 { wk with pc := opt.loopHead }, [])
        else none
    else none
  | .command w cmd =>
    let wk := f.workers w
    if wk.pc = .command then
      let pc := match cmd with
        | some .exit => .exited
        | some .getStats | none => .tryRecv
      some (f.set w f.sys { wk with pc }, [])
    else none
  | .tryRecv w grant =>
    let wk := f.workers w
    if wk.pc = .tryRecv then
      (stepIn pr f.sys (.tryRecv w w opt.batchSize () grant)).map fun r =>
        -- nothing is added if nothing was received
        (f.set w r.1 { wk with
          pc := .drain
          fqDeficit := wk.fqDeficit + r.2.ret
          stats := { wk.stats with rxPackets := wk.stats.rxPackets + r.2.ret } }, [])
    else none
  | .drain w =>
    let wk := f.workers w
    if wk.pc = .drain then
      let s := f.sys.drained w
      let lines := f.sys.lines w ++ if (s.vecs (some w)).len = 0 then [.oops] else []
      some (f.set w s { wk with pc := .fill }, if opt.prints then lines else [])
    else none
  | .fill w granted =>
    let wk := f.workers w
    if wk.pc = .fill then
      if wk.fqDeficit ≥ fillThreshold then
        (stepIn pr f.sys (.fill w (some w) wk.fqDeficit granted)).bind fun r =>
          let n := r.2.ret
          match pr.sub64 wk.fqDeficit n with
          | .ok fqDeficit =>
            some (f.set w r.1 { wk with
              pc := opt.loopHead
              fqDeficit
              stats := { wk.stats with fqBufsFilled := wk.stats.fqBufsFilled + n } },
              if opt.prints && n != fillThreshold then [.underFilled n] else [])
          | .error _ => none
      else some (f.set w f.sys { wk with pc := opt.loopHead }, [])
    else none
  | .kernel w k => (stepIn pr f.sys (.kernel w k)).map fun r => ({ f with sys := r.1 }, [])

/-! ## What a step did -/

section
variable {pr : Profile} {opt : RxOpt} {f f' : Receiver W} {w : W} {out : List Line}

/-- The last buffers of the pool, in their order, are the last ones of the worker. -/
theorem rxStep_getBufs_inv (h : rxStep pr opt f (.getBufs w) = some (f', out)) :
    (f.workers w).pc = .getBufs ∧ out = [] ∧ ∃ num n, opt.startBufs = some num ∧
      n = min num (f.sys.vecs none).len ∧
      f' = f.set w
        { f.sys with
          vecs := Function.update
            (Function.update f.sys.vecs none ((f.sys.vecs none).dropLast n)) (some w)
            ((f.sys.vecs (some w)).pushAll (BufPoolVec.tail (f.sys.vecs none) n)) }
        { f.workers w with pc := .initialFill, got := n } := by
  simp only [rxStep] at h
  split at h
  · next num hpc hnum =>
      have hmove := BufPoolVec.moveTail_eq pr (f.sys.vecs none) (f.sys.vecs (some w)) num
      have hget : BufPoolVec.get pr ⟨f.sys.vecs none⟩ (f.sys.vecs (some w)) num = _ :=
        BufPoolVec.get_of hmove
      rw [hget] at h
      cases h
      exact ⟨hpc, rfl, num, _, hnum, rfl, rfl⟩
  · cases h

theorem rxStep_initialFill_inv {granted : Bool}
    (h : rxStep pr opt f (.initialFill w granted) = some (f', out)) :
    (f.workers w).pc = .initialFill ∧ out = [] ∧ ∃ s o,
      step f.sys (.fill w (some w) opt.initialFillNum granted) = some (s, o) ∧
      o.ret = opt.initialFillNum ∧ f' = f.set w s { f.workers w with pc := opt.loopHead } := by
  simp only [rxStep] at h
  split at h
  · next hpc =>
      obtain ⟨⟨s, o⟩, hs, h⟩ := Option.bind_eq_some_iff.1 h
      split at h
      · next hret =>
          cases h
          exact ⟨hpc, rfl, s, o, stepIn_some hs, hret, rfl⟩
      · cases h
  · cases h

/-- A worker that looks for a command leaves the loop on `Exit` only. -/
theorem rxStep_command_inv {cmd : Option Command}
    (h : rxStep pr opt f (.command w cmd) = some (f', out)) :
    (f.workers w).pc = .command ∧ out = [] ∧
      f' = f.set w f.sys { f.workers w with
        pc := if cmd = some .exit then .exited else .tryRecv } := by
  simp only [rxStep] at h
  split at h
  · next hpc =>
      cases h
      refine ⟨hpc, rfl, ?_⟩
      cases cmd with
      | none => rfl
      | some cmd => cases cmd <;> rfl
  · cases h

theorem rxStep_tryRecv_inv {grant : Nat} (h : rxStep pr opt f (.tryRecv w grant) = some (f', out)) :
    (f.workers w).pc = .tryRecv ∧ out = [] ∧ ∃ s o,
      step f.sys (.tryRecv w w opt.batchSize () grant) = some (s, o) ∧
      f' = f.set w s { f.workers w with
        pc := .drain
        fqDeficit := (f.workers w).fqDeficit + o.ret
        stats := { (f.workers w).stats with
          rxPackets := (f.workers w).stats.rxPackets + o.ret } } := by
  simp only [rxStep] at h
  split at h
  · next hpc =>
      obtain ⟨⟨s, o⟩, hs, h⟩ := Option.map_eq_some_iff.1 h
      cases h
      exact ⟨hpc, rfl, s, o, stepIn_some hs, rfl⟩
  · cases h

theorem rxStep_drain_inv (h : rxStep pr opt f (.drain w) = some (f', out)) :
    (f.workers w).pc = .drain ∧
      (out = if opt.prints then f.sys.lines w ++
        if ((f.sys.drained w).vecs (some w)).len = 0 then [.oops] else [] else []) ∧
      f' = f.set w (f.sys.drained w) { f.workers w with pc := .fill } := by
  simp only [rxStep] at h
  split at h
  · next hpc =>
      cases h
      exact ⟨hpc, rfl, rfl⟩
  · cases h

/-- Below the threshold nothing is filled, and the subtraction from the deficit does not
underflow. -/
theorem rxStep_fill_inv {granted : Bool} (h : rxStep pr opt f (.fill w granted) = some (f', out)) :
    (f.workers w).pc = .fill ∧
      ((f.workers w).fqDeficit < fillThreshold ∧ out = [] ∧
          f' = f.set w f.sys { f.workers w with pc := opt.loopHead } ∨
        fillThreshold ≤ (f.workers w).fqDeficit ∧ ∃ s o,
          step f.sys (.fill w (some w) (f.workers w).fqDeficit granted) = some (s, o) ∧
          o.ret ≤ (f.workers w).fqDeficit ∧
          (out = if opt.prints && o.ret != fillThreshold then [.underFilled o.ret] else []) ∧
          f' = f.set w s { f.workers w with
            pc := opt.loopHead
            fqDeficit := (f.workers w).fqDeficit - o.ret
            stats := { (f.workers w).stats with
              fqBufsFilled := (f.workers w).stats.fqBufsFilled + o.ret } }) := by
  simp only [rxStep] at h
  split at h
  · next hpc =>
      refine ⟨hpc, ?_⟩
      split at h
      · next hdeficit =>
          obtain ⟨⟨s, o⟩, hs, h⟩ := Option.bind_eq_some_iff.1 h
          have hs := stepIn_some hs
          have hret := (step_fill_inv hs).2
          have hle := (grantCount_le (f.sys.link w).fq granted
            (min (f.sys.vecs (some w)).len (f.workers w).fqDeficit)).1
          have hout : o.ret ≤ (f.workers w).fqDeficit := by omega
          rw [pr.sub64_ok hout] at h
          cases h
          exact .inr ⟨hdeficit, s, o, hs, hout, rfl, rfl⟩
      · next hdeficit =>
          cases h
          exact .inl ⟨Nat.lt_of_not_le hdeficit, rfl, rfl⟩
  · cases h

theorem rxStep_kernel_inv {k : KAct} (h : rxStep pr opt f (.kernel w k) = some (f', out)) :
    out = [] ∧ ∃ s o, step f.sys (.kernel w k) = some (s, o) ∧ f' = { f with sys := s } := by
  simp only [rxStep] at h
  obtain ⟨⟨s, o⟩, hs, h⟩ := Option.map_eq_some_iff.1 h
  cases h
  exact ⟨rfl, s, o, stepIn_some hs, rfl⟩

end

/-! ## The data path under a receiver -/

section
variable {ι ν δ T : Type} [DecidableEq ι] [DecidableEq ν] [DecidableEq δ] [Inhabited T]
  {s : Sys ι ν δ T}

/-- The buffers of a deque can be moved one by one to the end of a vector. -/
theorem leads_drain (d : δ) (v : ν) :
    ∃ as : List (Act ι ν δ T), (∀ a ∈ as, ∃ k, a = .move (.deque d) 0 (.vec v) k 0) ∧
      Leads step s as { s with
        vecs := Function.update s.vecs v ((s.vecs v).pushAll (s.deques d).list)
        deques := Function.update s.deques d ((s.deques d).drop (s.deques d).len) } := by
  generalize hl : (s.deques d).list = l
  induction l generalizing s with
  | nil =>
      refine ⟨[], fun a ha => absurd ha List.not_mem_nil, ?_⟩
      have hlen : (s.deques d).len = 0 := by rw [ArrayDeque.len, hl, List.length_nil]
      rw [Vec.pushAll_nil, hlen, ArrayDeque.drop_zero, Function.update_eq_self,
        Function.update_eq_self]
      exact .nil s
  | cons x l ih =>
      have hfirst := step_move_front (v := v) (s := s) (d := d) (x := x) (by rw [hl]; rfl)
      obtain ⟨s₁, hs₁⟩ : ∃ s₁ : Sys ι ν δ T, s₁ = { s with
        vecs := Function.update s.vecs v ((s.vecs v).push x)
        deques := Function.update s.deques d (s.deques d).popFront.2 } := ⟨_, rfl⟩
      have hdeque : s₁.deques d = (s.deques d).popFront.2 := by
        rw [hs₁]
        exact Function.update_self _ _ _
      have hl₁ : (s₁.deques d).list = l := by
        rw [hdeque]
        exact congrArg List.tail hl
      obtain ⟨as, has, hlead⟩ := ih hl₁
      refine ⟨.move (.deque d) 0 (.vec v) (s.vecs v).len 0 :: as, ?_, ?_⟩
      · intro a ha
        rcases List.mem_cons.1 ha with rfl | ha
        · exact ⟨_, rfl⟩
        · exact has a ha
      · rw [← hs₁] at hfirst
        have hdrop : (s₁.deques d).drop (s₁.deques d).len =
            (s.deques d).drop (s.deques d).len := by
          refine ArrayDeque.ext ?_ (by rw [hdeque]; rfl)
          simp only [ArrayDeque.drop, ArrayDeque.len, List.drop_length]
        rw [hdrop] at hlead
        have hend : ({ s₁ with
            vecs := Function.update s₁.vecs v ((s₁.vecs v).pushAll l)
            deques := Function.update s₁.deques d ((s.deques d).drop (s.deques d).len) } :
              Sys ι ν δ T) = { s with
            vecs := Function.update s.vecs v ((s.vecs v).pushAll (x :: l))
            deques := Function.update s.deques d ((s.deques d).drop (s.deques d).len) } := by
          rw [hs₁]
          simp only [Function.update_self, Function.update_idem, Vec.pushAll, List.foldl_cons]
        rw [← hend]
        exact .cons hfirst hlead

end

section
variable {pr : Profile} {opt : RxOpt} {Q : Act W (Option W) W Unit → Prop}

/-- A step in which the kernel does nothing but what `Q` allows. -/
def RxAct.Allowed (Q : Act W (Option W) W Unit → Prop) : RxAct W → Prop
  | .kernel w k => Q (.kernel w k)
  | _ => True

/-- The receivers are programs over the data path. -/
theorem rxStep_over (hQ : ∀ a, (∀ i k, a ≠ .kernel i k) → Q a) :
    Program.Over step (rxStep pr opt) Receiver.sys Q (RxAct.Allowed Q) := by
  have hnone : ∀ {s : RxSys W}, ∃ as, (∀ a ∈ as, Q a) ∧ Leads step s as s :=
    ⟨[], fun a ha => absurd ha List.not_mem_nil, .nil _⟩
  have hone : ∀ {s s' : RxSys W} {a o}, step s a = some (s', o) → Q a →
      ∃ as, (∀ a ∈ as, Q a) ∧ Leads step s as s' := by
    intro s s' a o h ha
    refine ⟨[a], fun b hb => ?_, .single h⟩
    rwa [List.mem_singleton.1 hb]
  intro f p f' out hp h
  cases p with
  | getBufs w =>
    obtain ⟨-, -, num, n, -, hmin, rfl⟩ := rxStep_getBufs_inv h
    have hn : n ≤ (f.sys.vecs none).len := hmin ▸ Nat.min_le_right _ _
    have hlist := (BufPoolVec.dropLast_append_tail (f.sys.vecs none) n).symm
    obtain ⟨as, has, hlead⟩ := leads_moveTail (s := f.sys) (Option.some_ne_none w) hlist
    rw [BufPoolVec.tail_length hn] at hlead
    refine ⟨as, fun a ha => ?_, hlead⟩
    obtain ⟨j, k, rfl⟩ := has a ha
    exact hQ _ (by simp)
  | initialFill w granted =>
    obtain ⟨-, -, s, o, hs, -, rfl⟩ := rxStep_initialFill_inv h
    exact hone hs (hQ _ (by simp))
  | command w cmd =>
    obtain ⟨-, -, rfl⟩ := rxStep_command_inv h
    exact hnone
  | tryRecv w grant =>
    obtain ⟨-, -, s, o, hs, rfl⟩ := rxStep_tryRecv_inv h
    exact hone hs (hQ _ (by simp))
  | drain w =>
    obtain ⟨-, -, rfl⟩ := rxStep_drain_inv h
    obtain ⟨as, has, hlead⟩ := leads_drain (s := f.sys) w (some w)
    refine ⟨as, fun a ha => ?_, hlead⟩
    obtain ⟨k, rfl⟩ := has a ha
    exact hQ _ (by simp)
  | fill w granted =>
    obtain ⟨-, ⟨-, -, rfl⟩ | ⟨-, s, o, hs, -, -, rfl⟩⟩ := rxStep_fill_inv h
    · exact hnone
    · exact hone hs (hQ _ (by simp))
  | kernel w k =>
    obtain ⟨-, s, o, hs, rfl⟩ := rxStep_kernel_inv h
    exact hone hs hp

/-- So what every step of the data path keeps is kept by every step of a receiver. -/
theorem rxStep_keeps {I : RxSys W → Prop}
    (hI : ∀ s a s' o, I s → step s a = some (s', o) → I s') {f f' : Receiver W} {a : RxAct W}
    {out : List Line} (hf : I f.sys) (h : rxStep pr opt f a = some (f', out)) : I f'.sys := by
  refine (rxStep_over (Q := fun _ => True) fun _ _ => trivial).step_invariant
    (fun s a s' o _ => hI s a s' o) ?_ hf h
  cases a <;> trivial

end

end

/-- The data path of `dump` before the first call, with 65 buffers. -/
def dumpSys (e : Fin 32) : RxSys Unit :=
  Sys.init ⟨65, 2048⟩ (some ()) (MmapArea.chunkVec 65 2048) e

/-- `dump` receives one packet, which is too few for a refill, and then 64 more. -/
def dumpRun : List (RxAct Unit) :=
  .initialFill () true ::
    (List.replicate 65 [.kernel () .takeFill, .kernel () (.write 0 256 7),
      .kernel () (.publish 0 256 1 0)]).flatten ++
    [.tryRecv () 1, .drain (), .fill () true, .tryRecv () 64, .drain ()]

theorem dumpSys_new : MmapArea.new (T := Unit) .release (fun _ _ => true) 65 2048 {} =
    .ok (.ok (⟨65, 2048⟩, MmapArea.chunkVec 65 2048)) :=
  MmapArea.new_ok (by decide) (by decide) rfl

theorem dumpSys_fits (w : Unit) :
    (dump 65 64).initialFillNum ≤ ((dumpSys 7).link w).fq.size := by
  show (dump 65 64).initialFillNum ≤ 2 ^ 7
  decide

theorem dumpRun_publish {w : Unit} {j o len opts : Nat}
    (h : .kernel w (.publish j o len opts) ∈ dumpRun) :
    o ≤ afXdpReserved ∧ len + afXdpReserved ≤ 2048 := by
  rw [dumpRun, List.cons_append, List.mem_cons, List.mem_append, List.mem_flatten] at h
  obtain h | ⟨l, hl, h⟩ | h := h
  · cases h
  · rw [List.eq_of_mem_replicate hl] at h
    simp at h
    obtain ⟨-, rfl, rfl, -⟩ := h
    decide
  · simp at h

/-- Now a refill is due. -/
theorem dumpRun_some : ∃ f outs, run (rxStep .release (dump 65 64))
    (.start (dump 65 64) (dumpSys 7)) dumpRun = some (f, outs) ∧ (f.workers ()).pc = .fill ∧
      (f.workers ()).fqDeficit = 65 := by
  have hfill : (run (rxStep .release (dump 65 64)) (.start (dump 65 64) (dumpSys 7)) dumpRun).any
      (fun r => (r.1.workers ()).pc = .fill ∧ (r.1.workers ()).fqDeficit = 65) = true := by
    decide +kernel
  obtain ⟨⟨f, outs⟩, hrun, hdue⟩ := (Option.any_eq_true _ _).1 hfill
  exact ⟨f, outs, hrun, of_decide_eq_true hdue⟩

end Afxdp
