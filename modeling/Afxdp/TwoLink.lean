import Afxdp.BufPool
import Afxdp.Environment
import Afxdp.Lib.Program
import Afxdp.Profiles

/-!
# The forwarders over two links

`l2fwd-2link` and the workers of `l2fwd-2link-multicore` send what they receive on one of their two
links out of the other one. They share the body of their loop, which is made for one link after the
other, and differ in where the buffers come from, in the size of the initial fill, and in that a
worker looks for commands (`FwdOpt`). A state is the data path of all workers over one area, and for
each worker where it is, its fill deficits and its statistics (`Forwarder`). A step is one call of a
worker, in the order of its loop, or one thing the kernel does. `fwdStep` has no successor where a
worker panics, and a worker that panics stops.

A worker that takes its buffers from the pool moves them one by one (`leads_moveTail`), and every
other step is a step of the data path or changes nothing of it, so the forwarders are programs over
the data path (`fwdStep_over`).

The `poll` of an idle receive socket and the printing are left out: they change nothing of this
state. What a worker pops from its command queue is open here.
-/

namespace Afxdp

open Run (run Leads)

/-! ## Programs -/

/-- An index of the arrays of a worker's two links. -/
inductive Pos
  | first
  | second
deriving DecidableEq, Repr

/-- `(pos + 1) % 2`. -/
def Pos.other : Pos → Pos
  | .first => .second
  | .second => .first

@[simp] theorem Pos.other_other (pos : Pos) : pos.other.other = pos := by
  cases pos <;> rfl

theorem Pos.other_ne (pos : Pos) : pos.other ≠ pos := by
  cases pos <;> decide

/-- `RING_SIZE`. -/
def ringSize : Nat := 2048

/-- `SOCKET_BATCH_SIZE`. -/
def socketBatchSize : Nat := 64

/-- `SERVICE_BATCH_SIZE`. -/
def serviceBatchSize : Nat := 64

/-- `FILL_THRESHOLD`. -/
def fillThreshold : Nat := 64

/-- What the two programs differ in. -/
structure FwdOpt where
  /-- `initial_fill_num`. -/
  initialFillNum : Nat
  /-- How many buffers a worker takes from the shared pool, if there is one. -/
  startBufs : Option Nat
  /-- Whether a worker looks for commands. -/
  commands : Bool

/-- `l2fwd-2link`, which has `bufnum` buffers. -/
def l2fwd2link (bufnum : Nat) : FwdOpt := ⟨min (bufnum / 2) ringSize, none, false⟩

/-- `l2fwd-2link-multicore`, with `START_BUFS` buffers for a worker. -/
def l2fwd2linkMulticore : FwdOpt := ⟨ringSize, some 8192, true⟩

/-- `Command`. -/
inductive Command
  | exit
  | getStats
deriving DecidableEq, Repr

/-! ## States -/

/-- `Stats`. The counters of the source are `usize`s, which these do not exceed in fewer than
`2 ^ 64` steps (`run_stats_le`, `run_rx_stats_le`). -/
structure Stats where
  cqBufsReceived : Nat := 0
  fqBufsFilled : Nat := 0
  rxPackets : Nat := 0
  txPackets : Nat := 0
deriving DecidableEq, Repr

/-- Where a worker is: before the first calls, before one of the calls of its loop, or out of it. -/
inductive FwdPc
  | getBufs
  | initialFill (pos : Pos)
  | command
  | service (pos : Pos)
  | tryRecv (pos : Pos)
  | forward (pos : Pos)
  | fill (pos : Pos)
  | exited
deriving DecidableEq, Repr

/-- A worker. -/
structure FwdWorker where
  pc : FwdPc
  fqDeficit : Pos → Nat
  stats : Pos → Stats

/-- The data path of the workers `W`. The links, and the deques of pending packets, belong to a
worker each; a vector is the one of a worker or the shared pool, `none`. -/
abbrev FwdSys (W : Type) := Sys (W × Pos) (Option W) (W × Pos) Unit

/-- The workers over one area. -/
structure Forwarder (W : Type) where
  sys : FwdSys W
  workers : W → FwdWorker

/-- Where the loop begins. -/
def FwdOpt.loopHead (opt : FwdOpt) : FwdPc := if opt.commands then .command else .service .first

/-- Where a worker is after the calls for a link. -/
def FwdOpt.nextLink (opt : FwdOpt) : Pos → FwdPc
  | .first => .service .second
  | .second => opt.loopHead

/-- Where a worker is after the initial fill of a link. -/
def FwdOpt.nextFill (opt : FwdOpt) : Pos → FwdPc
  | .first => .initialFill .second
  | .second => opt.loopHead

/-- A worker that has not made a call. -/
def FwdOpt.worker (opt : FwdOpt) : FwdWorker where
  pc := if opt.startBufs.isSome then .getBufs else .initialFill .first
  fqDeficit _ := 0
  stats _ := {}

/-- The workers before their first calls. -/
def Forwarder.start {W : Type} (opt : FwdOpt) (s : FwdSys W) : Forwarder W :=
  ⟨s, fun _ => opt.worker⟩

/-! ## Steps -/

/-- A call of a worker, with what libbpf and the kernel decide in it, or a step of the kernel. -/
inductive FwdAct (W : Type)
  | getBufs (w : W)
  | initialFill (w : W) (granted : Bool)
  /-- Look for a command; `cmd` is what was popped. -/
  | command (w : W) (cmd : Option Command)
  | service (w : W) (grant : Nat)
  | tryRecv (w : W) (grant : Nat)
  | forward (w : W) (granted : Bool) (send : Sendto)
  | fill (w : W) (granted : Bool)
  | kernel (w : W) (pos : Pos) (k : KAct)
deriving DecidableEq

section
variable {W : Type} [DecidableEq W]

/-- The state in which the data path and a worker are replaced. -/
def Forwarder.set (f : Forwarder W) (w : W) (p : FwdSys W × FwdWorker) : Forwarder W :=
  ⟨p.1, Function.update f.workers w p.2⟩

theorem Forwarder.set_self (f : Forwarder W) (w : W) (p : FwdSys W × FwdWorker) :
    (f.set w p).workers w = p.2 := Function.update_self _ _ _

theorem Forwarder.set_of_ne (f : Forwarder W) {w v : W} (h : v ≠ w) (p : FwdSys W × FwdWorker) :
    (f.set w p).workers v = f.workers v := Function.update_of_ne h _ _

/-- What holds of a worker's replacement and of every worker holds of every worker afterwards. -/
theorem Forwarder.forall_set {f : Forwarder W} {w : W} {p : FwdSys W × FwdWorker}
    {P : W → FwdWorker → Prop} (h : ∀ v, P v (f.workers v)) (hp : P w p.2) (v : W) :
    P v ((f.set w p).workers v) := by
  rcases eq_or_ne v w with rfl | hv
  · rw [set_self]
    exact hp
  · rw [set_of_ne f hv]
    exact h v

/-- One step of a worker or of the kernel, in a build. -/
def fwdStep (pr : Profile) (opt : FwdOpt) (f : Forwarder W) : FwdAct W → Option (Forwarder W × Unit)
  | .getBufs w =>
    let wk := f.workers w
    match wk.pc, opt.startBufs with
    | .getBufs, some num =>
      match BufPoolVec.get pr ⟨f.sys.vecs none⟩ (f.sys.vecs (some w)) num with
      | .ok (_, pool, bufs) =>
        let vecs := Function.update (Function.update f.sys.vecs none pool.bufs) (some w) bufs
        some (f.set w ({ f.sys with vecs }, { wk with pc := .initialFill .first }), ())
      | .error _ => none
    | _, _ => none
  | .initialFill w granted =>
    let wk := f.workers w
    match wk.pc with
    | .initialFill pos =>
      (stepIn pr f.sys (.fill (w, pos) (some w) opt.initialFillNum granted)).bind fun r =>
        -- the worker panics if the fill is incomplete
        if r.2.ret = opt.initialFillNum then
          some (f.set w (r.1, { wk with pc := opt.nextFill pos }), ())
        else none
    | _ => none
  | .command w cmd =>
    let wk := f.workers w
    if wk.pc = .command then
      let pc := match cmd with
        | some .exit => .exited
        | some .getStats | none => .service .first
      some (f.set w (f.sys, { wk with pc }), ())
    else none
  | .service w grant =>
    let wk := f.workers w
    match wk.pc with
    | .service pos =>
      (stepIn pr f.sys (.service (w, pos) (some w) serviceBatchSize grant)).map fun r =>
        let st := wk.stats pos
        (f.set w (r.1, { wk with
          pc := .tryRecv pos
          stats := Function.update wk.stats pos
            { st with cqBufsReceived := st.cqBufsReceived + r.2.ret } }), ())
    | _ => none
  | .tryRecv w grant =>
    let wk := f.workers w
    match wk.pc with
    | .tryRecv pos =>
      (stepIn pr f.sys (.tryRecv (w, pos) (w, pos) socketBatchSize () grant)).map fun r =>
        let st := wk.stats pos
        -- nothing is added if nothing was received
        (f.set w (r.1, { wk with
          pc := .forward pos
          fqDeficit := Function.update wk.fqDeficit pos (wk.fqDeficit pos + r.2.ret)
          stats := Function.update wk.stats pos { st with rxPackets := st.rxPackets + r.2.ret } }),
          ())
    | _ => none
  | .forward w granted send =>
    let wk := f.workers w
    match wk.pc with
    | .forward pos =>
      if (f.sys.deques (w, pos)).list = [] then
        some (f.set w (f.sys, { wk with pc := .fill pos }), ())
      else
        let act := .trySend (w, pos.other) (w, pos) socketBatchSize granted send
        (stepIn pr f.sys act).map fun r =>
          let st := wk.stats pos.other
          (f.set w (r.1, { wk with
            pc := .fill pos
            stats := Function.update wk.stats pos.other
              { st with txPackets := st.txPackets + r.2.ret } }), ())
    | _ => none
  | .fill w granted =>
    let wk := f.workers w
    match wk.pc with
    | .fill pos =>
      if wk.fqDeficit pos ≥ fillThreshold then
        (stepIn pr f.sys (.fill (w, pos) (some w) (wk.fqDeficit pos) granted)).bind fun r =>
          let st := wk.stats pos
          match pr.sub64 (wk.fqDeficit pos) r.2.ret with
          | .ok deficit =>
            some (f.set w (r.1, { wk with
              pc := opt.nextLink pos
              fqDeficit := Function.update wk.fqDeficit pos deficit
              stats := Function.update wk.stats pos
                { st with fqBufsFilled := st.fqBufsFilled + r.2.ret } }), ())
          | .error _ => none
      else some (f.set w (f.sys, { wk with pc := opt.nextLink pos }), ())
    | _ => none
  | .kernel w pos k =>
    (stepIn pr f.sys (.kernel (w, pos) k)).map fun r => ({ f with sys := r.1 }, ())

/-! ## What a step did -/

section
variable {pr : Profile} {opt : FwdOpt} {f f' : Forwarder W} {w : W} {u : Unit}

/-- The last buffers of the pool, in their order, are the last ones of the worker. -/
theorem fwdStep_getBufs_inv (h : fwdStep pr opt f (.getBufs w) = some (f', u)) :
    (f.workers w).pc = .getBufs ∧ ∃ num n, opt.startBufs = some num ∧
      n = min num (f.sys.vecs none).len ∧
      f' = f.set w
        ({ f.sys with
            vecs := Function.update
              (Function.update f.sys.vecs none ((f.sys.vecs none).dropLast n)) (some w)
              ((f.sys.vecs (some w)).pushAll (BufPoolVec.tail (f.sys.vecs none) n)) },
          { f.workers w with pc := .initialFill .first }) := by
  simp only [fwdStep] at h
  split at h
  · next num hpc hnum =>
      have hmove := BufPoolVec.moveTail_eq pr (f.sys.vecs none) (f.sys.vecs (some w)) num
      have hget : BufPoolVec.get pr ⟨f.sys.vecs none⟩ (f.sys.vecs (some w)) num = _ :=
        BufPoolVec.get_of hmove
      rw [hget] at h
      cases h
      exact ⟨hpc, num, _, hnum, rfl, rfl⟩
  · cases h

theorem fwdStep_initialFill_inv {granted : Bool}
    (h : fwdStep pr opt f (.initialFill w granted) = some (f', u)) :
    ∃ pos s out, (f.workers w).pc = .initialFill pos ∧
      step f.sys (.fill (w, pos) (some w) opt.initialFillNum granted) = some (s, out) ∧
      out.ret = opt.initialFillNum ∧
      f' = f.set w (s, { f.workers w with pc := opt.nextFill pos }) := by
  simp only [fwdStep] at h
  split at h
  · next pos hpc =>
      obtain ⟨r, hr, h⟩ := Option.bind_eq_some_iff.1 h
      split at h
      · next hret =>
          cases h
          exact ⟨pos, r.1, r.2, hpc, stepIn_some hr, hret, rfl⟩
      · cases h
  · cases h

/-- A worker that looks for a command leaves the loop on `Exit` only. -/
theorem fwdStep_command_inv {cmd : Option Command}
    (h : fwdStep pr opt f (.command w cmd) = some (f', u)) :
    (f.workers w).pc = .command ∧
      f' = f.set w (f.sys, { f.workers w with
        pc := if cmd = some .exit then .exited else .service .first }) := by
  simp only [fwdStep] at h
  split at h
  · next hpc =>
      cases h
      refine ⟨hpc, ?_⟩
      cases cmd with
      | none => rfl
      | some cmd => cases cmd <;> rfl
  · cases h

theorem fwdStep_service_inv {grant : Nat} (h : fwdStep pr opt f (.service w grant) = some (f', u)) :
    ∃ pos s out, (f.workers w).pc = .service pos ∧
      step f.sys (.service (w, pos) (some w) serviceBatchSize grant) = some (s, out) ∧
      f' = f.set w (s, { f.workers w with
        pc := .tryRecv pos
        stats := Function.update (f.workers w).stats pos { (f.workers w).stats pos with
          cqBufsReceived := ((f.workers w).stats pos).cqBufsReceived + out.ret } }) := by
  simp only [fwdStep] at h
  split at h
  · next pos hpc =>
      obtain ⟨r, hr, h⟩ := Option.map_eq_some_iff.1 h
      cases h
      exact ⟨pos, r.1, r.2, hpc, stepIn_some hr, rfl⟩
  · cases h

theorem fwdStep_tryRecv_inv {grant : Nat} (h : fwdStep pr opt f (.tryRecv w grant) = some (f', u)) :
    ∃ pos s out, (f.workers w).pc = .tryRecv pos ∧
      step f.sys (.tryRecv (w, pos) (w, pos) socketBatchSize () grant) = some (s, out) ∧
      f' = f.set w (s, { f.workers w with
        pc := .forward pos
        fqDeficit := Function.update (f.workers w).fqDeficit pos
          ((f.workers w).fqDeficit pos + out.ret)
        stats := Function.update (f.workers w).stats pos { (f.workers w).stats pos with
          rxPackets := ((f.workers w).stats pos).rxPackets + out.ret } }) := by
  simp only [fwdStep] at h
  split at h
  · next pos hpc =>
      obtain ⟨r, hr, h⟩ := Option.map_eq_some_iff.1 h
      cases h
      exact ⟨pos, r.1, r.2, hpc, stepIn_some hr, rfl⟩
  · cases h

/-- With nothing pending nothing is sent. -/
theorem fwdStep_forward_inv {granted : Bool} {send : Sendto}
    (h : fwdStep pr opt f (.forward w granted send) = some (f', u)) :
    ∃ pos, (f.workers w).pc = .forward pos ∧
      (f' = f.set w (f.sys, { f.workers w with pc := .fill pos }) ∨ ∃ s out,
        step f.sys (.trySend (w, pos.other) (w, pos) socketBatchSize granted send) =
          some (s, out) ∧
        f' = f.set w (s, { f.workers w with
          pc := .fill pos
          stats := Function.update (f.workers w).stats pos.other
            { (f.workers w).stats pos.other with
              txPackets := ((f.workers w).stats pos.other).txPackets + out.ret } })) := by
  simp only [fwdStep] at h
  split at h
  · next pos hpc =>
      split at h
      · cases h
        exact ⟨pos, hpc, .inl rfl⟩
      · obtain ⟨r, hr, h⟩ := Option.map_eq_some_iff.1 h
        cases h
        exact ⟨pos, hpc, .inr ⟨r.1, r.2, stepIn_some hr, rfl⟩⟩
  · cases h

/-- Below the threshold nothing is filled, and the subtraction from the deficit does not
underflow. -/
theorem fwdStep_fill_inv {granted : Bool} (h : fwdStep pr opt f (.fill w granted) = some (f', u)) :
    ∃ pos, (f.workers w).pc = .fill pos ∧
      ((f.workers w).fqDeficit pos < fillThreshold ∧
          f' = f.set w (f.sys, { f.workers w with pc := opt.nextLink pos }) ∨
        fillThreshold ≤ (f.workers w).fqDeficit pos ∧ ∃ s out,
          step f.sys (.fill (w, pos) (some w) ((f.workers w).fqDeficit pos) granted) =
            some (s, out) ∧ out.ret ≤ (f.workers w).fqDeficit pos ∧
          f' = f.set w (s, { f.workers w with
            pc := opt.nextLink pos
            fqDeficit := Function.update (f.workers w).fqDeficit pos
              ((f.workers w).fqDeficit pos - out.ret)
            stats := Function.update (f.workers w).stats pos { (f.workers w).stats pos with
              fqBufsFilled := ((f.workers w).stats pos).fqBufsFilled + out.ret } })) := by
  simp only [fwdStep] at h
  split at h
  · next pos hpc =>
      split at h
      · next hdeficit =>
          obtain ⟨⟨s, out⟩, hr, h⟩ := Option.bind_eq_some_iff.1 h
          have hs := stepIn_some hr
          have hret := (step_fill_inv hs).2
          have hle := (grantCount_le (f.sys.link (w, pos)).fq granted
            (min (f.sys.vecs (some w)).len ((f.workers w).fqDeficit pos))).1
          have hout : out.ret ≤ (f.workers w).fqDeficit pos := by omega
          rw [pr.sub64_ok hout] at h
          cases h
          exact ⟨pos, hpc, .inr ⟨hdeficit, s, out, hs, hout, rfl⟩⟩
      · next hdeficit =>
          cases h
          exact ⟨pos, hpc, .inl ⟨Nat.lt_of_not_le hdeficit, rfl⟩⟩
  · cases h

theorem fwdStep_kernel_inv {pos : Pos} {k : KAct}
    (h : fwdStep pr opt f (.kernel w pos k) = some (f', u)) :
    ∃ s out, step f.sys (.kernel (w, pos) k) = some (s, out) ∧ f' = { f with sys := s } := by
  simp only [fwdStep] at h
  obtain ⟨r, hr, h⟩ := Option.map_eq_some_iff.1 h
  cases h
  exact ⟨r.1, r.2, stepIn_some hr, rfl⟩

end

/-! ## The data path under a forwarder -/

section
variable {ι ν δ T : Type} [DecidableEq ι] [DecidableEq ν] [DecidableEq δ] [Inhabited T]
  {s : Sys ι ν δ T} {v u : ν}

omit [DecidableEq ν] [DecidableEq δ] [DecidableEq ι] [Inhabited T] in
/-- An insertion at the end is a `push`. -/
theorem Vec.insertAt_len {α : Type} (w : Vec α) (x : α) : w.insertAt w.len x 0 = w.push x := by
  have hle := w.le
  refine Vec.ext ?_ ?_
  · simp [insertAt, push, len]
  · show (if w.list.length < w.capacity then w.capacity else w.list.length + 1 + 0) =
      max w.capacity (w.list.length + 1)
    split <;> omega

omit [DecidableEq ν] [DecidableEq δ] [DecidableEq ι] [Inhabited T] in
/-- A deque without its first element is what `pop_front` leaves. -/
theorem ArrayDeque.withList_tail {α : Type} (d : ArrayDeque α) :
    d.withList (d.list.eraseIdx 0) = d.popFront.2 := by
  refine ArrayDeque.ext ?_ rfl
  have hle := d.le
  rw [ArrayDeque.withList, ArrayDeque.popFront, List.eraseIdx_zero]
  exact List.take_of_length_le (by rw [List.length_tail]; omega)

/-- The front buffer of a deque can be moved to the end of a vector. -/
theorem step_move_front {d : δ} {x : BufMmap T} (hx : (s.deques d).list.head? = some x) :
    step s (.move (.deque d) 0 (.vec v) (s.vecs v).len 0) =
      some ({ s with
        vecs := Function.update s.vecs v ((s.vecs v).push x)
        deques := Function.update s.deques d (s.deques d).popFront.2 }, ⟨0, []⟩) := by
  rw [List.head?_eq_getElem?] at hx
  simp only [step, stepIn, Sys.coll, hx, Sys.insert, Sys.setColl, Option.map_some, Vec.insertAt_len,
    ArrayDeque.withList_tail]

/-- The buffer behind the first ones of a vector can be moved to the end of another vector. -/
theorem step_move_end (hne : u ≠ v) {a b : List (BufMmap T)} {x : BufMmap T}
    (hl : (s.vecs v).list = a ++ x :: b) :
    step s (.move (.vec v) a.length (.vec u) (s.vecs u).len 0) =
      some ({ s with vecs := Function.update (Function.update s.vecs v
        ((s.vecs v).withList (a ++ b))) u ((s.vecs u).push x) }, ⟨0, []⟩) := by
  have hget : (s.coll (.vec v))[a.length]? = some x := by
    rw [Sys.coll, hl, List.getElem?_append_right (Nat.le_refl _), Nat.sub_self]
    rfl
  have herase : (s.coll (.vec v)).eraseIdx a.length = a ++ b := by
    rw [Sys.coll, hl, List.eraseIdx_append_of_length_le (Nat.le_refl _), Nat.sub_self]
    rfl
  simp only [step, stepIn, hget, herase, Sys.setColl, Sys.insert, Function.update_of_ne hne,
    Vec.insertAt_len, Option.map_some]

/-- The last buffers of a vector can be moved one by one to the end of another vector. -/
theorem leads_moveTail (hne : u ≠ v) {a b : List (BufMmap T)} (hl : (s.vecs v).list = a ++ b) :
    ∃ as : List (Act ι ν δ T), (∀ x ∈ as, ∃ j k, x = .move (.vec v) j (.vec u) k 0) ∧
      Leads step s as { s with vecs := Function.update (Function.update s.vecs v
        ((s.vecs v).dropLast b.length)) u ((s.vecs u).pushAll b) } := by
  induction b generalizing s with
  | nil =>
      refine ⟨[], fun x hx => absurd hx List.not_mem_nil, ?_⟩
      simpa using Leads.nil s
  | cons x b ih =>
      have hfirst := step_move_end hne hl
      obtain ⟨vecs, hvecs⟩ : ∃ vecs, Function.update (Function.update s.vecs v
        ((s.vecs v).withList (a ++ b))) u ((s.vecs u).push x) = vecs := ⟨_, rfl⟩
      rw [hvecs] at hfirst
      have hroom : (a ++ b).length ≤ (s.vecs v).capacity := by
        have hle := (s.vecs v).le
        rw [hl] at hle
        simp only [List.length_append, List.length_cons] at hle ⊢
        omega
      have hv : vecs v = (s.vecs v).withList (a ++ b) := by
        rw [← hvecs]
        simp [Function.update_of_ne hne.symm]
      have hvl : (vecs v).list = a ++ b := by
        rw [hv]
        exact List.take_of_length_le hroom
      obtain ⟨as, has, hlead⟩ := ih (s := { s with vecs }) hvl
      refine ⟨.move (.vec v) a.length (.vec u) (s.vecs u).len 0 :: as, ?_, ?_⟩
      · intro y hy
        rcases List.mem_cons.1 hy with rfl | hy
        · exact ⟨_, _, rfl⟩
        · exact has y hy
      · have hsrc : (vecs v).dropLast b.length = (s.vecs v).dropLast (b.length + 1) := by
          refine Vec.ext ?_ (by rw [hv]; rfl)
          simp [Vec.dropLast, Vec.len, hvl, hl]
        have hdst : (vecs u).pushAll b = (s.vecs u).pushAll (x :: b) := by
          rw [← hvecs]
          simp [Vec.pushAll]
        have hend : Function.update (Function.update vecs v ((vecs v).dropLast b.length)) u
              ((vecs u).pushAll b) =
            Function.update (Function.update s.vecs v ((s.vecs v).dropLast (b.length + 1))) u
              ((s.vecs u).pushAll (x :: b)) := by
          rw [hsrc, hdst, ← hvecs]
          simp only [Function.update_comm hne, Function.update_idem]
        rw [List.length_cons, ← hend]
        exact .cons hfirst hlead

end

section
variable {pr : Profile} {opt : FwdOpt} {Q : Act (W × Pos) (Option W) (W × Pos) Unit → Prop}

/-- A step in which the kernel does nothing but what `Q` allows. -/
def FwdAct.Allowed (Q : Act (W × Pos) (Option W) (W × Pos) Unit → Prop) : FwdAct W → Prop
  | .kernel w pos k => Q (.kernel (w, pos) k)
  | _ => True

/-- The forwarders are programs over the data path. -/
theorem fwdStep_over (hQ : ∀ a, (∀ i k, a ≠ .kernel i k) → Q a) :
    Program.Over step (fwdStep pr opt) Forwarder.sys Q (FwdAct.Allowed Q) := by
  have hnone : ∀ t t' : Forwarder W, t'.sys = t.sys →
      ∃ as, (∀ a ∈ as, Q a) ∧ Leads step t.sys as t'.sys := by
    intro t t' h
    rw [h]
    exact ⟨[], fun a ha => absurd ha List.not_mem_nil, .nil _⟩
  have hone : ∀ (t : Forwarder W) {a s out}, step t.sys a = some (s, out) → Q a →
      ∃ as, (∀ a ∈ as, Q a) ∧ Leads step t.sys as s := by
    intro t a s out h ha
    refine ⟨[a], fun b hb => ?_, .single h⟩
    rwa [List.mem_singleton.1 hb]
  intro t p t' c hp h
  cases p with
  | getBufs w =>
    obtain ⟨-, num, n, -, hmin, rfl⟩ := fwdStep_getBufs_inv h
    have hn : n ≤ (t.sys.vecs none).len := hmin ▸ Nat.min_le_right _ _
    have hlist := (BufPoolVec.dropLast_append_tail (t.sys.vecs none) n).symm
    obtain ⟨as, has, hlead⟩ := leads_moveTail (s := t.sys) (Option.some_ne_none w) hlist
    rw [BufPoolVec.tail_length hn] at hlead
    refine ⟨as, ?_, hlead⟩
    intro a ha
    obtain ⟨j, k, rfl⟩ := has a ha
    exact hQ _ (by simp)
  | initialFill w granted =>
    obtain ⟨pos, s, out, -, hs, -, rfl⟩ := fwdStep_initialFill_inv h
    exact hone t hs (hQ _ (by simp))
  | command w cmd =>
    obtain ⟨-, rfl⟩ := fwdStep_command_inv h
    exact hnone _ _ rfl
  | service w grant =>
    obtain ⟨pos, s, out, -, hs, rfl⟩ := fwdStep_service_inv h
    exact hone t hs (hQ _ (by simp))
  | tryRecv w grant =>
    obtain ⟨pos, s, out, -, hs, rfl⟩ := fwdStep_tryRecv_inv h
    exact hone t hs (hQ _ (by simp))
  | forward w granted send =>
    obtain ⟨pos, -, rfl | ⟨s, out, hs, rfl⟩⟩ := fwdStep_forward_inv h
    · exact hnone _ _ rfl
    · exact hone t hs (hQ _ (by simp))
  | fill w granted =>
    obtain ⟨pos, -, ⟨-, rfl⟩ | ⟨-, s, out, hs, -, rfl⟩⟩ := fwdStep_fill_inv h
    · exact hnone _ _ rfl
    · exact hone t hs (hQ _ (by simp))
  | kernel w pos k =>
    obtain ⟨s, out, hs, rfl⟩ := fwdStep_kernel_inv h
    exact hone t hs hp

/-- So what every step of the data path keeps is kept by every step of a forwarder. -/
theorem fwdStep_keeps {I : FwdSys W → Prop}
    (hI : ∀ s a s' out, I s → step s a = some (s', out) → I s') {f f' : Forwarder W}
    {a : FwdAct W} {u : Unit} (hf : I f.sys) (h : fwdStep pr opt f a = some (f', u)) :
    I f'.sys := by
  refine (fwdStep_over (Q := fun _ => True) fun _ _ => trivial).step_invariant
    (fun s a s' out _ => hI s a s' out) ?_ hf h
  cases a <;> trivial

/-- It is kept by every run, together with what the steps of the forwarder keep where it holds. -/
theorem fwdStep_invariant {I : FwdSys W → Prop} {J : Forwarder W → Prop}
    (hI : ∀ s a s' out, I s → step s a = some (s', out) → I s')
    (hJ : ∀ f a f' u, I f.sys → J f → fwdStep pr opt f a = some (f', u) → J f') {f f' : Forwarder W}
    {as : List (FwdAct W)} {us : List Unit} (hf : I f.sys) (hf' : J f)
    (h : run (fwdStep pr opt) f as = some (f', us)) : I f'.sys ∧ J f' := by
  refine (fwdStep_over (Q := fun _ => True) fun _ _ => trivial).invariant_and
    (fun s a s' out _ => hI s a s' out) (fun f a f' u _ => hJ f a f' u) hf hf' ?_ h
  intro a _
  cases a <;> trivial

end

end

/-- A packet that `l2fwd-2link`, with two buffers, receives on its first link and the kernel takes
from the second. -/
def relayRun : List (FwdAct Unit) :=
  [.initialFill () true, .initialFill () true, .kernel () .first .takeFill,
    .kernel () .first (.write 0 256 7), .kernel () .first (.publish 0 256 1 0), .service () 0,
    .tryRecv () 1, .forward () true .sent, .kernel () .second (.readTx 0), .fill () true]

theorem relayRun_isSome : (run (fwdStep .release (l2fwd2link 2))
    (.start (l2fwd2link 2) (Sys.init ⟨2, 2048⟩ (some ()) (MmapArea.chunkVec 2 2048) 4))
    relayRun).isSome := by
  decide +kernel

end Afxdp
