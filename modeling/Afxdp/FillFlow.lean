import Afxdp.Counts

/-!
# Fill flow control

A worker fills a ring once at the start and then refills it by no more than what it received since:
it adds what `try_recv` returns to its `fq_deficit` and subtracts what `fill` returns. The deficit
and the fill ring's counter together never exceed what was received plus the ring size
(`FlowInv.budget`), and what was received is in fill entries that the kernel consumed, so there
is room for a refill of the whole deficit (`FlowInv.deficit_le_free`) and libbpf's all-or-nothing
reservation never refuses one.
-/

namespace Afxdp

open Run (run run_invariant)

variable {ι ν δ T : Type} [DecidableEq ι] [DecidableEq ν] [DecidableEq δ] [Inhabited T]

/-! ## The worker -/

/-- The data path and the `fq_deficit` of the worker of one link; it has none before its initial
fill. -/
structure Worker (ι ν δ T : Type) where
  sys : Sys ι ν δ T
  fqDeficit : Option Nat

/-- The deficit after a step that returned `ret`, if the worker makes the step. Its initial fill
puts in no more buffers than the ring has slots, a later fill no more than the deficit. libbpf
grants every reservation that fits. -/
def Worker.nextDeficit (i : ι) (w : Worker ι ν δ T) (ret : Nat) :
    Act ι ν δ T → Option (Option Nat)
  | .fill j _ m granted =>
    if j = i then
      if granted then
        match w.fqDeficit with
        | none => if m ≤ (w.sys.link i).fq.size then some (some 0) else none
        | some deficit => if m ≤ deficit then some (some (deficit - ret)) else none
      else none
    else some w.fqDeficit
  | .tryRecv j _ _ _ _ => if j = i then some (w.fqDeficit.map (· + ret)) else some w.fqDeficit
  | _ => some w.fqDeficit

omit [DecidableEq ν] [DecidableEq δ] [Inhabited T] in
/-- A fill of the worker is its initial fill or a refill. -/
theorem Worker.nextDeficit_fill {i : ι} {w : Worker ι ν δ T} {ret m : Nat} {v : ν} {granted : Bool}
    {d : Option Nat} (h : w.nextDeficit i ret (.fill i v m granted) = some d) :
    (w.fqDeficit = none ∧ m ≤ (w.sys.link i).fq.size ∧ d = some 0) ∨
      ∃ deficit, w.fqDeficit = some deficit ∧ m ≤ deficit ∧ d = some (deficit - ret) := by
  simp only [nextDeficit, if_true] at h
  split at h
  · split at h
    · next hnone =>
        split at h
        · next hm => exact .inl ⟨hnone, hm, (Option.some.inj h).symm⟩
        · cases h
    · next deficit hsome =>
        split at h
        · next hm => exact .inr ⟨deficit, hsome, hm, (Option.some.inj h).symm⟩
        · cases h
  · cases h

/-- A step of the worker of the link `i`, or of anybody else. -/
def workerStep (i : ι) (w : Worker ι ν δ T) (a : Act ι ν δ T) : Option (Worker ι ν δ T × Out) :=
  (step w.sys a).bind fun p => (w.nextDeficit i p.2.ret a).map fun d => (⟨p.1, d⟩, p.2)

theorem workerStep_inv {i : ι} {w w' : Worker ι ν δ T} {a : Act ι ν δ T} {out : Out}
    (h : workerStep i w a = some (w', out)) :
    step w.sys a = some (w'.sys, out) ∧ w.nextDeficit i out.ret a = some w'.fqDeficit := by
  simp only [workerStep, Option.bind_eq_some_iff, Option.map_eq_some_iff, Prod.exists,
    Prod.mk.injEq] at h
  obtain ⟨s', out', hs, d, hd, rfl, rfl⟩ := h
  exact ⟨hs, hd⟩

/-- A fill that is not larger than the free part of the ring returns all that it is asked for and
the vector has. -/
theorem Worker.fill_exact {i : ι} {w : Worker ι ν δ T} {v : ν} {m : Nat} {d : Option Nat}
    (hm : m ≤ (w.sys.link i).fq.free)
    (hd : w.nextDeficit i (min (w.sys.vecs v).len m) (.fill i v m true) = some d) :
    ∃ w' out, workerStep i w (.fill i v m true) = some (w', out) ∧
      out.ret = min (w.sys.vecs v).len m := by
  obtain ⟨tr, ht⟩ := step_fill w.sys i v m true
  have hcount : grantCount (w.sys.link i).fq true (min (w.sys.vecs v).len m) =
      min (w.sys.vecs v).len m := if_pos (by simp; omega)
  rw [hcount] at ht
  refine ⟨⟨w.sys.afterFill i v (min (w.sys.vecs v).len m), d⟩, ⟨_, tr⟩, ?_, rfl⟩
  rw [workerStep, ht, Option.bind_some, hd, Option.map_some]

/-! ## The invariant -/

/-- What holds between the calls of a worker of the link `i` whose fill ring has `R` slots. -/
structure FlowInv (i : ι) (R : Nat) (w : Worker ι ν δ T) : Prop where
  area : afXdpReserved ≤ w.sys.area.bufLen
  size : (w.sys.link i).fq.size = R
  balanced : (w.sys.link i).Balanced
  /-- Before the initial fill the ring was never used. -/
  unused : w.fqDeficit = none → (w.sys.link i).fq.prod = 0
  /-- What is filled and what is still to be refilled is covered by what was received and by the
  initial fill. -/
  budget : ∀ deficit, w.fqDeficit = some deficit →
    (w.sys.link i).fq.prod + deficit ≤ (w.sys.link i).rx.cons + R

namespace FlowInv

variable {i : ι} {R : Nat} {w w' : Worker ι ν δ T}

omit [DecidableEq ι] [DecidableEq ν] [DecidableEq δ] [Inhabited T] in
/-- What was received is in fill entries the kernel consumed. -/
theorem recv_le (h : FlowInv i R w) :
    (w.sys.link i).rx.cons ≤ (w.sys.link i).fq.cons := by
  have h1 := (w.sys.link i).rx.cons_le
  have h2 := h.balanced.rx
  omega

omit [DecidableEq ι] [DecidableEq ν] [DecidableEq δ] [Inhabited T] in
/-- The fill ring has room for the whole deficit. -/
theorem deficit_le_free (h : FlowInv i R w) {deficit : Nat} (hd : w.fqDeficit = some deficit) :
    deficit ≤ (w.sys.link i).fq.free := by
  have h1 := h.budget deficit hd
  have h2 := h.recv_le
  have h3 := h.size
  rw [Spsc.RingBuf.free]
  omega

omit [DecidableEq ι] [DecidableEq ν] [DecidableEq δ] [Inhabited T] in
/-- The deficit never exceeds the ring. -/
theorem deficit_le_size (h : FlowInv i R w) {deficit : Nat} (hd : w.fqDeficit = some deficit) :
    deficit ≤ R := by
  have h1 := h.deficit_le_free hd
  have h2 := (w.sys.link i).fq.used_add_free
  have h3 := h.size
  omega

omit [DecidableEq ι] [DecidableEq ν] [DecidableEq δ] [Inhabited T] in
/-- Before the initial fill the whole ring is free. -/
theorem free_eq_size (h : FlowInv i R w) (hd : w.fqDeficit = none) :
    (w.sys.link i).fq.free = R := by
  have h1 := h.unused hd
  have h2 := (w.sys.link i).fq.cons_le
  have h3 := h.size
  rw [Spsc.RingBuf.free]
  omega

/-- A step of the worker, or of anybody else, keeps the invariant. -/
theorem step {a : Act ι ν δ T} {out : Out} (h : FlowInv i R w)
    (hstep : workerStep i w a = some (w', out)) : FlowInv i R w' := by
  obtain ⟨hs, hd⟩ := workerStep_inv hstep
  obtain ⟨hcount, hbal, hsize⟩ := step_counts h.area hs i
  have hfill := hcount .fill
  have hrecv := hcount .recv
  have hle := h.recv_le
  have hfq := (w.sys.link i).fq.cons_le
  simp only [Link.count] at hfill hrecv
  -- steps that neither fill this ring nor receive from this link
  have hother : a.op? ≠ some (.fill, i) → a.op? ≠ some (.recv, i) → w'.fqDeficit = w.fqDeficit →
      FlowInv i R w' := by
    intro hnf hnr heq
    rw [returned_of_ne out hnf, Nat.add_zero] at hfill
    rw [returned_of_ne out hnr, Nat.add_zero] at hrecv
    refine ⟨?_, hsize.trans h.size, hbal h.balanced, ?_, ?_⟩
    · rw [step_area h.area hs]
      exact h.area
    · rw [heq, hfill]
      exact h.unused
    · rw [heq, hfill, hrecv]
      exact h.budget
  cases a with
  | fill j v m granted =>
    rcases eq_or_ne j i with rfl | hj
    · rw [returned_of_eq out rfl] at hfill
      rw [returned_of_ne out (by simp [Act.op?]), Nat.add_zero] at hrecv
      obtain ⟨-, hret⟩ := step_fill_inv hs
      have hreq := (grantCount_le (w.sys.link j).fq granted (min (w.sys.vecs v).len m)).1
      have harea : afXdpReserved ≤ w'.sys.area.bufLen := by
        rw [step_area h.area hs]
        exact h.area
      rcases Worker.nextDeficit_fill hd with ⟨hnone, hm, hd'⟩ | ⟨deficit, hsome, hm, hd'⟩
      · -- the initial fill goes into an unused ring
        have h0 := h.unused hnone
        refine ⟨harea, hsize.trans h.size, hbal h.balanced, ?_, ?_⟩
        · rw [hd']
          intro h
          cases h
        · rw [hd']
          intro _ he
          cases he
          have hR := h.size
          omega
      · -- a refill is covered by the deficit
        have hb := h.budget deficit hsome
        refine ⟨harea, hsize.trans h.size, hbal h.balanced, ?_, ?_⟩
        · rw [hd']
          intro h
          cases h
        · rw [hd']
          intro _ he
          cases he
          omega
    · have hop : (Act.fill j v m granted : Act ι ν δ T).op? ≠ some (.fill, i) := by
        simpa [Act.op?] using hj
      refine hother hop (by simp [Act.op?]) ?_
      simp only [Worker.nextDeficit, if_neg hj] at hd
      exact (Option.some.inj hd).symm
  | tryRecv j d m user grant =>
    rcases eq_or_ne j i with rfl | hj
    · rw [returned_of_ne out (by simp [Act.op?]), Nat.add_zero] at hfill
      rw [returned_of_eq out rfl] at hrecv
      simp only [Worker.nextDeficit, if_true] at hd
      have hd' := (Option.some.inj hd).symm
      refine ⟨?_, hsize.trans h.size, hbal h.balanced, ?_, ?_⟩
      · rw [step_area h.area hs]
        exact h.area
      · intro hnone
        rw [hd', Option.map_eq_none_iff] at hnone
        rw [hfill]
        exact h.unused hnone
      · intro deficit hsome
        rw [hd'] at hsome
        obtain ⟨deficit', hsome', rfl⟩ := Option.map_eq_some_iff.1 hsome
        have hb := h.budget deficit' hsome'
        omega
    · have hop : (Act.tryRecv j d m user grant : Act ι ν δ T).op? ≠ some (.recv, i) := by
        simpa [Act.op?] using hj
      refine hother (by simp [Act.op?]) hop ?_
      simp only [Worker.nextDeficit, if_neg hj] at hd
      exact (Option.some.inj hd).symm
  | _ =>
    exact hother (by simp [Act.op?]) (by simp [Act.op?]) (Option.some.inj hd).symm

end FlowInv

/-! ## Runs -/

/-- In every state that a worker of a link reaches, whatever else goes on: the deficit is at most
the size `R` of the fill ring; a refill of at most the deficit returns as many buffers as it is
asked for and the vector has, so its subtraction from the deficit does not underflow; and so does
the initial fill, of at most `R` buffers. -/
theorem run_worker {area : MmapArea} {v₀ : ν} {b : Vec (BufMmap T)} {s₀ : Sys ι ν δ T} {i : ι}
    {as : List (Act ι ν δ T)} {outs : List Out} {w : Worker ι ν δ T}
    (hlen : afXdpReserved ≤ area.bufLen) (hs : s₀.Start area v₀ b)
    (hrun : run (workerStep i) ⟨s₀, none⟩ as = some (w, outs)) :
    (∀ deficit, w.fqDeficit = some deficit → deficit ≤ (s₀.link i).fq.size ∧
      ∀ v m, m ≤ deficit → ∃ w' out, workerStep i w (.fill i v m true) = some (w', out) ∧
        out.ret = min (w.sys.vecs v).len m ∧ out.ret ≤ deficit) ∧
    (w.fqDeficit = none → ∀ v n₀, n₀ ≤ (s₀.link i).fq.size →
      ∃ w' out, workerStep i w (.fill i v n₀ true) = some (w', out) ∧
        out.ret = min (w.sys.vecs v).len n₀) := by
  have h₀ : FlowInv i (s₀.link i).fq.size (⟨s₀, none⟩ : Worker ι ν δ T) :=
    ⟨by rw [hs.area]; exact hlen, rfl, (hs.link i).balanced, fun _ => (hs.link i).fq,
      fun _ hd => by cases hd⟩
  have h := run_invariant (I := FlowInv i (s₀.link i).fq.size) (Q := fun _ => True)
    (fun _ _ _ _ _ hi hstep => hi.step hstep) h₀ (fun _ _ => trivial) hrun
  refine ⟨fun deficit hd => ⟨h.deficit_le_size hd, ?_⟩, ?_⟩
  · intro v m hm
    obtain ⟨w', out, hstep, hret⟩ := Worker.fill_exact (w := w) (v := v) (m := m)
      (d := some (deficit - min (w.sys.vecs v).len m))
      (Nat.le_trans hm (h.deficit_le_free hd)) (by simp [Worker.nextDeficit, hd, hm])
    exact ⟨w', out, hstep, hret, by omega⟩
  · intro hd v n₀ hn
    refine Worker.fill_exact (d := some 0) ?_ ?_
    · rw [h.free_eq_size hd]
      exact hn
    · simp [Worker.nextDeficit, hd, h.size, hn]

/-- A worker that fills two buffers, receives one and is about to refill. -/
theorem run_worker_refill :
    ∃ w outs, run (workerStep ()) ⟨Sys.init ⟨2, 2048⟩ () (MmapArea.chunkVec 2 2048) 1, none⟩
        ([.fill () () 2 true, .kernel () .takeFill, .kernel () (.publish 0 256 64 0),
          .tryRecv () () 8 () 1] : List (Act Unit Unit Unit Unit)) = some (w, outs) ∧
      (∀ deficit, w.fqDeficit = some deficit → deficit ≤ 2 ∧
        ∀ v m, m ≤ deficit → ∃ w' out, workerStep () w (.fill () v m true) = some (w', out) ∧
          out.ret = min (w.sys.vecs v).len m ∧ out.ret ≤ deficit) ∧
      (w.fqDeficit = none → ∀ v n₀, n₀ ≤ 2 →
        ∃ w' out, workerStep () w (.fill () v n₀ true) = some (w', out) ∧
          out.ret = min (w.sys.vecs v).len n₀) := by
  have hsome : (run (workerStep ())
      ⟨Sys.init ⟨2, 2048⟩ () (MmapArea.chunkVec 2 2048) 1, none⟩
      ([.fill () () 2 true, .kernel () .takeFill, .kernel () (.publish 0 256 64 0),
        .tryRecv () () 8 () 1] : List (Act Unit Unit Unit Unit))).isSome := by
    decide +kernel
  obtain ⟨⟨w, outs⟩, hrun⟩ := Option.isSome_iff_exists.1 hsome
  exact ⟨w, outs, hrun, run_worker (by decide) (Sys.init_start _ _ _ _) hrun⟩

end Afxdp
