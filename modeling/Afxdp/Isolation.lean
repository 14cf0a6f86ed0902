import Afxdp.Conservation
import Afxdp.Refill
import Mathlib.Algebra.Order.BigOperators.Group.Finset
import Mathlib.Data.Fintype.Prod

/-!
# Workers that share an area do not share buffers

All workers of `l2fwd-2link-multicore` have their buffers in one area, and take them from one pool.
A step of the data path touches the places of its link and of its collections only
(`step_untouched`), and those of a worker's calls, and of the kernel on its links, are the worker's
(`fwdStep_untouched`). So the buffers that a worker took from the pool stay with it, in any
interleaving with the other workers (`run_isolated`).

The initial fills need `2 * initial_fill_num` of them, which bounds how many workers get to their
loop (`run_admitted`).
-/

namespace Afxdp

open Run (run run_invariant)
open Tokens (Custody Shifts)

/-! ## Places that a step touches -/

section
variable {ι ν δ T : Type} [DecidableEq ι] [DecidableEq ν] [DecidableEq δ] {s s' : Sys ι ν δ T}

/-- The places that an action may change. -/
def Act.Touches : Act ι ν δ T → Place ι ν δ → Prop
  | .fill i v _ _, p | .service i v _ _, p => p = .coll (.vec v) ∨ ∃ q, p = .link i q
  | .tryRecv i d _ _ _, p | .trySend i d _ _ _, p => p = .coll (.deque d) ∨ ∃ q, p = .link i q
  | .move c _ c' _ _, p => p = .coll c ∨ p = .coll c'
  | .setLen _ _ _, _ | .setUser _ _ _, _ | .write _ _ _ _, _ => False
  | .kernel i _, p => ∃ q, p = .link i q

omit [DecidableEq ι] in
/-- A change of a collection and a link keeps the chunks of the other places. -/
theorem chunks_untouched {c : Coll ν δ} {bs : List (BufMmap T)} {i : ι}
    (ha : s'.area = s.area) (hc : s'.coll = Function.update s.coll c bs)
    (hl : ∀ j, j ≠ i → s'.link j = s.link j) {p : Place ι ν δ}
    (hp : ¬(p = .coll c ∨ ∃ q, p = .link i q)) : s'.chunks p = s.chunks p := by
  obtain ⟨hcoll, hlink⟩ := not_or.1 hp
  cases p with
  | coll e => exact chunks_coll_of_ne ha hc fun h => hcoll (congrArg _ h)
  | link j q =>
    have hj : j ≠ i := fun h => hlink ⟨q, by rw [h]⟩
    simp only [Sys.chunks, ha, hl j hj]

variable [Inhabited T] {out : Out}

/-- A step keeps the chunks of the places it does not touch. -/
theorem step_untouched {a : Act ι ν δ T} (hlen : afXdpReserved ≤ s.area.bufLen)
    (h : step s a = some (s', out)) {p : Place ι ν δ} (hp : ¬a.Touches p) :
    s'.chunks p = s.chunks p := by
  cases a with
  | fill i v batchSize granted =>
    obtain ⟨rfl, -⟩ := step_fill_inv h
    refine chunks_untouched ?_ (afterFill_coll v _) ?_ hp
    · rfl
    · exact fun j hj => Function.update_of_ne hj _ _
  | tryRecv i d batchSize user grant =>
    obtain ⟨rfl, hret, -⟩ := step_tryRecv_inv hlen h
    obtain ⟨hused, hroom⟩ := recvCount_le s i d batchSize grant
    refine chunks_untouched ?_ (afterRecv_coll d user (hret ▸ hused) (hret ▸ hroom)) ?_ hp
    · rfl
    · exact fun j hj => Function.update_of_ne hj _ _
  | trySend i d batchSize granted send =>
    obtain ⟨rfl, -⟩ := step_trySend_inv h
    refine chunks_untouched ?_ (afterSend_coll d _) ?_ hp
    · rfl
    · exact fun j hj => Function.update_of_ne hj _ _
  | service i v batchSize grant =>
    obtain ⟨rfl, -⟩ := step_service_inv hlen h
    refine chunks_untouched ?_ (afterService_coll v _) ?_ hp
    · rfl
    · exact fun j hj => Function.update_of_ne hj _ _
  | move c j c' k spare =>
    obtain ⟨hc, hc'⟩ := not_or.1 hp
    obtain ⟨b, -, ⟨l, -, hcoll⟩, ha, -, hl, -⟩ := step_move_inv h
    cases p with
    | coll e =>
      have he : e ≠ c := fun h => hc (congrArg _ h)
      have he' : e ≠ c' := fun h => hc' (congrArg _ h)
      simp only [Sys.chunks, ha, hcoll, Function.update_of_ne he', Function.update_of_ne he]
    | link i q => simp only [Sys.chunks, ha, hl]
  | setLen c j len => rw [modify_chunks (.inl ⟨len, rfl⟩) h]
  | setUser c j user => rw [modify_chunks (.inr ⟨user, rfl⟩) h]
  | write c j off byte =>
    obtain ⟨b, -, -, rfl⟩ := step_write_inv h
    cases p <;> rfl
  | kernel i k =>
    obtain ⟨mem, l, hi, -, rfl⟩ := step_kernel_inv h
    cases p with
    | coll e => rfl
    | link j q =>
      have hj : j ≠ i := fun hj => hp ⟨q, by rw [hj]⟩
      simp only [Sys.chunks, Function.update_of_ne hj]

end

/-! ## Places of a worker -/

instance : Fintype Pos := ⟨{.first, .second}, fun pos => by cases pos <;> decide⟩

instance : Fintype Side := ⟨{.fill, .krx, .rx, .tx, .ktx, .comp}, fun q => by cases q <;> decide⟩

section
variable {W : Type}

/-- The worker that a place belongs to; the pool belongs to none. -/
def Place.owner : Place (W × Pos) (Option W) (W × Pos) → Option W
  | .coll (.vec v) => v
  | .coll (.deque d) => some d.1
  | .link i _ => some i.1

/-- The worker whose call it is, or on whose link the kernel is. -/
def FwdAct.worker : FwdAct W → W
  | .getBufs w | .initialFill w _ | .command w _ | .service w _ | .tryRecv w _ | .forward w _ _
  | .fill w _ | .kernel w _ _ => w

variable [DecidableEq W]

/-- The places of a worker. -/
def Place.ofWorker (w : W) : Finset (Place (W × Pos) (Option W) (W × Pos)) :=
  insert (.coll (.vec (some w))) (Finset.univ.image (fun pos => .coll (.deque (w, pos))) ∪
    Finset.univ.image fun p : Pos × Side => .link (w, p.1) p.2)

theorem Place.mem_ofWorker {w : W} {p : Place (W × Pos) (Option W) (W × Pos)} :
    p ∈ ofWorker w ↔ p.owner = some w := by
  rcases p with (v | ⟨v, pos⟩) | ⟨⟨v, pos⟩, q⟩
  · simp [ofWorker, owner]
  · simp [ofWorker, owner, eq_comm]
  · simp [ofWorker, owner, eq_comm]

/-- The chunks of a worker. -/
def Sys.owned (s : FwdSys W) (w : W) : Multiset Nat := ∑ p ∈ Place.ofWorker w, s.chunks p

theorem Sys.mem_owned {s : FwdSys W} {w : W} {k : Nat} :
    k ∈ s.owned w ↔ ∃ p, p.owner = some w ∧ k ∈ s.chunks p := by
  simp only [owned, Multiset.mem_sum, Place.mem_ofWorker]

variable {pr : Profile} {opt : FwdOpt} {f f' : Forwarder W} {u : Unit}

/-- What the step of a worker touches is the worker's, or the pool's if it takes buffers. -/
theorem fwdStep_untouched {a : FwdAct W} (hlen : afXdpReserved ≤ f.sys.area.bufLen)
    (h : fwdStep pr opt f a = some (f', u)) {p : Place (W × Pos) (Option W) (W × Pos)}
    (hp : p.owner ≠ some a.worker) (hpool : p.owner = none → a ≠ .getBufs a.worker) :
    f'.sys.chunks p = f.sys.chunks p := by
  cases a with
  | getBufs w =>
    obtain ⟨-, num, n, -, -, rfl⟩ := fwdStep_getBufs_inv h
    rcases p with (v | d) | ⟨i, q⟩
    · have hv : v ≠ some w := fun hv => hp hv
      have hv' : v ≠ none := fun hv => hpool hv rfl
      simp only [Forwarder.set, Sys.chunks, Sys.coll, Function.update_of_ne hv,
        Function.update_of_ne hv']
    · rfl
    · rfl
  | initialFill w granted =>
    obtain ⟨pos, s, out, -, hs, -, rfl⟩ := fwdStep_initialFill_inv h
    refine step_untouched hlen hs ?_
    rintro (rfl | ⟨q, rfl⟩) <;> exact hp rfl
  | command w cmd =>
    obtain ⟨-, rfl⟩ := fwdStep_command_inv h
    rfl
  | service w grant =>
    obtain ⟨pos, s, out, -, hs, rfl⟩ := fwdStep_service_inv h
    refine step_untouched hlen hs ?_
    rintro (rfl | ⟨q, rfl⟩) <;> exact hp rfl
  | tryRecv w grant =>
    obtain ⟨pos, s, out, -, hs, rfl⟩ := fwdStep_tryRecv_inv h
    refine step_untouched hlen hs ?_
    rintro (rfl | ⟨q, rfl⟩) <;> exact hp rfl
  | forward w granted send =>
    obtain ⟨pos, -, rfl | ⟨s, out, hs, rfl⟩⟩ := fwdStep_forward_inv h
    · rfl
    · refine step_untouched hlen hs ?_
      rintro (rfl | ⟨q, rfl⟩) <;> exact hp rfl
  | fill w granted =>
    obtain ⟨pos, -, ⟨-, rfl⟩ | ⟨-, s, out, hs, -, rfl⟩⟩ := fwdStep_fill_inv h
    · rfl
    · refine step_untouched hlen hs ?_
      rintro (rfl | ⟨q, rfl⟩) <;> exact hp rfl
  | kernel w pos k =>
    obtain ⟨s, out, hs, rfl⟩ := fwdStep_kernel_inv h
    refine step_untouched hlen hs ?_
    rintro ⟨q, rfl⟩
    exact hp rfl

/-- A step other than taking buffers moves buffers between places or leaves them. -/
theorem fwdStep_shifts {a : FwdAct W} (hlen : afXdpReserved < f.sys.area.bufLen)
    (h : fwdStep pr opt f a = some (f', u)) (ha : a ≠ .getBufs a.worker) :
    Shifts f.sys.chunks f'.sys.chunks := by
  cases a with
  | getBufs w => exact absurd rfl ha
  | initialFill w granted =>
    obtain ⟨pos, s, out, -, hs, -, rfl⟩ := fwdStep_initialFill_inv h
    exact step_shifts hlen hs
  | command w cmd =>
    obtain ⟨-, rfl⟩ := fwdStep_command_inv h
    exact .inl rfl
  | service w grant =>
    obtain ⟨pos, s, out, -, hs, rfl⟩ := fwdStep_service_inv h
    exact step_shifts hlen hs
  | tryRecv w grant =>
    obtain ⟨pos, s, out, -, hs, rfl⟩ := fwdStep_tryRecv_inv h
    exact step_shifts hlen hs
  | forward w granted send =>
    obtain ⟨pos, -, rfl | ⟨s, out, hs, rfl⟩⟩ := fwdStep_forward_inv h
    · exact .inl rfl
    · exact step_shifts hlen hs
  | fill w granted =>
    obtain ⟨pos, -, ⟨-, rfl⟩ | ⟨-, s, out, hs, -, rfl⟩⟩ := fwdStep_fill_inv h
    · exact .inl rfl
    · exact step_shifts hlen hs
  | kernel w pos k =>
    obtain ⟨s, out, hs, rfl⟩ := fwdStep_kernel_inv h
    exact step_shifts hlen hs

/-- A step leaves a worker that does not take buffers with those it has. -/
theorem fwdStep_owned {a : FwdAct W} (hlen : afXdpReserved < f.sys.area.bufLen)
    (h : fwdStep pr opt f a = some (f', u)) {w : W} (ha : a ≠ .getBufs w) :
    f'.sys.owned w = f.sys.owned w := by
  rcases eq_or_ne w a.worker with rfl | hw
  · refine (fwdStep_shifts hlen h ha).sum_of_frame fun p hp => ?_
    rw [Place.mem_ofWorker] at hp
    exact fwdStep_untouched (Nat.le_of_lt hlen) h hp fun _ => ha
  · refine Finset.sum_congr rfl fun p hp => ?_
    rw [Place.mem_ofWorker] at hp
    refine fwdStep_untouched (Nat.le_of_lt hlen) h ?_ fun hnone => ?_
    · rw [hp]
      exact fun heq => hw (Option.some.inj heq)
    · rw [hp] at hnone
      cases hnone

/-- A worker that took its buffers does not take more. -/
theorem FwdAct.ne_getBufs {a : FwdAct W} (h : fwdStep pr opt f a = some (f', u)) {w : W}
    (hpc : (f.workers w).pc ≠ .getBufs) : a ≠ .getBufs w := by
  rintro rfl
  exact hpc (fwdStep_getBufs_inv h).1

omit [DecidableEq W] in
theorem FwdOpt.loopHead_ne (opt : FwdOpt) : opt.loopHead ≠ .getBufs := by
  rw [loopHead]
  split <;> simp

/-- Only by taking buffers a worker gets past that, and none goes back there. -/
theorem fwdStep_waiting {a : FwdAct W} (h : fwdStep pr opt f a = some (f', u)) {w : W}
    (ha : a ≠ .getBufs w) : (f'.workers w).pc = .getBufs ↔ (f.workers w).pc = .getBufs := by
  have hset : ∀ {v : W} {p : FwdSys W × FwdWorker}, (f.workers v).pc ≠ .getBufs →
      p.2.pc ≠ .getBufs → (((f.set v p).workers w).pc = .getBufs ↔
        (f.workers w).pc = .getBufs) := by
    intro v p hv hp
    exact Forwarder.forall_set (f := f) (w := v) (p := p)
      (P := fun w wk => wk.pc = .getBufs ↔ (f.workers w).pc = .getBufs) (fun _ => Iff.rfl)
      (iff_of_false hp hv) w
  cases a with
  | getBufs v =>
    obtain ⟨-, num, n, -, -, rfl⟩ := fwdStep_getBufs_inv h
    rw [Forwarder.set_of_ne f fun hv => ha (by rw [hv])]
  | initialFill v granted =>
    obtain ⟨pos, s, out, hpc, -, -, rfl⟩ := fwdStep_initialFill_inv h
    refine hset (by simp [hpc]) ?_
    cases pos with
    | first => simp [FwdOpt.nextFill]
    | second => exact opt.loopHead_ne
  | command v cmd =>
    obtain ⟨hpc, rfl⟩ := fwdStep_command_inv h
    refine hset (by simp [hpc]) ?_
    show (if cmd = some .exit then FwdPc.exited else .service .first) ≠ .getBufs
    split <;> simp
  | service v grant =>
    obtain ⟨pos, s, out, hpc, -, rfl⟩ := fwdStep_service_inv h
    exact hset (by simp [hpc]) (by simp)
  | tryRecv v grant =>
    obtain ⟨pos, s, out, hpc, -, rfl⟩ := fwdStep_tryRecv_inv h
    exact hset (by simp [hpc]) (by simp)
  | forward v granted send =>
    obtain ⟨pos, hpc, rfl | ⟨s, out, -, rfl⟩⟩ := fwdStep_forward_inv h
    · exact hset (by simp [hpc]) (by simp)
    · exact hset (by simp [hpc]) (by simp)
  | fill v granted =>
    have hnext : ∀ pos, opt.nextLink pos ≠ .getBufs := by
      rintro (_ | _)
      · simp [FwdOpt.nextLink]
      · exact opt.loopHead_ne
    obtain ⟨pos, hpc, ⟨-, rfl⟩ | ⟨-, s, out, -, -, rfl⟩⟩ := fwdStep_fill_inv h
    · exact hset (by simp [hpc]) (hnext pos)
    · exact hset (by simp [hpc]) (hnext pos)
  | kernel v pos k =>
    obtain ⟨s, out, -, rfl⟩ := fwdStep_kernel_inv h
    exact Iff.rfl

/-! ## Runs -/

/-- Places of different workers are different. -/
theorem Place.disjoint_ofWorker {w v : W} (h : w ≠ v) : Disjoint (ofWorker w) (ofWorker v) := by
  refine Finset.disjoint_left.2 fun p hw hv => h ?_
  rw [mem_ofWorker] at hw hv
  exact Option.some.inj (hw.symm.trans hv)

/-- The chunks of an area that `new` made are conserved by every run. -/
theorem run_conserved {bufNum bufLen : Nat} {s₀ : FwdSys W} {v₀ : Option W} {as : List (FwdAct W)}
    {outs : List Unit} (hlen : afXdpReserved < bufLen)
    (hs : s₀.Start ⟨bufNum, bufLen⟩ v₀ (MmapArea.chunkVec bufNum bufLen))
    (hrun : run (fwdStep pr opt) (.start opt s₀) as = some (f, outs)) :
    Conserved ⟨bufNum, bufLen⟩ ((MmapArea.chunkVec (T := Unit) bufNum bufLen).chunkSet bufLen)
      f.sys := by
  refine (fwdStep_invariant (J := fun _ => True) (fun s a s' out hc hstep => ?_)
    (fun _ _ _ _ _ _ _ => trivial) ?_ trivial hrun).1
  · exact hc.step hlen hstep
  · exact Conserved.start hlen (List.Subperm.refl _) hs

/-- Take any run of the workers over an area that `new` made, and look at two states of it. Every
chunk of the area is in the pool or with one worker, no chunk is with two workers, and a worker that
took its buffers before the first state has the same chunks in both. -/
theorem run_isolated {p : Profile} {mmap : Nat → Nat → Bool} {bufNum bufLen : Nat}
    {options : MmapAreaOptions} {area : MmapArea} {b : Vec (BufMmap Unit)} {s₀ : FwdSys W}
    {v₀ : Option W} {as as' : List (FwdAct W)} {outs outs' : List Unit}
    (hlen : afXdpReserved < bufLen) (hsize : bufNum * bufLen < 2 ^ 64)
    (hnew : MmapArea.new p mmap bufNum bufLen options = .ok (.ok (area, b)))
    (hs : s₀.Start area v₀ b) (hrun : run (fwdStep pr opt) (.start opt s₀) as = some (f, outs))
    (hrun' : run (fwdStep pr opt) f as' = some (f', outs')) :
    (∀ k, k < bufNum → k ∈ f.sys.chunks (.coll (.vec none)) ∨ ∃ w, k ∈ f.sys.owned w) ∧
    (∀ w, (f.sys.owned w).Nodup ∧ ∀ v, w ≠ v → Disjoint (f.sys.owned w) (f.sys.owned v)) ∧
    ∀ w, (f.workers w).pc ≠ .getBufs → f'.sys.owned w = f.sys.owned w := by
  obtain ⟨rfl, rfl⟩ := MmapArea.new_inv hsize (Nat.le_of_lt hlen) hnew
  have hc := run_conserved hlen hs hrun
  refine ⟨?_, ?_, ?_⟩
  · intro k hk
    have hkS : k ∈ (MmapArea.chunkVec (T := Unit) bufNum bufLen).chunkSet bufLen := by
      rw [Vec.chunkSet, chunksOf_chunkVec hlen, Multiset.mem_toFinset]
      exact Multiset.mem_coe.2 (List.mem_range.2 hk)
    obtain ⟨q, hq⟩ := (hc.present k).2 hkS
    cases hown : q.owner with
    | some w => exact .inr ⟨w, Sys.mem_owned.2 ⟨q, hown, hq⟩⟩
    | none =>
      refine .inl ?_
      rcases q with (v | d) | ⟨i, r⟩
      · cases hown
        exact hq
      · cases hown
      · cases hown
  · intro w
    exact ⟨hc.custody.nodup_sum _, fun v hwv =>
      hc.custody.disjoint_sum (Place.disjoint_ofWorker hwv)⟩
  · intro w hpc
    have hI : ∀ g a g' u, (g.sys.area = ⟨bufNum, bufLen⟩ ∧ (g.workers w).pc ≠ .getBufs ∧
        g.sys.owned w = f.sys.owned w) → fwdStep pr opt g a = some (g', u) →
        (g'.sys.area = ⟨bufNum, bufLen⟩ ∧ (g'.workers w).pc ≠ .getBufs ∧
          g'.sys.owned w = f.sys.owned w) := by
      rintro g a g' u ⟨harea, hpc, howned⟩ hstep
      have hlen' : afXdpReserved < g.sys.area.bufLen := by rwa [harea]
      have ha := FwdAct.ne_getBufs hstep hpc
      refine ⟨?_, mt (fwdStep_waiting hstep ha).1 hpc,
        (fwdStep_owned hlen' hstep ha).trans howned⟩
      refine fwdStep_keeps (I := fun s => s.area = ⟨bufNum, bufLen⟩) ?_ harea hstep
      intro s a s' out harea hs
      exact (step_area (by rw [harea]; exact Nat.le_of_lt hlen) hs).trans harea
    exact (run_invariant (Q := fun _ => True) (fun g a g' u _ => hI g a g' u)
      ⟨hc.areaEq, hpc, rfl⟩ (fun _ _ => trivial) hrun').2.2

/-! ## How many workers there is room for -/

omit [DecidableEq W] in
theorem Sys.card_chunks_link (s : FwdSys W) (i : W × Pos) :
    (s.chunks (.link i .fill)).card + (s.chunks (.link i .krx)).card +
      (s.chunks (.link i .rx)).card =
        (s.link i).fq.used + (s.link i).krx.length + (s.link i).rx.used := by
  simp [chunks, chunksOf, Link.addrs]

/-- What the kernel has to receive into, and what it received, is a part of a worker's buffers. -/
theorem Sys.le_card_owned (s : FwdSys W) (w : W) :
    ((s.link (w, .first)).fq.used + (s.link (w, .first)).krx.length +
        (s.link (w, .first)).rx.used) +
      ((s.link (w, .second)).fq.used + (s.link (w, .second)).krx.length +
        (s.link (w, .second)).rx.used) ≤ (s.owned w).card := by
  have hsub : ({.link (w, .first) .fill, .link (w, .first) .krx, .link (w, .first) .rx,
      .link (w, .second) .fill, .link (w, .second) .krx, .link (w, .second) .rx} : Finset _) ⊆
        Place.ofWorker w := by
    intro p hp
    simp only [Finset.mem_insert, Finset.mem_singleton] at hp
    rw [Place.mem_ofWorker]
    rcases hp with rfl | rfl | rfl | rfl | rfl | rfl <;> rfl
  have hle := Finset.sum_le_sum_of_subset (f := fun p => (s.chunks p).card) hsub
  rw [owned, Multiset.card_sum, ← s.card_chunks_link, ← s.card_chunks_link]
  refine Nat.le_trans (Nat.le_of_eq ?_) hle
  simp [Finset.sum_insert]
  omega

/-- A worker that is not in its loop yet was not refilled, and one that is has its initial fills. -/
structure Forwarder.Admits (opt : FwdOpt) (f : Forwarder W) (w : W) : Prop where
  before : (f.workers w).pc.filled .second = false → ∀ pos, (f.workers w).fqDeficit pos = 0
  loop : (f.workers w).pc.filled .second = true → 2 * opt.initialFillNum ≤ (f.sys.owned w).card

/-- Before the loop no deficit changes, and no worker goes back there. -/
theorem fwdStep_filled {a : FwdAct W} (h : fwdStep pr opt f a = some (f', u)) (w : W) :
    ((f.workers w).pc.filled .second = false ∧
        (f'.workers w).fqDeficit = (f.workers w).fqDeficit) ∨
      (f.workers w).pc.filled .second = true ∧ (f'.workers w).pc.filled .second = true := by
  have hset : ∀ {v : W} {p : FwdSys W × FwdWorker},
      ((f.workers v).pc.filled .second = false ∧ p.2.fqDeficit = (f.workers v).fqDeficit) ∨
        (f.workers v).pc.filled .second = true ∧ p.2.pc.filled .second = true →
      ((f.workers w).pc.filled .second = false ∧
          ((f.set v p).workers w).fqDeficit = (f.workers w).fqDeficit) ∨
        (f.workers w).pc.filled .second = true ∧
          ((f.set v p).workers w).pc.filled .second = true := by
    intro v p hp
    refine Forwarder.forall_set (f := f) (w := v) (p := p) (P := fun w wk =>
      ((f.workers w).pc.filled .second = false ∧ wk.fqDeficit = (f.workers w).fqDeficit) ∨
        (f.workers w).pc.filled .second = true ∧ wk.pc.filled .second = true) ?_ hp w
    intro w
    cases hpc : (f.workers w).pc.filled .second with
    | false => exact .inl ⟨rfl, rfl⟩
    | true => exact .inr ⟨rfl, rfl⟩
  cases a with
  | getBufs v =>
    obtain ⟨hpc, num, n, -, -, rfl⟩ := fwdStep_getBufs_inv h
    exact hset (.inl ⟨by rw [hpc]; rfl, rfl⟩)
  | initialFill v granted =>
    obtain ⟨pos, s, out, hpc, -, -, rfl⟩ := fwdStep_initialFill_inv h
    exact hset (.inl ⟨by rw [hpc]; cases pos <;> rfl, rfl⟩)
  | command v cmd =>
    obtain ⟨hpc, rfl⟩ := fwdStep_command_inv h
    refine hset (.inr ⟨by rw [hpc]; rfl, ?_⟩)
    show (if cmd = some .exit then FwdPc.exited else .service .first).filled .second = true
    split <;> rfl
  | service v grant =>
    obtain ⟨pos, s, out, hpc, -, rfl⟩ := fwdStep_service_inv h
    exact hset (.inr ⟨by rw [hpc]; rfl, rfl⟩)
  | tryRecv v grant =>
    obtain ⟨pos, s, out, hpc, -, rfl⟩ := fwdStep_tryRecv_inv h
    exact hset (.inr ⟨by rw [hpc]; rfl, rfl⟩)
  | forward v granted send =>
    obtain ⟨pos, hpc, rfl | ⟨s, out, -, rfl⟩⟩ := fwdStep_forward_inv h
    · exact hset (.inr ⟨by rw [hpc]; rfl, rfl⟩)
    · exact hset (.inr ⟨by rw [hpc]; rfl, rfl⟩)
  | fill v granted =>
    obtain ⟨pos, hpc, ⟨-, rfl⟩ | ⟨-, s, out, -, -, rfl⟩⟩ := fwdStep_fill_inv h
    · exact hset (.inr ⟨by rw [hpc]; rfl, FwdOpt.nextLink_filled _ _⟩)
    · exact hset (.inr ⟨by rw [hpc]; rfl, FwdOpt.nextLink_filled _ _⟩)
  | kernel v pos k =>
    obtain ⟨s, out, -, rfl⟩ := fwdStep_kernel_inv h
    cases hpc : (f.workers w).pc.filled .second with
    | false => exact .inl ⟨rfl, rfl⟩
    | true => exact .inr ⟨rfl, rfl⟩

/-- Every step keeps that. -/
theorem Forwarder.Admits.step {a : FwdAct W} (hlen : afXdpReserved < f.sys.area.bufLen)
    (hbooks : f'.Books opt) {w : W} (hf : f.Admits opt w) (h : fwdStep pr opt f a = some (f', u)) :
    f'.Admits opt w := by
  rcases fwdStep_filled h w with ⟨hbefore, hdeficit⟩ | ⟨hthen, hnow⟩
  · have hzero : ∀ pos, (f'.workers w).fqDeficit pos = 0 := by
      rw [hdeficit]
      exact hf.before hbefore
    refine ⟨fun _ => hzero, fun hloop => ?_⟩
    -- the initial fills are still with the kernel
    have hfirst := (hbooks w .first).supply ?_
    · have hsecond := (hbooks w .second).supply hloop
      have hle := f'.sys.le_card_owned w
      rw [hzero] at hfirst hsecond
      omega
    · cases hpc : (f'.workers w).pc with
      | initialFill pos =>
        rw [hpc] at hloop
        cases pos <;> cases hloop
      | getBufs =>
        rw [hpc] at hloop
        cases hloop
      | _ => rfl
  · refine ⟨fun hf => ?_, fun _ => ?_⟩
    · rw [hnow] at hf
      cases hf
    · rw [fwdStep_owned hlen h (FwdAct.ne_getBufs h fun hpc => by rw [hpc] at hthen; cases hthen)]
      exact hf.loop hthen

/-- What the workers took from the pool: all of them as many as they asked for, but one that took
what was left, and those that came too late. -/
structure Forwarder.Shared (num : Nat) (f : Forwarder W) : Prop where
  waiting : ∀ w, (f.workers w).pc = .getBufs → f.sys.owned w = 0
  short : ∀ w, (f.workers w).pc ≠ .getBufs → (f.sys.owned w).card < num →
    (f.sys.vecs none).list = []
  one : ∀ w v, w ≠ v → (f.workers w).pc ≠ .getBufs → (f.workers v).pc ≠ .getBufs →
    (f.sys.owned w).card < num → (f.sys.owned v).card < num →
      f.sys.owned w = 0 ∨ f.sys.owned v = 0

/-- A worker that had nothing has what it took. -/
theorem fwdStep_getBufs_card {w : W} {num : Nat}
    (hnum : opt.startBufs = some num) (hw : f.sys.owned w = 0)
    (h : fwdStep pr opt f (.getBufs w) = some (f', u)) :
    (f'.sys.owned w).card = min num (f.sys.vecs none).len ∧
      (f'.sys.vecs none).len = (f.sys.vecs none).len - min num (f.sys.vecs none).len := by
  have hzero : ∀ p ∈ Place.ofWorker w, f.sys.chunks p = 0 := Finset.sum_eq_zero_iff.1 hw
  have hmem : .coll (.vec (some w)) ∈ Place.ofWorker w := Place.mem_ofWorker.2 rfl
  have hempty : (f.sys.vecs (some w)).list = [] := by
    have hcard := congrArg Multiset.card (hzero _ hmem)
    simpa [Sys.chunks, chunksOf, Sys.coll] using hcard
  obtain ⟨-, num', n, hnum', hn, rfl⟩ := fwdStep_getBufs_inv h
  obtain rfl := Option.some.inj (hnum.symm.trans hnum')
  have hle : n ≤ (f.sys.vecs none).len := hn ▸ Nat.min_le_right _ _
  rw [← hn]
  constructor
  · rw [Sys.owned, Finset.sum_eq_single_of_mem _ hmem]
    · simp [Forwarder.set, Sys.chunks, chunksOf, Sys.coll, hempty, BufPoolVec.tail_length hle]
    · -- nothing else of the worker changes
      intro p hp hne
      rw [← hzero p hp]
      rcases p with (v | d) | ⟨i, q⟩
      · exact absurd (congrArg (fun v => Place.coll (Coll.vec v)) (Place.mem_ofWorker.1 hp)) hne
      · rfl
      · rfl
  · simp [Forwarder.set, Vec.dropLast, Vec.len]

/-- Before the first calls no worker is in its loop. -/
theorem Forwarder.Admits.start {s : FwdSys W} (w : W) : (Forwarder.start opt s).Admits opt w := by
  refine ⟨fun _ _ => rfl, fun hloop => ?_⟩
  have hloop' : opt.worker.pc.filled .second = true := hloop
  rw [FwdOpt.worker] at hloop'
  split at hloop' <;> cases hloop'

/-- Before the first calls nobody has buffers. -/
theorem Forwarder.Shared.start {num : Nat} {s : FwdSys W} {area : MmapArea}
    {b : Vec (BufMmap Unit)} (hs : s.Start area none b) (hnum : opt.startBufs = some num) :
    (Forwarder.start opt s).Shared num := by
  have hpc : opt.worker.pc = .getBufs := by
    rw [FwdOpt.worker, hnum]
    rfl
  refine ⟨fun w _ => ?_, fun w hw => absurd hpc hw, fun w _ _ hw => absurd hpc hw⟩
  refine Finset.sum_eq_zero fun p hp => ?_
  rw [Place.mem_ofWorker] at hp
  show s.chunks p = 0
  rcases p with (v | d) | ⟨i, q⟩
  · have hv : v ≠ none := fun hv => by
      rw [hv] at hp
      cases hp
    simp [Sys.chunks, chunksOf, Sys.coll, hs.vecs v hv]
  · simp [Sys.chunks, chunksOf, Sys.coll, hs.deques d]
  · simp [Sys.chunks, chunksOf, (hs.link i).addrs q]

/-- Every step keeps that. -/
theorem Forwarder.Shared.step {a : FwdAct W} {num : Nat} (hlen : afXdpReserved < f.sys.area.bufLen)
    (hnum : opt.startBufs = some num) (hf : f.Shared num)
    (h : fwdStep pr opt f a = some (f', u)) : f'.Shared num := by
  have howned : ∀ v, a ≠ .getBufs v → f'.sys.owned v = f.sys.owned v :=
    fun v => fwdStep_owned hlen h
  have hwaiting : ∀ v, a ≠ .getBufs v →
      ((f'.workers v).pc ≠ .getBufs → (f.workers v).pc ≠ .getBufs) :=
    fun v hv => mt (fwdStep_waiting h hv).2
  by_cases ha : a = .getBufs a.worker
  · obtain ⟨w, rfl⟩ : ∃ w, a = .getBufs w := ⟨_, ha⟩
    have hne : ∀ v, v ≠ w → FwdAct.getBufs w ≠ .getBufs v :=
      fun v hv heq => hv (FwdAct.getBufs.inj heq).symm
    have hpc := (fwdStep_getBufs_inv h).1
    obtain ⟨hcard, hpool⟩ := fwdStep_getBufs_card hnum (hf.waiting w hpc) h
    -- a worker that is short before leaves nothing for this one
    have hlate : ∀ v, v ≠ w → (f'.workers v).pc ≠ .getBufs → (f'.sys.owned v).card < num →
        (f.sys.vecs none).len = 0 := by
      intro v hv hpcv hshort
      rw [howned v (hne v hv)] at hshort
      exact congrArg List.length (hf.short v (hwaiting v (hne v hv) hpcv) hshort)
    refine ⟨?_, ?_, ?_⟩
    · intro v hv
      rcases eq_or_ne v w with rfl | hvw
      · obtain ⟨-, num, n, -, -, rfl⟩ := fwdStep_getBufs_inv h
        rw [Forwarder.set_self] at hv
        cases hv
      · rw [howned v (hne v hvw)]
        exact hf.waiting v ((fwdStep_waiting h (hne v hvw)).1 hv)
    · intro v hpcv hshort
      refine List.length_eq_zero_iff.1 ?_
      show (f'.sys.vecs none).len = 0
      rcases eq_or_ne v w with rfl | hvw
      · omega
      · have := hlate v hvw hpcv hshort
        omega
    · intro v v' hne' hpcv hpcv' hshort hshort'
      rcases eq_or_ne v w with rfl | hvw
      · have hnone := hlate v' (Ne.symm hne') hpcv' hshort'
        exact .inl (Multiset.card_eq_zero.1 (by omega))
      rcases eq_or_ne v' w with rfl | hvw'
      · have hnone := hlate v hvw hpcv hshort
        exact .inr (Multiset.card_eq_zero.1 (by omega))
      · rw [howned v (hne v hvw)] at hshort ⊢
        rw [howned v' (hne v' hvw')] at hshort' ⊢
        exact hf.one v v' hne' (hwaiting v (hne v hvw) hpcv) (hwaiting v' (hne v' hvw') hpcv')
          hshort hshort'
  · have hne : ∀ v, a ≠ .getBufs v := by
      rintro v rfl
      exact ha rfl
    have hpool : (f'.sys.vecs none).list = [] ↔ (f.sys.vecs none).list = [] := by
      have hchunks := fwdStep_untouched (Nat.le_of_lt hlen) h (p := .coll (.vec none))
        (by simp [Place.owner]) fun _ => hne _
      have hcard := congrArg Multiset.card hchunks
      simp only [Sys.chunks, chunksOf, Sys.coll, Multiset.coe_card, List.length_map] at hcard
      rw [← List.length_eq_zero_iff, hcard, List.length_eq_zero_iff]
    refine ⟨?_, ?_, ?_⟩
    · intro v hv
      rw [howned v (hne v)]
      exact hf.waiting v ((fwdStep_waiting h (hne v)).1 hv)
    · intro v hpcv hshort
      rw [howned v (hne v)] at hshort
      exact hpool.2 (hf.short v (hwaiting v (hne v) hpcv) hshort)
    · intro v v' hne' hpcv hpcv' hshort hshort'
      rw [howned v (hne v)] at hshort ⊢
      rw [howned v' (hne v')] at hshort' ⊢
      exact hf.one v v' hne' (hwaiting v (hne v) hpcv) (hwaiting v' (hne v') hpcv') hshort hshort'

/-- The workers together have no more buffers than there are. -/
theorem Conserved.sum_owned_le {bufNum bufLen : Nat} {s : FwdSys W} (hlen : afXdpReserved < bufLen)
    (hc : Conserved ⟨bufNum, bufLen⟩
      ((MmapArea.chunkVec (T := Unit) bufNum bufLen).chunkSet bufLen) s) (G : Finset W) :
    ∑ w ∈ G, (s.owned w).card ≤ bufNum := by
  calc ∑ w ∈ G, (s.owned w).card
      = (∑ p ∈ G.biUnion Place.ofWorker, s.chunks p).card := by
        rw [Finset.sum_biUnion fun w _ v _ h => Place.disjoint_ofWorker h, Multiset.card_sum]
        rfl
    _ ≤ ((MmapArea.chunkVec (T := Unit) bufNum bufLen).chunkSet bufLen).card :=
        hc.custody.card_sum_le (fun q k hk => (hc.present k).1 ⟨q, hk⟩) _
    _ = bufNum := by
        rw [Vec.chunkSet, chunksOf_chunkVec hlen,
          Multiset.toFinset_card_of_nodup (Multiset.coe_nodup.2 List.nodup_range)]
        simp

/-- Weights that are at least `n`, with one exception that is at least `m`. -/
theorem card_mul_le_sum_add {G : Finset W} {μ : W → Nat} {m n : Nat} (hm : ∀ w ∈ G, m ≤ μ w)
    (hone : ∀ w ∈ G, ∀ v ∈ G, w ≠ v → μ w < n → n ≤ μ v) :
    G.card * n ≤ ∑ w ∈ G, μ w + (n - m) := by
  by_cases hless : ∃ w ∈ G, μ w < n
  · obtain ⟨w, hw, hlt⟩ := hless
    have hrest : (G.erase w).card * n ≤ ∑ v ∈ G.erase w, μ v :=
      Finset.card_nsmul_le_sum _ _ _ fun v hv =>
        hone w hw v (Finset.mem_of_mem_erase hv) (Finset.ne_of_mem_erase hv).symm hlt
    have hsum := Finset.add_sum_erase G μ hw
    have hcard := Finset.card_erase_add_one hw
    have hleast := hm w hw
    rw [← hcard, Nat.add_mul, Nat.one_mul]
    omega
  · have hall : G.card * n ≤ ∑ v ∈ G, μ v :=
      Finset.card_nsmul_le_sum _ _ _ fun v hv => Nat.le_of_not_lt fun h => hless ⟨v, hv, h⟩
    omega

/-- Take any run of workers that take `num` buffers each from a pool with all buffers of an area.
Only one worker in its loop can have fewer, and it has those of its initial fills. This bounds how
many workers get to their loop. With the defaults of `l2fwd-2link-multicore` these are 8. -/
theorem run_admitted {p : Profile} {mmap : Nat → Nat → Bool} {bufNum bufLen num : Nat}
    {options : MmapAreaOptions} {area : MmapArea} {b : Vec (BufMmap Unit)} {s₀ : FwdSys W}
    {as : List (FwdAct W)} {outs : List Unit} (hlen : afXdpReserved < bufLen)
    (hsize : bufNum * bufLen < 2 ^ 64)
    (hnew : MmapArea.new p mmap bufNum bufLen options = .ok (.ok (area, b)))
    (hs : s₀.Start area none b) (hnum : opt.startBufs = some num) (hpos : 0 < opt.initialFillNum)
    (hrun : run (fwdStep pr opt) (.start opt s₀) as = some (f, outs)) {G : Finset W}
    (hG : ∀ w ∈ G, (f.workers w).pc.filled .second = true) :
    G.card * num ≤ bufNum + (num - 2 * opt.initialFillNum) := by
  obtain ⟨rfl, rfl⟩ := MmapArea.new_inv hsize (Nat.le_of_lt hlen) hnew
  obtain ⟨-, -, hadmits, hshared⟩ : f.sys.area = ⟨bufNum, bufLen⟩ ∧ f.Books opt ∧
      (∀ w, f.Admits opt w) ∧ f.Shared num := by
    refine fwdStep_invariant (I := fun s => s.area = ⟨bufNum, bufLen⟩)
      (J := fun f => f.Books opt ∧ (∀ w, f.Admits opt w) ∧ f.Shared num) ?_ ?_ hs.area
      ⟨.start hs, .start, .start hs hnum⟩ hrun
    · intro s a s' out harea hs
      exact (step_area (by rw [harea]; exact Nat.le_of_lt hlen) hs).trans harea
    · rintro f a f' u harea ⟨hbooks, hadmits, hshared⟩ hstep
      have hlen' : afXdpReserved < f.sys.area.bufLen := by rwa [harea]
      have hbooks' := hbooks.step (Nat.le_of_lt hlen') hstep
      exact ⟨hbooks', fun w => (hadmits w).step hlen' hbooks' hstep,
        hshared.step hlen' hnum hstep⟩
  have hloop : ∀ w ∈ G, 2 * opt.initialFillNum ≤ (f.sys.owned w).card :=
    fun w hw => (hadmits w).loop (hG w hw)
  have htook : ∀ w ∈ G, (f.workers w).pc ≠ .getBufs := by
    intro w hw hpc
    have hfilled := hG w hw
    rw [hpc] at hfilled
    cases hfilled
  have hone : ∀ w ∈ G, ∀ v ∈ G, w ≠ v → (f.sys.owned w).card < num →
      num ≤ (f.sys.owned v).card := by
    intro w hw v hv hwv hlt
    by_contra hless
    have hw2 := hloop w hw
    have hv2 := hloop v hv
    rcases hshared.one w v hwv (htook w hw) (htook v hv) hlt (Nat.lt_of_not_le hless) with h | h
    · rw [h, Multiset.card_zero] at hw2
      omega
    · rw [h, Multiset.card_zero] at hv2
      omega
  have hsum := card_mul_le_sum_add hloop hone
  have hle := (run_conserved hlen hs hrun).sum_owned_le hlen G
  omega

end

/-- Two workers that share four buffers, two each. -/
def admitRun : List (FwdAct Bool) :=
  [.getBufs true, .getBufs false, .initialFill true true, .initialFill false true,
    .initialFill false true, .initialFill true true, .kernel true .first .takeFill]

theorem admitRun_loop : (run (fwdStep .release ⟨1, some 2, true⟩)
    (.start ⟨1, some 2, true⟩ (Sys.init ⟨4, 2048⟩ none (MmapArea.chunkVec 4 2048) 4))
    admitRun).any (fun r => (r.1.workers true).pc.filled .second &&
      (r.1.workers false).pc.filled .second) = true := by
  decide +kernel

theorem run_isolated_admitRun :
    ∃ f f' outs outs', run (fwdStep .release ⟨1, some 2, true⟩)
        (.start ⟨1, some 2, true⟩ (Sys.init ⟨4, 2048⟩ none (MmapArea.chunkVec 4 2048) 4))
        (admitRun.take 2) = some (f, outs) ∧
      run (fwdStep .release ⟨1, some 2, true⟩) f (admitRun.drop 2) = some (f', outs') ∧
      (∀ k, k < 4 → k ∈ f.sys.chunks (.coll (.vec none)) ∨ ∃ w, k ∈ f.sys.owned w) ∧
      (∀ w, (f.sys.owned w).Nodup ∧ ∀ v, w ≠ v → Disjoint (f.sys.owned w) (f.sys.owned v)) ∧
      ∀ w, (f.workers w).pc ≠ .getBufs → f'.sys.owned w = f.sys.owned w := by
  have hnew : MmapArea.new (T := Unit) .release (fun _ _ => true) 4 2048 {} =
      .ok (.ok (⟨4, 2048⟩, MmapArea.chunkVec 4 2048)) :=
    MmapArea.new_ok (by decide) (by decide) rfl
  have hboth : ((run (fwdStep .release ⟨1, some 2, true⟩)
      (.start ⟨1, some 2, true⟩ (Sys.init ⟨4, 2048⟩ none (MmapArea.chunkVec 4 2048) 4))
      (admitRun.take 2)).bind fun r =>
        run (fwdStep .release ⟨1, some 2, true⟩) r.1 (admitRun.drop 2)).isSome = true := by
    decide +kernel
  obtain ⟨⟨f', outs'⟩, hboth⟩ := Option.isSome_iff_exists.1 hboth
  obtain ⟨⟨f, outs⟩, hrun, hrun'⟩ := Option.bind_eq_some_iff.1 hboth
  exact ⟨f, f', outs, outs', hrun, hrun',
    run_isolated (by decide) (by decide) hnew (Sys.init_start _ _ _ _) hrun hrun'⟩

theorem run_admitted_admitRun :
    ∃ f outs, run (fwdStep .release ⟨1, some 2, true⟩)
        (.start ⟨1, some 2, true⟩ (Sys.init ⟨4, 2048⟩ none (MmapArea.chunkVec 4 2048) 4))
        admitRun = some (f, outs) ∧
      (∀ w ∈ Finset.univ, (f.workers w).pc.filled .second = true) ∧
      (Finset.univ : Finset Bool).card * 2 ≤ 4 + (2 - 2 * 1) := by
  have hnew : MmapArea.new (T := Unit) .release (fun _ _ => true) 4 2048 {} =
      .ok (.ok (⟨4, 2048⟩, MmapArea.chunkVec 4 2048)) :=
    MmapArea.new_ok (by decide) (by decide) rfl
  obtain ⟨⟨f, outs⟩, hrun, hloop⟩ := (Option.any_eq_true _ _).1 admitRun_loop
  rw [Bool.and_eq_true] at hloop
  have hall : ∀ w ∈ (Finset.univ : Finset Bool), (f.workers w).pc.filled .second = true := by
    rintro (_ | _) -
    · exact hloop.2
    · exact hloop.1
  exact ⟨f, outs, hrun, hall, run_admitted (by decide) (by decide) hnew
    (Sys.init_start _ _ _ _) rfl (by decide) hrun hall⟩

/-- The defaults of `l2fwd-2link-multicore`. -/
example : (65536 + (8192 - 2 * l2fwd2linkMulticore.initialFillNum)) / 8192 = 8 := by decide

end Afxdp
