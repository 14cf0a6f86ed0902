import Afxdp.BufPool
import Afxdp.Lib.Custody
import Afxdp.Lib.Run
import Mathlib.Data.Fintype.Option

/-!
# A pool shared by workers

Any number of workers, each with a vector of its own, share one `BufPoolVec` behind a mutex, so
their calls happen one after the other in any order. A call moves a block of buffers between the
pool and the caller's vector and changes nothing else (`PoolAct.Moved`, `PoolSys.step_moved`). So
over a run no buffer is lost or duplicated, and the length of the pool is what the returned counts
add up to (`run_pool`).
-/

namespace Afxdp

open Run (run run_invariant run_balance)
open Tokens (Custody Moves Shifts)

variable {ν α : Type}

/-- `Vec::remove`. -/
def Vec.remove (v : Vec α) (j : Nat) : Vec α :=
  ⟨v.list.eraseIdx j, v.capacity, Nat.le_trans (List.length_eraseIdx_le _ _) v.le⟩

/-- The pool and the vectors of the workers. -/
structure PoolSys (ν α : Type) where
  pool : BufPoolVec α
  vecs : ν → Vec α

/-- A call of a worker. -/
inductive PoolAct (ν : Type)
  | get (w : ν) (num : Nat)
  | put (w : ν) (num : Nat)
  /-- `put_buf` with the `j`-th buffer of the worker's vector. -/
  | putBuf (w : ν) (j : Nat)
deriving DecidableEq, Repr

/-- The worker that makes the call. -/
def PoolAct.worker : PoolAct ν → ν
  | .get w _ | .put w _ | .putBuf w _ => w

namespace PoolSys

/-- A call, and what it returned. A call that panics, or with a buffer that the worker does not
have, has no successor. -/
def step [DecidableEq ν] (p : Profile) (s : PoolSys ν α) : PoolAct ν → Option (PoolSys ν α × Nat)
  | .get w num =>
    match s.pool.get p (s.vecs w) num with
    | .ok (r, pool, bufs) => some (⟨pool, Function.update s.vecs w bufs⟩, r)
    | .error _ => none
  | .put w num =>
    match s.pool.put p (s.vecs w) num with
    | .ok (r, pool, bufs) => some (⟨pool, Function.update s.vecs w bufs⟩, r)
    | .error _ => none
  | .putBuf w j =>
    match (s.vecs w).list[j]? with
    | some b =>
      let (r, pool) := s.pool.putBuf b
      some (⟨pool, Function.update s.vecs w ((s.vecs w).remove j)⟩, r)
    | none => none

/-- The buffers in the pool (`none`) and in the vector of a worker. -/
def contents (s : PoolSys ν α) : Option ν → Multiset α
  | none => s.pool.bufs.list
  | some w => (s.vecs w).list

end PoolSys

/-! ## What a call moves -/

/-- A block of `r` elements, at most `num`, went from the end of one list to the end of another in
the same order, and fewer than `num` only if nothing is left. -/
structure TailMoved (src src' dst dst' : List α) (num r : Nat) : Prop where
  block : ∃ block, block.length = r ∧ src = src' ++ block ∧ dst' = dst ++ block
  le : r ≤ num
  short : r < num → src' = []

/-- What a call that returned `r` did: it moved `r` buffers between the pool and the caller's
vector, and it left the vectors of the other workers alone. -/
def PoolAct.Moved (s s' : PoolSys ν α) (r : Nat) (a : PoolAct ν) : Prop :=
  (∀ u, u ≠ a.worker → s'.vecs u = s.vecs u) ∧
  match a with
  | .get w num =>
    TailMoved s.pool.bufs.list s'.pool.bufs.list (s.vecs w).list (s'.vecs w).list num r
  | .put w num =>
    TailMoved (s.vecs w).list (s'.vecs w).list s.pool.bufs.list s'.pool.bufs.list num r
  | .putBuf w j => ∃ b, (s.vecs w).list[j]? = some b ∧ r = 1 ∧
    (s'.vecs w).list = (s.vecs w).list.eraseIdx j ∧ s'.pool.bufs.list = s.pool.bufs.list ++ [b]

/-- What `get` and `put` share moves a block. -/
theorem BufPoolVec.moveTail_moved {p : Profile} {src dst src' dst' : Vec α} {num r : Nat}
    (h : moveTail p src dst num = .ok (r, src', dst')) :
    TailMoved src.list src'.list dst.list dst'.list num r := by
  rw [moveTail_eq] at h
  cases h
  have hle : min num src.len ≤ src.len := Nat.min_le_right _ _
  refine ⟨⟨tail src (min num src.len), tail_length hle, ?_, ?_⟩, Nat.min_le_left _ _, ?_⟩
  · exact (dropLast_append_tail src _).symm
  · exact Vec.pushAll_list _ _
  · intro hlt
    have hall : min num src.len = src.len := by omega
    show src.list.take (src.len - min num src.len) = []
    rw [hall, Nat.sub_self, List.take_zero]

section
variable [DecidableEq ν] {p : Profile} {s s' : PoolSys ν α} {a : PoolAct ν} {r : Nat}

/-- Every call moves what it returns. -/
theorem PoolSys.step_moved (h : s.step p a = some (s', r)) : a.Moved s s' r := by
  cases a with
  | get w num =>
    have hm := BufPoolVec.moveTail_eq p s.pool.bufs (s.vecs w) num
    simp only [step, BufPoolVec.get_of hm, Option.some.injEq, Prod.mk.injEq] at h
    obtain ⟨rfl, rfl⟩ := h
    refine ⟨fun u hu => Function.update_of_ne hu _ _, ?_⟩
    simp only [Function.update_self]
    exact BufPoolVec.moveTail_moved hm
  | put w num =>
    have hm := BufPoolVec.moveTail_eq p (s.vecs w) s.pool.bufs num
    simp only [step, BufPoolVec.put_of hm, Option.some.injEq, Prod.mk.injEq] at h
    obtain ⟨rfl, rfl⟩ := h
    refine ⟨fun u hu => Function.update_of_ne hu _ _, ?_⟩
    simp only [Function.update_self]
    exact BufPoolVec.moveTail_moved hm
  | putBuf w j =>
    simp only [step] at h
    split at h
    · next b hb =>
        simp only [Option.some.injEq, Prod.mk.injEq] at h
        obtain ⟨rfl, rfl⟩ := h
        refine ⟨fun u hu => Function.update_of_ne hu _ _, b, hb, rfl, ?_, rfl⟩
        simp only [Function.update_self]
        rfl
    · cases h

/-- `get` and `put` never panic. -/
theorem PoolSys.step_isSome (p : Profile) (s : PoolSys ν α) (w : ν) (num : Nat) :
    (s.step p (.get w num)).isSome ∧ (s.step p (.put w num)).isSome := by
  have hget := BufPoolVec.get_of (BufPoolVec.moveTail_eq p s.pool.bufs (s.vecs w) num)
  have hput := BufPoolVec.put_of (BufPoolVec.moveTail_eq p (s.vecs w) s.pool.bufs num)
  constructor
  · simp only [step, hget, Option.isSome_some]
  · simp only [step, hput, Option.isSome_some]

omit [DecidableEq ν] in
/-- A block that moves between the ends of two lists moves between their multisets. -/
theorem TailMoved.coe {src src' dst dst' : List α} {num : Nat}
    (h : TailMoved src src' dst dst' num r) :
    ∃ m : Multiset α, (src : Multiset α) = src' + m ∧ (dst' : Multiset α) = dst + m := by
  obtain ⟨block, -, rfl, rfl⟩ := h.block
  exact ⟨block, (Multiset.coe_add _ _).symm, (Multiset.coe_add _ _).symm⟩

/-- So buffers move between two places, or none moves. -/
theorem PoolSys.step_shifts (h : s.step p a = some (s', r)) : Shifts s.contents s'.contents := by
  obtain ⟨hframe, hmoved⟩ := step_moved h
  have hrest : ∀ q, q ≠ none → q ≠ some a.worker → s'.contents q = s.contents q := by
    intro q hq hw
    cases q with
    | none => exact absurd rfl hq
    | some u =>
      have hu : u ≠ a.worker := fun hu => hw (congrArg _ hu)
      simp only [contents, hframe u hu]
  cases a with
  | get w num =>
    obtain ⟨m, hsrc, hdst⟩ := TailMoved.coe hmoved
    exact .inr ⟨none, some w, m, ⟨by simp, hsrc, hdst, hrest⟩⟩
  | put w num =>
    obtain ⟨m, hsrc, hdst⟩ := TailMoved.coe hmoved
    exact .inr ⟨some w, none, m, ⟨by simp, hsrc, hdst, fun q hw hq => hrest q hq hw⟩⟩
  | putBuf w j =>
    obtain ⟨b, hb, -, hvec, hpool⟩ := hmoved
    obtain ⟨hj, rfl⟩ := List.getElem?_eq_some_iff.1 hb
    refine .inr ⟨some w, none, {(s.vecs w).list[j]}, by simp, ?_, ?_,
      fun q hw hq => hrest q hq hw⟩
    · show ((s.vecs w).list : Multiset α) = (s'.vecs w).list + _
      rw [hvec, Multiset.add_comm]
      exact (Multiset.coe_eq_coe.2 (List.getElem_cons_eraseIdx_perm hj)).symm
    · show (s'.pool.bufs.list : Multiset α) = s.pool.bufs.list + _
      rw [hpool]
      exact (Multiset.coe_add _ _).symm

/-! ## Runs -/

/-- What a call added to the pool by its returned count. -/
def PoolAct.added (a : PoolAct ν) (r : Nat) : Nat :=
  match a with
  | .get _ _ => 0
  | .put _ _ | .putBuf _ _ => r

/-- What a call took from the pool by its returned count. -/
def PoolAct.taken (a : PoolAct ν) (r : Nat) : Nat :=
  match a with
  | .get _ _ => r
  | .put _ _ | .putBuf _ _ => 0

theorem PoolSys.step_len (h : s.step p a = some (s', r)) :
    s'.pool.len + a.taken r = s.pool.len + a.added r := by
  obtain ⟨-, hmoved⟩ := step_moved h
  cases a with
  | get w num =>
    obtain ⟨block, hlen, hsrc, -⟩ := TailMoved.block hmoved
    have := congrArg List.length hsrc
    simp only [List.length_append, hlen] at this
    exact this.symm
  | put w num =>
    obtain ⟨block, hlen, -, hdst⟩ := TailMoved.block hmoved
    have := congrArg List.length hdst
    simp only [List.length_append, hlen] at this
    exact this
  | putBuf w j =>
    obtain ⟨b, -, rfl, -, hpool⟩ := hmoved
    have := congrArg List.length hpool
    simpa [BufPoolVec.len, Vec.len, PoolAct.taken, PoolAct.added] using this

/-- In every state that the workers' calls reach, all buffers together are those of the start, and
if these were different ones, each of them is in exactly one of the pool and the vectors. The pool
has as many as it had, plus the counts that `put` and `put_buf` returned, less those that `get`
returned. And every call from there moves the number of buffers it returns, fewer than asked for
only if it leaves nothing, and keeps the order of the rest. -/
theorem run_pool [Fintype ν] [DecidableEq α] {s₀ : PoolSys ν α} {as : List (PoolAct ν)}
    {outs : List Nat} (hrun : run (PoolSys.step p) s₀ as = some (s, outs)) :
    (∑ q, s.contents q = ∑ q, s₀.contents q) ∧
    (Custody s₀.contents → ∀ q₀, ∀ b ∈ s₀.contents q₀,
      ∃ q, (s.contents q).count b = 1 ∧ ∀ q', q' ≠ q → (s.contents q').count b = 0) ∧
    s.pool.len + (List.zipWith PoolAct.taken as outs).sum =
      s₀.pool.len + (List.zipWith PoolAct.added as outs).sum ∧
    (s.pool.isEmpty = true ↔ s.pool.len = 0) ∧
    ∀ a s' r, s.step p a = some (s', r) → a.Moved s s' r := by
  refine ⟨?_, ?_, ?_, ?_, fun a s' r h => PoolSys.step_moved h⟩
  · refine run_invariant (I := fun t : PoolSys ν α => ∑ q, t.contents q = ∑ q, s₀.contents q)
      (Q := fun _ => True) ?_ rfl (fun _ _ => trivial) hrun
    intro t a t' r _ ht hstep
    exact (PoolSys.step_shifts hstep).sum_eq.trans ht
  · intro hc q₀ b hb
    have hinv : Custody s.contents ∧ ∃ q, b ∈ s.contents q := by
      refine run_invariant (I := fun t : PoolSys ν α => Custody t.contents ∧ ∃ q, b ∈ t.contents q)
        (Q := fun _ => True) ?_ ⟨hc, q₀, hb⟩ (fun _ _ => trivial) hrun
      intro t a t' r _ ht hstep
      have hshift := PoolSys.step_shifts hstep
      exact ⟨hshift.custody ht.1, (hshift.present b).2 ht.2⟩
    obtain ⟨hcust, q, hq⟩ := hinv
    exact ⟨q, hcust.sole hq⟩
  · exact run_balance (fun t : PoolSys ν α => t.pool.len) PoolAct.added PoolAct.taken
      (I := fun _ => True) (Q := fun _ => True) (fun _ _ _ _ _ _ _ => trivial)
      (fun _ _ _ _ _ _ hstep => PoolSys.step_len hstep) trivial (fun _ _ => trivial) hrun
  · rw [BufPoolVec.isEmpty, List.isEmpty_iff, ← List.length_eq_zero_iff]
    rfl

end

/-- Two workers on a pool of the buffers 1, 2 and 3. -/
def sharedPool : PoolSys Bool Nat where
  pool := ⟨⟨[1, 2, 3], 3, by decide⟩⟩
  vecs w := if w then ⟨[4], 1, by decide⟩ else ⟨[], 0, by decide⟩

/-- One worker takes two buffers, the other one more than there are and gives one of its own. -/
def sharedCalls : List (PoolAct Bool) := [.get true 2, .get false 5, .putBuf true 0, .put false 1]

theorem sharedCalls_isSome : (run (PoolSys.step .release) sharedPool sharedCalls).isSome := by
  decide

theorem run_pool_sharedCalls :
    ∃ s outs, run (PoolSys.step .release) sharedPool sharedCalls = some (s, outs) ∧
      (∑ q, s.contents q = ∑ q, sharedPool.contents q) ∧
      (Custody sharedPool.contents → ∀ q₀, ∀ b ∈ sharedPool.contents q₀,
        ∃ q, (s.contents q).count b = 1 ∧ ∀ q', q' ≠ q → (s.contents q').count b = 0) ∧
      s.pool.len + (List.zipWith PoolAct.taken sharedCalls outs).sum =
        sharedPool.pool.len + (List.zipWith PoolAct.added sharedCalls outs).sum ∧
      (s.pool.isEmpty = true ↔ s.pool.len = 0) ∧
      ∀ a s' r, s.step .release a = some (s', r) → a.Moved s s' r := by
  obtain ⟨⟨s, outs⟩, hrun⟩ := Option.isSome_iff_exists.1 sharedCalls_isSome
  exact ⟨s, outs, hrun, run_pool hrun⟩

end Afxdp
