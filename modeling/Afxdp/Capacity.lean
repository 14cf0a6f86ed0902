import Afxdp.Conservation
import Afxdp.Counts

/-!
# The spare-capacity clamp of `service` never hides a completion

`service` asks for no more completions than the vector has spare capacity for. The application
keeps its free buffers in one vector `v₀` that once held all of them. As long as a buffer is
anywhere else the vector is not full (`Conserved.vec_lt`), so it never grows (`step_capacity`) and
there is room for every completion. What `service` returned in total is bounded by the counters of
the rings between it and `try_send`.
-/

namespace Afxdp

open Run (run run_invariant)
open Spsc (RingBuf)

section
variable {ι ν δ T : Type} [DecidableEq ν] [DecidableEq δ] {s s' : Sys ι ν δ T}

namespace Sys

theorem setColl_capacity (l : List (BufMmap T)) (c : Coll ν δ) (v : ν) :
    ((s.setColl l c).vecs v).capacity = (s.vecs v).capacity := by
  cases c with
  | vec u =>
    show (Function.update s.vecs u _ v).capacity = _
    rcases eq_or_ne v u with rfl | hv
    · rw [Function.update_self]
      rfl
    · rw [Function.update_of_ne hv]
  | deque d => rfl

/-- An insertion does not make a vector grow that has spare capacity. -/
theorem insert_capacity {k spare : Nat} {b : BufMmap T} {c : Coll ν δ} {v : ν}
    (hroom : c = .vec v → (s.vecs v).len < (s.vecs v).capacity)
    (h : s.insert k b spare c = some s') : (s'.vecs v).capacity = (s.vecs v).capacity := by
  cases c with
  | vec u =>
    cases h
    show (Function.update s.vecs u _ v).capacity = _
    rcases eq_or_ne v u with rfl | hv
    · rw [Function.update_self]
      exact if_pos (hroom rfl)
    · rw [Function.update_of_ne hv]
  | deque d =>
    obtain ⟨w, -, rfl⟩ := Option.map_eq_some_iff.1 h
    rfl

end Sys

omit [DecidableEq ν] [DecidableEq δ] in
/-- While a buffer is in another place, a vector holds fewer buffers than there are. -/
theorem Conserved.vec_lt {area : MmapArea} {S : Finset Nat} (hs : Conserved area S s) {v : ν}
    {p : Place ι ν δ} (hp : p ≠ .coll (.vec v)) {k : Nat} (hk : k ∈ s.chunks p) :
    (s.vecs v).len < S.card := by
  have hlt := hs.custody.card_lt (p := .coll (.vec v)) (S := S)
    (fun r a ha => (hs.present a).1 ⟨r, ha⟩) hk hp.symm
  simpa [Sys.chunks, Sys.coll, chunksOf, Vec.len] using hlt

variable [DecidableEq ι] [Inhabited T] {area : MmapArea} {S : Finset Nat} {v₀ : ν}

/-- A vector with a capacity for all buffers never grows. -/
theorem step_capacity {a : Act ι ν δ T} {out : Out} (hlen : afXdpReserved ≤ area.bufLen)
    (hs : Conserved area S s) (hcap : S.card ≤ (s.vecs v₀).capacity)
    (h : step s a = some (s', out)) : (s'.vecs v₀).capacity = (s.vecs v₀).capacity := by
  have hlen' : afXdpReserved ≤ s.area.bufLen := by rwa [hs.areaEq]
  -- a call replaces one vector by one of the same capacity
  have hupd : ∀ (v : ν) (w : Vec (BufMmap T)), w.capacity = (s.vecs v).capacity →
      (Function.update s.vecs v w v₀).capacity = (s.vecs v₀).capacity := by
    intro v w hw
    rcases eq_or_ne v₀ v with rfl | hv
    · rw [Function.update_self, hw]
    · rw [Function.update_of_ne hv]
  cases a with
  | fill i v batchSize granted =>
    obtain ⟨rfl, -⟩ := step_fill_inv h
    exact hupd v _ rfl
  | tryRecv i d batchSize user grant =>
    obtain ⟨rfl, -⟩ := step_tryRecv_inv hlen' h
    rfl
  | trySend i d batchSize granted send =>
    obtain ⟨rfl, -⟩ := step_trySend_inv h
    rfl
  | service i v batchSize grant =>
    obtain ⟨rfl, hret⟩ := step_service_inv hlen' h
    refine hupd v _ (Vec.pushAll_capacity ?_)
    -- what was asked for fits
    have hle := (s.vecs v).le
    rw [peekCount, serviceRequest] at hret
    simp only [List.length_map, List.length_take, RingBuf.entries_length, Vec.len] at hret ⊢
    omega
  | move c j c' k spare =>
    obtain ⟨b, hb, ht⟩ := step_move_insert h
    rw [Sys.insert_capacity ?_ ht, Sys.setColl_capacity]
    rintro rfl
    rw [Sys.setColl_capacity]
    have hmem : b ∈ s.coll c := List.mem_of_getElem? hb
    by_cases hc : c = .vec v₀
    · -- the buffer comes from the vector itself
      subst hc
      obtain ⟨hj, -⟩ := List.getElem?_eq_some_iff.1 hb
      have hset : ((s.setColl ((s.coll (.vec v₀)).eraseIdx j) (.vec v₀)).coll (.vec v₀)).length <
          (s.coll (.vec v₀)).length := by
        rw [Sys.coll_setColl (List.length_eraseIdx_le _ _), Function.update_self,
          List.length_eraseIdx_of_lt hj]
        omega
      exact Nat.lt_of_lt_of_le hset (s.vecs v₀).le
    · -- or from elsewhere, and then the vector does not hold them all
      have hlt : (s.vecs v₀).len < S.card :=
        hs.vec_lt (p := .coll c) (by simpa using hc)
          (Multiset.mem_coe.2 (List.mem_map.2 ⟨_, List.mem_map.2 ⟨b, hmem, rfl⟩, rfl⟩))
      have hset : (s.setColl ((s.coll c).eraseIdx j) c).coll (.vec v₀) = s.coll (.vec v₀) := by
        rw [Sys.coll_setColl (List.length_eraseIdx_le _ _), Function.update_of_ne (Ne.symm hc)]
      have heq : ((s.setColl ((s.coll c).eraseIdx j) c).vecs v₀).len = (s.vecs v₀).len :=
        congrArg List.length hset
      omega
  | setLen c j len =>
    obtain ⟨-, -, -, -, -, -, rfl, -⟩ := step_modify_inv (.inl ⟨len, rfl⟩) h
    exact Sys.setColl_capacity _ _ _
  | setUser c j user =>
    obtain ⟨-, -, -, -, -, -, rfl, -⟩ := step_modify_inv (.inr ⟨user, rfl⟩) h
    exact Sys.setColl_capacity _ _ _
  | write c j off byte =>
    obtain ⟨-, -, -, rfl⟩ := step_write_inv h
    rfl
  | kernel i k =>
    obtain ⟨-, -, -, -, rfl⟩ := step_kernel_inv h
    rfl

/-! ## Runs -/

/-- In a run from a vector that holds all buffers the vector keeps its capacity. -/
theorem run_capacity {as : List (Act ι ν δ T)} {outs : List Out}
    (hlen : afXdpReserved < area.bufLen) (hs : Conserved area S s)
    (hcap : S.card ≤ (s.vecs v₀).capacity) (h : run step s as = some (s', outs)) :
    Conserved area S s' ∧ (s'.vecs v₀).capacity = (s.vecs v₀).capacity := by
  refine run_invariant (Q := fun _ => True)
    (I := fun t => Conserved area S t ∧ (t.vecs v₀).capacity = (s.vecs v₀).capacity)
    ?_ ⟨hs, rfl⟩ (fun _ _ => trivial) h
  intro t a t' out _ ht hstep
  refine ⟨ht.1.step hlen hstep, ?_⟩
  rw [step_capacity (Nat.le_of_lt hlen) ht.1 (by rw [ht.2]; exact hcap) hstep, ht.2]

/-- With an entry in the completion ring and a vector that has room for all buffers, `service`
returns at least one. -/
theorem service_progress {i : ι} {batchSize grant : Nat} (hlen : afXdpReserved ≤ area.bufLen)
    (hs : Conserved area S s) (hcap : S.card ≤ (s.vecs v₀).capacity)
    (hbatch : 1 ≤ batchSize) (hgrant : 1 ≤ grant) (hcq : 1 ≤ (s.link i).cq.used) :
    ∃ s' out, step s (.service i v₀ batchSize grant) = some (s', out) ∧ 1 ≤ out.ret := by
  obtain ⟨tr, ht⟩ := step_service s i v₀ batchSize grant (by rwa [hs.areaEq])
  -- the completed buffer is not in the vector
  have hk : (s.link i).cq.entry (s.link i).cq.cons / s.area.bufLen ∈ s.chunks (.link i .comp) := by
    refine Multiset.mem_coe.2 (List.mem_map.2 ⟨_, ?_, rfl⟩)
    rw [Link.addrs, RingBuf.entries_eq_cons _ hcq]
    exact List.mem_cons_self
  have hlt := hs.vec_lt (v := v₀) (by simp) hk
  refine ⟨_, _, ht, ?_⟩
  show 1 ≤ peekCount _ _ _
  rw [peekCount, serviceRequest]
  omega

omit [DecidableEq ν] [DecidableEq δ] [DecidableEq ι] in
/-- The buffers of a vector are in as many chunks. -/
theorem card_chunkSet {bufNum bufLen : Nat} (hlen : afXdpReserved < bufLen) {w : Vec (BufMmap T)}
    (hw : w.list.Subperm (MmapArea.chunkVec bufNum bufLen).list) :
    (w.chunkSet bufLen).card = w.len := by
  rw [Vec.chunkSet, Multiset.toFinset_card_of_nodup (nodup_chunks hlen hw)]
  simp [chunksOf, Vec.len]

/-- What `service` returned in total never exceeds what `try_send` did. -/
theorem total_service_le_total_send {as : List (Act ι ν δ T)} {outs : List Out} (i : ι)
    (hlen : afXdpReserved ≤ s.area.bufLen) (hf : (s.link i).Fresh)
    (h : run step s as = some (s', outs)) : total .service i as outs ≤ total .send i as outs := by
  have hserviced : (s'.link i).cq.cons = total .service i as outs := by
    rw [← Nat.zero_add (total _ _ _ _), ← hf.count .service]
    exact run_count hlen h .service i
  have hsent : (s'.link i).tx.prod = total .send i as outs := by
    rw [← Nat.zero_add (total _ _ _ _), ← hf.count .send]
    exact run_count hlen h .send i
  have hb := (run_balanced hlen i hf.balanced h).tx
  calc total .service i as outs = (s'.link i).cq.cons := hserviced.symm
    _ ≤ (s'.link i).cq.prod := (s'.link i).cq.cons_le
    _ ≤ (s'.link i).tx.cons := by omega
    _ ≤ (s'.link i).tx.prod := (s'.link i).tx.cons_le
    _ = total .send i as outs := hsent

/-- Take buffers of an area that `new` made, all in one vector, and any run from there. In the
state it reaches `service` into this vector returns at least one completion if there is one, the
vector has the capacity it had at the start, and what `service` returned on a link does not exceed
what `try_send` did. -/
theorem run_service {p : Profile} {mmap : Nat → Nat → Bool} {bufNum bufLen : Nat}
    {options : MmapAreaOptions} {pool w : Vec (BufMmap T)} {s₀ : Sys ι ν δ T}
    {as : List (Act ι ν δ T)} {outs : List Out} (hlen : afXdpReserved < bufLen)
    (hsize : bufNum * bufLen < 2 ^ 64)
    (hnew : MmapArea.new p mmap bufNum bufLen options = .ok (.ok (area, pool)))
    (hw : w.list.Subperm pool.list) (hs : s₀.Start area v₀ w)
    (hrun : run step s₀ as = some (s, outs)) :
    (∀ i batchSize grant, 1 ≤ batchSize → 1 ≤ grant → 1 ≤ (s.link i).cq.used →
      ∃ s' out, step s (.service i v₀ batchSize grant) = some (s', out) ∧ 1 ≤ out.ret) ∧
    (s.vecs v₀).capacity = w.capacity ∧
    ∀ i, total .service i as outs ≤ total .send i as outs := by
  obtain ⟨rfl, rfl⟩ := MmapArea.new_inv hsize (Nat.le_of_lt hlen) hnew
  have hcap : (w.chunkSet bufLen).card ≤ (s₀.vecs v₀).capacity := by
    rw [card_chunkSet hlen hw, hs.vec]
    exact w.le
  obtain ⟨hc, hkeep⟩ := run_capacity hlen (Conserved.start hlen hw hs) hcap hrun
  have hlen₀ : afXdpReserved ≤ s₀.area.bufLen := by
    rw [hs.area]
    exact Nat.le_of_lt hlen
  refine ⟨?_, ?_, ?_⟩
  · intro i batchSize grant hb hg hcq
    exact service_progress (Nat.le_of_lt hlen) hc (by rw [hkeep]; exact hcap) hb hg hcq
  · rw [hkeep, hs.vec]
  · intro i
    exact total_service_le_total_send i hlen₀ (hs.link i) hrun

end

/-- Up to the completion of the packet. -/
theorem run_service_roundTrip :
    ∃ s outs, run step (Sys.init ⟨2, 2048⟩ () (MmapArea.chunkVec 2 2048) 4) (roundTrip.take 7) =
        some (s, outs) ∧
      ((∀ i batchSize grant, 1 ≤ batchSize → 1 ≤ grant → 1 ≤ (s.link i).cq.used →
        ∃ s' out, step s (.service i () batchSize grant) = some (s', out) ∧ 1 ≤ out.ret) ∧
      (s.vecs ()).capacity = 2 ∧
      ∀ i, total .service i (roundTrip.take 7) outs ≤ total .send i (roundTrip.take 7) outs) := by
  have hnew : MmapArea.new (T := Unit) .release (fun _ _ => true) 2 2048 {} =
      .ok (.ok (⟨2, 2048⟩, MmapArea.chunkVec 2 2048)) :=
    MmapArea.new_ok (by decide) (by decide) rfl
  have hsome : (run step (Sys.init ⟨2, 2048⟩ () (MmapArea.chunkVec 2 2048) 4)
      (roundTrip.take 7)).isSome := by
    decide +kernel
  obtain ⟨⟨s, outs⟩, hrun⟩ := Option.isSome_iff_exists.1 hsome
  exact ⟨s, outs, hrun, run_service (by decide) (by decide) hnew (List.Subperm.refl _)
    (Sys.init_start _ _ _ _) hrun⟩

end Afxdp
