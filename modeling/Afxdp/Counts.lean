import Afxdp.Environment
import Afxdp.Lib.Program

/-!
# What the calls return adds up

Each of the four calls moves one counter of its link by exactly what it returns (`step_count`), and
nothing else moves these counters, so in a run the counters account for the sums of the returned
numbers (`run_count`). The counters the kernel moves lie between them: it receives into the fill
entries it consumed and completes the Tx descriptors it consumed (`Link.Balanced`). It handles one
packet in a step at most (`step_kernel_handled`).
-/

namespace Afxdp

open Run (run run_invariant run_total)
open Spsc (RingBuf)

/-- The calls. -/
inductive Op
  | fill
  | recv
  | send
  | service
deriving DecidableEq

/-- The counter a call moves: what the application has put into the fill and the Tx ring, and what
it has taken out of the Rx and the completion ring. -/
def Link.count (l : Link) : Op → Nat
  | .fill => l.fq.prod
  | .recv => l.rx.cons
  | .send => l.tx.prod
  | .service => l.cq.cons

/-- The kernel has received into, or still holds, each fill entry it consumed, and has completed,
or still holds, each Tx descriptor it consumed. -/
structure Link.Balanced (l : Link) : Prop where
  rx : l.rx.prod + l.krx.length = l.fq.cons
  tx : l.cq.prod + l.ktx.length = l.tx.cons

section
variable {ι ν δ T : Type}

/-- Which call a step is, and on which link. -/
def Act.op? : Act ι ν δ T → Option (Op × ι)
  | .fill i _ _ _ => some (.fill, i)
  | .tryRecv i _ _ _ _ => some (.recv, i)
  | .trySend i _ _ _ _ => some (.send, i)
  | .service i _ _ _ => some (.service, i)
  | _ => none

variable [DecidableEq ι]

/-- What a step that is the call `o` on the link `i` returns. -/
def returned (o : Op) (i : ι) (a : Act ι ν δ T) (out : Out) : Nat :=
  if a.op? = some (o, i) then out.ret else 0

theorem returned_of_eq {o : Op} {i : ι} {a : Act ι ν δ T} (out : Out) (h : a.op? = some (o, i)) :
    returned o i a out = out.ret := if_pos h

theorem returned_of_ne {o : Op} {i : ι} {a : Act ι ν δ T} (out : Out) (h : a.op? ≠ some (o, i)) :
    returned o i a out = 0 := if_neg h

/-- What the calls `o` on the link `i` return in a run, taken together. -/
def total (o : Op) (i : ι) (as : List (Act ι ν δ T)) (outs : List Out) : Nat :=
  (List.zipWith (returned o i) as outs).sum

/-- A kernel step moves none of the counters and keeps the balance. -/
theorem kernelStep_counts {bufLen : Nat} {mem mem' : Nat → UInt8} {l l' : Link} {h h' : Hist}
    {k : KAct} (hk : kernelStep bufLen mem l h k = some (mem', l', h')) :
    (∀ o, l'.count o = l.count o) ∧ (l.Balanced → l'.Balanced) ∧ l'.fq.size = l.fq.size := by
  cases k with
  | takeFill =>
    obtain ⟨hu, hr⟩ := kernelStep_takeFill hk
    cases hr
    refine ⟨fun o => by cases o <;> rfl, fun hb => ⟨?_, hb.tx⟩, rfl⟩
    show l.rx.prod + (l.krx ++ [_]).length = (l.fq.release 1).cons
    rw [l.fq.release_cons hu, List.length_append, ← hb.rx]
    rfl
  | write j off byte =>
    obtain ⟨a, -, -, hr⟩ := kernelStep_write hk
    cases hr
    exact ⟨fun _ => rfl, id, rfl⟩
  | publish j o len options =>
    obtain ⟨a, ha, -, -, hf, hr⟩ := kernelStep_publish hk
    cases hr
    refine ⟨?_, fun hb => ⟨?_, hb.tx⟩, rfl⟩
    · intro o
      cases o with
      | recv => exact l.rx.push_cons _
      | _ => rfl
    · show (l.rx.push _).prod + (l.krx.eraseIdx j).length = l.fq.cons
      obtain ⟨hj, -⟩ := List.getElem?_eq_some_iff.1 ha
      rw [l.rx.push_prod hf, List.length_eraseIdx_of_lt hj, ← hb.rx]
      omega
  | takeTx =>
    obtain ⟨hu, hr⟩ := kernelStep_takeTx hk
    cases hr
    refine ⟨fun o => by cases o <;> rfl, fun hb => ⟨hb.rx, ?_⟩, rfl⟩
    show l.cq.prod + (l.ktx ++ [_]).length = (l.tx.release 1).cons
    rw [l.tx.release_cons hu, List.length_append, ← hb.tx]
    rfl
  | readTx j =>
    obtain ⟨c, d, -, hr⟩ := kernelStep_readTx hk
    cases hr
    exact ⟨fun _ => rfl, id, rfl⟩
  | complete j =>
    obtain ⟨c, d, hd, hf, hr⟩ := kernelStep_complete hk
    cases hr
    refine ⟨?_, fun hb => ⟨hb.rx, ?_⟩, rfl⟩
    · intro o
      cases o with
      | service => exact l.cq.push_cons _
      | _ => rfl
    · show (l.cq.push _).prod + (l.ktx.eraseIdx j).length = l.tx.cons
      obtain ⟨hj, -⟩ := List.getElem?_eq_some_iff.1 hd
      rw [l.cq.push_prod hf, List.length_eraseIdx_of_lt hj, ← hb.tx]
      omega
  | setWake b =>
    have hr := kernelStep_setWake hk
    cases hr
    exact ⟨fun o => by cases o <;> rfl, fun hb => ⟨hb.rx, hb.tx⟩, rfl⟩

variable [DecidableEq ν] [DecidableEq δ] [Inhabited T] {s s' : Sys ι ν δ T} {a : Act ι ν δ T}
  {out : Out}

omit [DecidableEq ν] [DecidableEq δ] [Inhabited T] in
/-- A call on a link leaves the other links alone, moves its own counter by what it returns, and
keeps the balance. -/
theorem call_counts {o : Op} {i : ι} (l' : Link) (hop : a.op? = some (o, i))
    (hl : s'.link = Function.update s.link i l')
    (ho : l'.count o = (s.link i).count o + out.ret)
    (hframe : ∀ o', o' ≠ o → l'.count o' = (s.link i).count o')
    (hbal : (s.link i).Balanced → l'.Balanced) (hsize : l'.fq.size = (s.link i).fq.size) (j : ι) :
    (∀ o', (s'.link j).count o' = (s.link j).count o' + returned o' j a out) ∧
      ((s.link j).Balanced → (s'.link j).Balanced) ∧
      (s'.link j).fq.size = (s.link j).fq.size := by
  rw [hl]
  rcases eq_or_ne j i with rfl | hj
  · rw [Function.update_self]
    refine ⟨?_, hbal, hsize⟩
    intro o'
    by_cases ho' : o' = o
    · subst ho'
      rw [returned_of_eq out hop, ho]
    · have hne : a.op? ≠ some (o', j) := by
        rw [hop]
        simpa using fun h => ho' h.symm
      rw [returned_of_ne out hne, hframe o' ho', Nat.add_zero]
  · rw [Function.update_of_ne hj]
    have hne : ∀ o', a.op? ≠ some (o', j) := fun o' => by
      rw [hop]
      simpa using fun _ h => hj h.symm
    exact ⟨fun o' => by rw [returned_of_ne out (hne o'), Nat.add_zero], id, rfl⟩

omit [DecidableEq ν] [DecidableEq δ] [Inhabited T] in
/-- A step that is not a call and leaves the links alone. -/
theorem other_counts (hop : a.op? = none) (hl : s'.link = s.link) (j : ι) :
    (∀ o, (s'.link j).count o = (s.link j).count o + returned o j a out) ∧
      ((s.link j).Balanced → (s'.link j).Balanced) ∧
      (s'.link j).fq.size = (s.link j).fq.size := by
  rw [hl]
  refine ⟨?_, id, rfl⟩
  intro o
  rw [returned_of_ne out (by simp [hop]), Nat.add_zero]

/-- Every step moves the counters of the links by what it returns, and keeps the balance. -/
theorem step_counts (hlen : afXdpReserved ≤ s.area.bufLen) (h : step s a = some (s', out))
    (j : ι) :
    (∀ o, (s'.link j).count o = (s.link j).count o + returned o j a out) ∧
      ((s.link j).Balanced → (s'.link j).Balanced) ∧
      (s'.link j).fq.size = (s.link j).fq.size := by
  cases a with
  | fill i v batchSize granted =>
    obtain ⟨rfl, hret⟩ := step_fill_inv h
    obtain ⟨h1, h2⟩ := grantCount_le (s.link i).fq granted (min (s.vecs v).len batchSize)
    have hlen : out.ret ≤ (s.vecs v).list.length := by rw [← hret, Vec.len] at h1; omega
    refine call_counts { s.link i with fq := (s.link i).fq.publish _ } rfl rfl ?_ ?_ ?_ ?_ j
    · refine (RingBuf.publish_prod _ _ ?_).trans ?_
      · simp; omega
      · simpa [Link.count] using hlen
    · rintro (_ | _) ho <;> first | rfl | exact absurd rfl ho
    · rintro ⟨hrx, htx⟩
      exact ⟨hrx.trans (RingBuf.publish_cons _ _).symm, htx⟩
    · exact RingBuf.publish_size _ _
  | tryRecv i d batchSize user grant =>
    obtain ⟨rfl, hret, -⟩ := step_tryRecv_inv hlen h
    obtain ⟨h1, -⟩ := recvCount_le s i d batchSize grant
    refine call_counts { s.link i with rx := (s.link i).rx.release out.ret } rfl rfl ?_ ?_ ?_
      rfl j
    · exact RingBuf.release_cons _ (by omega)
    · rintro (_ | _) ho <;> first | rfl | exact absurd rfl ho
    · rintro ⟨hrx, htx⟩
      exact ⟨hrx, htx⟩
  | trySend i d batchSize granted send =>
    obtain ⟨rfl, hret, -⟩ := step_trySend_inv h
    obtain ⟨h1, h2⟩ := grantCount_le (s.link i).tx granted (min (s.deques d).len batchSize)
    rw [← sendCount, ← hret] at h1 h2
    have hlen : out.ret ≤ (s.deques d).list.length := by rw [ArrayDeque.len] at h1; omega
    refine call_counts { s.link i with tx := (s.link i).tx.publish _ } rfl rfl ?_ ?_ ?_ rfl j
    · refine (RingBuf.publish_prod _ _ ?_).trans ?_
      · simp; omega
      · simpa [Link.count] using hlen
    · rintro (_ | _) ho <;> first | rfl | exact absurd rfl ho
    · rintro ⟨hrx, htx⟩
      exact ⟨hrx, htx.trans (RingBuf.publish_cons _ _).symm⟩
  | service i v batchSize grant =>
    obtain ⟨rfl, hret⟩ := step_service_inv hlen h
    refine call_counts { s.link i with cq := (s.link i).cq.release out.ret } rfl rfl ?_ ?_ ?_
      rfl j
    · refine RingBuf.release_cons _ ?_
      rw [hret, peekCount]
      omega
    · rintro (_ | _) ho <;> first | rfl | exact absurd rfl ho
    · rintro ⟨hrx, htx⟩
      exact ⟨hrx, htx⟩
  | move c k c' p spare =>
    obtain ⟨-, -, -, -, -, hl, -⟩ := step_move_inv h
    exact other_counts rfl hl j
  | setLen c k len =>
    obtain ⟨-, -, -, -, -, -, rfl, -⟩ := step_modify_inv (.inl ⟨len, rfl⟩) h
    exact other_counts rfl (Sys.setColl_link _ _) j
  | setUser c k user =>
    obtain ⟨-, -, -, -, -, -, rfl, -⟩ := step_modify_inv (.inr ⟨user, rfl⟩) h
    exact other_counts rfl (Sys.setColl_link _ _) j
  | write c k off byte =>
    obtain ⟨-, -, -, rfl⟩ := step_write_inv h
    exact other_counts rfl rfl j
  | kernel i k =>
    obtain ⟨mem, l, hi, hk, rfl⟩ := step_kernel_inv h
    obtain ⟨hc, hb, hs⟩ := kernelStep_counts hk
    show (∀ o, (Function.update s.link i l j).count o = _) ∧
      (_ → (Function.update s.link i l j).Balanced) ∧ (Function.update s.link i l j).fq.size = _
    rcases eq_or_ne j i with rfl | hj
    · rw [Function.update_self]
      exact ⟨fun o => hc o, hb, hs⟩
    · rw [Function.update_of_ne hj]
      exact ⟨fun _ => rfl, id, rfl⟩

/-! ## Runs -/

omit [DecidableEq ι] [DecidableEq ν] [DecidableEq δ] [Inhabited T] in
theorem Link.Fresh.balanced {l : Link} (h : l.Fresh) : l.Balanced := by
  have h1 := l.fq.cons_le
  have h2 := l.tx.cons_le
  rw [h.fq] at h1
  rw [h.tx] at h2
  constructor
  · rw [h.rx, h.krx, List.length_nil]; omega
  · rw [h.cq, h.ktx, List.length_nil]; omega

omit [DecidableEq ι] [DecidableEq ν] [DecidableEq δ] [Inhabited T] in
theorem Link.Fresh.count {l : Link} (h : l.Fresh) (o : Op) : l.count o = 0 := by
  have h1 := l.rx.cons_le
  have h2 := l.cq.cons_le
  rw [h.rx] at h1
  rw [h.cq] at h2
  cases o with
  | fill => exact h.fq
  | recv => exact Nat.le_zero.1 h1
  | send => exact h.tx
  | service => exact Nat.le_zero.1 h2

/-- In a run the counter of a link moves by what the calls return, taken together. -/
theorem run_count {as : List (Act ι ν δ T)} {outs : List Out}
    (hlen : afXdpReserved ≤ s.area.bufLen) (h : run step s as = some (s', outs)) (o : Op) (j : ι) :
    (s'.link j).count o = (s.link j).count o + total o j as outs := by
  refine run_total (fun t => (t.link j).count o) (returned o j)
    (I := fun t => afXdpReserved ≤ t.area.bufLen) (Q := fun _ => True) ?_ ?_ hlen
    (fun _ _ => trivial) h
  · intro t a t' out _ ht hstep
    rwa [step_area ht hstep]
  · intro t a t' out _ ht hstep
    exact (step_counts ht hstep j).1 o

/-- A run keeps the balance. -/
theorem run_balanced {as : List (Act ι ν δ T)} {outs : List Out}
    (hlen : afXdpReserved ≤ s.area.bufLen) (j : ι) (hb : (s.link j).Balanced)
    (h : run step s as = some (s', outs)) : (s'.link j).Balanced := by
  refine (run_invariant (I := fun t => afXdpReserved ≤ t.area.bufLen ∧ (t.link j).Balanced)
    (Q := fun _ => True) ?_ ⟨hlen, hb⟩ (fun _ _ => trivial) h).2
  intro t a t' out _ ht hstep
  exact ⟨by rw [step_area ht.1 hstep]; exact ht.1, (step_counts ht.1 hstep j).2.1 ht.2⟩

end

/-! ## What the kernel handled -/

/-- The packets that the kernel received on a link, and the descriptors that it took to send. -/
def Link.handled (l : Link) : Nat := l.rx.prod + l.tx.cons

theorem Link.Fresh.handled {l : Link} (h : l.Fresh) : l.handled = 0 := by
  have hrx := h.rx
  have htx := h.tx
  have hle := l.tx.cons_le
  rw [Link.handled]
  omega

/-- The kernel handles one packet at a time. -/
theorem kernelStep_handled {bufLen : Nat} {mem mem' : Nat → UInt8} {l l' : Link} {h h' : Hist}
    {k : KAct} (hk : kernelStep bufLen mem l h k = some (mem', l', h')) :
    l'.handled ≤ l.handled + 1 := by
  cases k with
  | takeFill =>
    obtain ⟨-, hr⟩ := kernelStep_takeFill hk
    cases hr
    exact Nat.le_succ _
  | write j off byte =>
    obtain ⟨a, -, -, hr⟩ := kernelStep_write hk
    cases hr
    exact Nat.le_succ _
  | publish j o len options =>
    obtain ⟨a, -, -, -, hf, hr⟩ := kernelStep_publish hk
    cases hr
    show (l.rx.push _).prod + l.tx.cons ≤ _
    rw [l.rx.push_prod hf, Link.handled]
    omega
  | takeTx =>
    obtain ⟨hu, hr⟩ := kernelStep_takeTx hk
    cases hr
    show l.rx.prod + (l.tx.release 1).cons ≤ _
    rw [l.tx.release_cons hu, Link.handled, Nat.add_assoc]
  | readTx j =>
    obtain ⟨c, d, -, hr⟩ := kernelStep_readTx hk
    cases hr
    exact Nat.le_succ _
  | complete j =>
    obtain ⟨c, d, -, -, hr⟩ := kernelStep_complete hk
    cases hr
    exact Nat.le_succ _
  | setWake b =>
    have hr := kernelStep_setWake hk
    cases hr
    exact Nat.le_succ _

section
variable {ι ν δ T : Type} [DecidableEq ι] [DecidableEq ν] [DecidableEq δ] [Inhabited T]
  {s s' : Sys ι ν δ T} {out : Out}

/-- On the other links it handles none. -/
theorem step_kernel_handled {i : ι} {k : KAct} (h : step s (.kernel i k) = some (s', out)) (j : ι) :
    (s'.link j).handled ≤ (s.link j).handled + 1 := by
  obtain ⟨mem, l, hi, hk, rfl⟩ := step_kernel_inv h
  show (Function.update s.link i l j).handled ≤ _
  rcases eq_or_ne j i with rfl | hj
  · rw [Function.update_self]
    exact kernelStep_handled hk
  · rw [Function.update_of_ne hj]
    exact Nat.le_succ _

/-- What the application does is not handled yet. -/
theorem step_handled {a : Act ι ν δ T} (hlen : afXdpReserved ≤ s.area.bufLen)
    (ha : ∀ i k, a ≠ .kernel i k) (h : step s a = some (s', out)) (j : ι) :
    (s'.link j).handled = (s.link j).handled := by
  have hupdate : ∀ {i : ι} {l : Link}, l.handled = (s.link i).handled →
      (Function.update s.link i l j).handled = (s.link j).handled := by
    intro i l hl
    rcases eq_or_ne j i with rfl | hj
    · rw [Function.update_self, hl]
    · rw [Function.update_of_ne hj]
  cases a with
  | fill i v batchSize granted =>
    obtain ⟨rfl, -⟩ := step_fill_inv h
    exact hupdate rfl
  | tryRecv i d batchSize user grant =>
    obtain ⟨rfl, -⟩ := step_tryRecv_inv hlen h
    exact hupdate rfl
  | trySend i d batchSize granted send =>
    obtain ⟨rfl, -⟩ := step_trySend_inv h
    exact hupdate (congrArg ((s.link i).rx.prod + ·) (RingBuf.publish_cons _ _))
  | service i v batchSize grant =>
    obtain ⟨rfl, -⟩ := step_service_inv hlen h
    exact hupdate rfl
  | move c k c' p spare =>
    obtain ⟨-, -, -, -, -, hl, -⟩ := step_move_inv h
    rw [hl]
  | setLen c k len =>
    obtain ⟨-, -, -, -, -, -, rfl, -⟩ := step_modify_inv (.inl ⟨len, rfl⟩) h
    rw [Sys.setColl_link]
  | setUser c k user =>
    obtain ⟨-, -, -, -, -, -, rfl, -⟩ := step_modify_inv (.inr ⟨user, rfl⟩) h
    rw [Sys.setColl_link]
  | write c k off byte =>
    obtain ⟨-, -, -, rfl⟩ := step_write_inv h
    rfl
  | kernel i k => exact absurd rfl (ha i k)

/-- Nor is what a step of a program does that is not the kernel's. -/
theorem over_handled {τ π γ : Type} {pstep : τ → π → Option (τ × γ)} {proj : τ → Sys ι ν δ T}
    {R : π → Prop} (hover : Program.Over step pstep proj (fun a => ∀ i k, a ≠ .kernel i k) R)
    {t t' : τ} {c : π} {o : γ} (hlen : afXdpReserved ≤ (proj t).area.bufLen) (hc : R c)
    (h : pstep t c = some (t', o)) (j : ι) :
    ((proj t').link j).handled = ((proj t).link j).handled := by
  refine (hover.step_invariant (I := fun s : Sys ι ν δ T => s.area = (proj t).area ∧
    (s.link j).handled = ((proj t).link j).handled) ?_ hc ⟨rfl, rfl⟩ h).2
  rintro s a s' out ha ⟨harea, hs⟩ hstep
  have hlen' : afXdpReserved ≤ s.area.bufLen := by rwa [harea]
  exact ⟨(step_area hlen' hstep).trans harea, (step_handled hlen' ha hstep j).trans hs⟩

end

end Afxdp
