import Afxdp.Environment

/-!
# The need-wakeup flag and `try_send`

A Tx-only socket is woken by `try_send` only. A `try_send` that has something to send looks at the
need-wakeup flag at its end, whether its reservation was granted or not. One that has nothing to
send, because the deque is empty or the batch size is 0, returns before it looks, also when
descriptors of earlier calls are still in the ring, whose `sendto` was refused or consumed only
part of the ring. So every call leaves a kicked ring behind exactly if it has something to send,
or finds the ring drained or the flag clear (`everyStep_kicked_iff`).
-/

namespace Afxdp

open Run (run EveryStep everyStep_congr)

section
variable {ι ν δ T : Type}

/-- A `try_send` does not return while the Tx ring holds unconsumed descriptors and the
need-wakeup flag is set, unless it called `sendto`. -/
def Kicked (_ : Sys ι ν δ T) : Act ι ν δ T → Sys ι ν δ T → Out → Prop
  | .trySend i _ _ _ _, s', out =>
    1 ≤ (s'.link i).tx.used → (s'.link i).wake = true → Ffi.sendto ∈ out.trace
  | _, _, _ => True

/-- A `try_send` has something to send, or finds the Tx ring drained or the flag clear. -/
def KickDue (s : Sys ι ν δ T) : Act ι ν δ T → Sys ι ν δ T → Out → Prop
  | .trySend i d batchSize _ _, _, _ =>
    ((s.deques d).list ≠ [] ∧ batchSize ≠ 0) ∨ (s.link i).tx.used = 0 ∨ (s.link i).wake = false
  | _, _, _ => True

variable [DecidableEq ι] [DecidableEq ν] [DecidableEq δ] [Inhabited T]

omit [DecidableEq ι] [DecidableEq ν] [DecidableEq δ] [Inhabited T] in
theorem something_to_send {s : Sys ι ν δ T} {d : δ} {batchSize : Nat} :
    min (s.deques d).len batchSize ≠ 0 ↔ (s.deques d).list ≠ [] ∧ batchSize ≠ 0 := by
  rw [ArrayDeque.len, ← List.length_pos_iff]
  omega

/-- One step: with something to send the flag decides about the `sendto`; with nothing to send
there is none and the ring stays as it was. -/
theorem kicked_iff {s s' : Sys ι ν δ T} {a : Act ι ν δ T} {out : Out}
    (h : step s a = some (s', out)) : Kicked s a s' out ↔ KickDue s a s' out := by
  cases a with
  | trySend i d batchSize granted send =>
    obtain ⟨rfl, hret, htrace⟩ := step_trySend_inv h
    simp only [Kicked, KickDue]
    have hwake : ((s.afterSend i d out.ret).link i).wake = (s.link i).wake := by
      simp [Sys.afterSend]
    rw [hwake, htrace, ← something_to_send]
    by_cases hpos : min (s.deques d).len batchSize = 0
    · -- nothing to send
      have hzero : out.ret = 0 := by
        rw [hret, sendCount, hpos, grantCount_zero]
      have hused : ((s.afterSend i d out.ret).link i).tx.used = (s.link i).tx.used := by
        rw [hzero]
        simp [Sys.afterSend]
      rw [hused]
      constructor
      · intro hk
        by_cases hu : 1 ≤ (s.link i).tx.used
        · cases hw : (s.link i).wake with
          | false => exact .inr (.inr rfl)
          | true => exact absurd hpos (hk hu hw).1
        · exact .inr (.inl (by omega))
      · rintro (hne | hu | hw) h1 h2
        · exact absurd hpos hne
        · omega
        · rw [hw] at h2
          cases h2
    · exact iff_of_true (fun _ hw => ⟨hpos, hw⟩) (.inl hpos)
  | _ => exact Iff.rfl

/-- In every run, of `try_send` calls with any deques, batch sizes and results of `sendto` and of
any other steps, no call leaves waiting descriptors without a `sendto` exactly if every call has
something to send, or finds the ring drained or the flag clear. -/
theorem everyStep_kicked_iff (s : Sys ι ν δ T) (as : List (Act ι ν δ T)) :
    EveryStep step Kicked s as ↔ EveryStep step KickDue s as :=
  everyStep_congr (I := fun _ => True) (P := Kicked) (R := KickDue)
    (fun _ _ _ _ _ h => ⟨kicked_iff h, fun _ => trivial⟩) trivial as

end

/-- A packet is sent, but the `sendto` is refused. -/
def refusedSend : List (Act Unit Unit Unit Unit) :=
  [.move (.vec ()) 0 (.deque ()) 0 0, .kernel () (.setWake true),
    .trySend () () 8 true (.failed .EAGAIN)]

/-- The next call finds an empty deque: it returns with the descriptor in the ring and the flag
set, and without a `sendto`. -/
theorem empty_send_not_kicked :
    ¬ EveryStep step Kicked (Sys.init ⟨1, 2048⟩ () (MmapArea.chunkVec 1 2048) 4)
      (refusedSend ++ [.trySend () () 8 true .sent]) := by
  intro h
  have hrun : ((run step (Sys.init ⟨1, 2048⟩ () (MmapArea.chunkVec 1 2048) 4) refusedSend).bind
      fun p => (step p.1 (.trySend () () 8 true .sent)).map fun q =>
        decide ((q.1.link ()).tx.used = 1 ∧ (q.1.link ()).wake = true ∧
          Ffi.sendto ∉ q.2.trace)) = some true := by
    decide +kernel
  obtain ⟨⟨t, outs⟩, ht, hlast⟩ := Option.bind_eq_some_iff.1 hrun
  obtain ⟨⟨t', out⟩, hstep, hdec⟩ := Option.map_eq_some_iff.1 hlast
  obtain ⟨hused, hwake, hno⟩ := of_decide_eq_true hdec
  exact hno (h.last ht hstep (by rw [hused]) hwake)

end Afxdp
