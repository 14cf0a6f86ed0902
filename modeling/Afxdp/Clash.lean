import Mathlib.Data.List.Nodup
import Mathlib.Data.List.Perm.Subperm
import Afxdp.Report

/-!
# Two workers on one core

The controller's map has one entry for each core. If two workers run on one core, and a response of
each is waiting when the controller comes to collect, then the second one is compared with the entry
that the first one left in the same round. If the clock shows less than a second more, the
controller panics there: it has only so many steps until then, and does not get past that round,
whatever the workers do (`run_duplicate_core`).
-/

namespace Afxdp

open Run (run run_cons run_invariant)
open Queue (Fifo)

section
variable {τ π W σ ρ C R : Type} [DecidableEq W] [Fifo C Command] [Fifo R (StatsMessage σ)]
  {P : WorkerProgram τ π W σ ρ} {order : List W} {s s' s'' : Controlled τ W σ C R}
  {rows : List ρ}

/-- The clock shows `since` or less than a second more. -/
def CtlAct.Within (since : Nat) : CtlAct π W → Prop
  | .control now now' => since ≤ now ∧ now' < since + nanosPerSec
  | _ => True

instance (since : Nat) : (a : CtlAct π W) → Decidable (a.Within since)
  | .control _ _ => instDecidableAnd
  | .work _ | .poll _ | .interrupt => instDecidableTrue

/-- Whether an action is a step of the controller. -/
def CtlAct.isControl : CtlAct π W → Bool
  | .control _ _ => true
  | _ => false

/-- Whether a worker is on the core and has a response in its queue. -/
def WorkerProgram.waits (P : WorkerProgram τ π W σ ρ) (responses : W → R) (c : Nat) (w : W) :
    Bool :=
  P.core w = c && !(Fifo.contents (responses w)).isEmpty

/-- Two responses of one core are collected, or will be; or of the responses that are left to print
two are of one core, or one is of a core with a new entry. -/
def Controlled.Clashes (P : WorkerProgram τ π W σ ρ) (s : Controlled τ W σ C R) (since : Nat) :
    Prop :=
  match s.pc with
  | .collect queues => queues.Nodup ∧ ∃ c,
      2 ≤ (s.pendingStats.map StatsMessage.core).count c + queues.countP (P.waits s.responses c)
  | .print stats => ¬(stats.map StatsMessage.core).Nodup ∨
      ∃ m ∈ stats, ∃ st, s.map m.core = some st ∧ since ≤ st.time
  | _ => False

/-- How many steps the controller has at most until it printed the responses. -/
def Controlled.stepsLeft (s : Controlled τ W σ C R) : Nat :=
  match s.pc with
  | .collect queues => 2 * queues.length + s.pendingStats.length + 1
  | .print stats => stats.length
  | _ => 0

omit [DecidableEq W] [Fifo C Command] in
/-- Responses that are added do not change that. -/
theorem Controlled.Clashes.add {since : Nat} (hs : s.Clashes P since) (hpc : s'.pc = s.pc)
    (hpending : s'.pendingStats = s.pendingStats) (hmap : s'.map = s.map)
    (hresponses : ∀ w, Fifo.contents (s.responses w) ≠ [] → Fifo.contents (s'.responses w) ≠ []) :
    s'.Clashes P since ∧ s'.stepsLeft = s.stepsLeft := by
  refine ⟨?_, by rw [stepsLeft, stepsLeft, hpc, hpending]⟩
  rw [Clashes] at hs ⊢
  rw [hpc]
  split at hs
  · next queues hq =>
      obtain ⟨hnodup, c, hc⟩ := hs
      refine ⟨hnodup, c, ?_⟩
      rw [hpending]
      refine Nat.le_trans hc (Nat.add_le_add_left (List.countP_mono_left fun w _ hw => ?_) _)
      simp only [WorkerProgram.waits, Bool.and_eq_true, Bool.not_eq_true',
        List.isEmpty_eq_false_iff] at hw ⊢
      exact ⟨hw.1, hresponses w hw.2⟩
  · next stats hq => rwa [hmap]
  · exact hs

/-- Nor does collecting. -/
theorem Controlled.Clashes.collect (hsigned : s.Signed P) {since : Nat} (hs : s.Clashes P since)
    {now now' : Nat} {queues : List W} (hpc : s.pc = .collect queues)
    (h : s.control P order now now' = some (s', rows)) :
    s'.Clashes P since ∧ s'.stepsLeft < s.stepsLeft := by
  simp only [Clashes, hpc] at hs
  obtain ⟨hnodup, c, hc⟩ := hs
  rw [stepsLeft, stepsLeft, hpc]
  cases queues with
  | nil =>
    simp only [control, hpc] at h
    cases h
    refine ⟨.inl fun hnodup => ?_, Nat.lt_succ_of_le (Nat.le_add_left _ _)⟩
    have hle := List.nodup_iff_count_le_one.1 hnodup c
    rw [List.countP_nil] at hc
    omega
  | cons w queues =>
    obtain ⟨hw, hnodup⟩ := List.nodup_cons.1 hnodup
    rw [List.countP_cons] at hc
    simp only [control, hpc] at h
    split at h
    · next msg q hpop =>
        cases h
        refine ⟨⟨hnodup, c, Nat.le_trans hc ?_⟩, by
          simp only [List.length_cons, List.length_append, List.length_nil]
          omega⟩
        have hq := (Fifo.pop_some hpop).1
        have hmsg : msg.core = P.core w := hsigned w msg (by rw [hq]; exact List.mem_cons_self)
        -- the others wait as before
        have hrest : queues.countP (P.waits (Function.update s.responses w q) c) =
            queues.countP (P.waits s.responses c) := by
          refine List.countP_congr fun v hv => ?_
          have hne : v ≠ w := fun h => hw (h ▸ hv)
          rw [WorkerProgram.waits, WorkerProgram.waits, Function.update_of_ne hne]
        show _ ≤ ((s.pendingStats ++ [msg]).map _).count c +
          queues.countP (P.waits (Function.update s.responses w q) c)
        rw [hrest, List.map_append, List.count_append, List.map_singleton, hmsg,
          List.count_singleton, WorkerProgram.waits, hq]
        simp only [List.isEmpty_cons, Bool.not_false, Bool.and_true, decide_eq_true_eq, beq_iff_eq]
        omega
    · next hpop =>
        cases h
        have hnone : P.waits s.responses c w = false := by
          rw [WorkerProgram.waits, Fifo.pop_none hpop]
          simp
        rw [hnone] at hc
        refine ⟨⟨hnodup, c, hc⟩, ?_⟩
        simp only [List.length_cons]
        omega

/-- Nor does printing, within a second. -/
theorem Controlled.Clashes.print [Preorder σ] (hP : P.Lawful) {since : Nat}
    (hs : s.Clashes P since) {now now' : Nat} {stats : List (StatsMessage σ)}
    (hpc : s.pc = .print stats) (h : s.control P order now now' = some (s', rows))
    (hnow : since ≤ now) (hnow' : now' < since + nanosPerSec) :
    s'.Clashes P since ∧ s'.stepsLeft < s.stepsLeft := by
  simp only [Clashes, hpc] at hs
  cases stats with
  | nil =>
    rcases hs with hdup | ⟨m, hm, -⟩
    · exact absurd List.nodup_nil hdup
    · exact absurd hm List.not_mem_nil
  | cons stat stats =>
    obtain ⟨clock, rfl, hcase⟩ := control_print_inv hpc h
    refine ⟨?_, by rw [stepsLeft, stepsLeft, hpc]; exact Nat.lt_succ_self _⟩
    have hmem : ∀ m ∈ stats, m.core = stat.core → ∃ m ∈ stats, ∃ st,
        Function.update s.map stat.core (some ⟨now, stat⟩) m.core = some st ∧ since ≤ st.time := by
      intro m hm hcore
      exact ⟨m, hm, ⟨now, stat⟩, by rw [hcore, Function.update_self], hnow⟩
    rcases hs with hdup | ⟨m, hm, st, hst, htime⟩
    · rw [List.map_cons, List.nodup_cons, Classical.not_and_iff_not_or_not, not_not] at hdup
      rcases hdup with hdup | hdup
      · obtain ⟨m, hm, hcore⟩ := List.mem_map.1 hdup
        exact .inr (hmem m hm hcore)
      · exact .inl hdup
    · rcases List.mem_cons.1 hm with rfl | hm
      · -- then no second has passed
        obtain ⟨-, hnone, -⟩ | ⟨-, old, hold, hrows⟩ := hcase
        · rw [hnone] at hst
          cases hst
        · obtain rfl : old = st := Option.some.inj (hold.symm.trans hst)
          obtain ⟨err, herr⟩ : ∃ err, P.diff now' ⟨now, m⟩ old = .error err :=
            hP.diff_error (by omega)
          rw [herr] at hrows
          cases hrows
      · by_cases hcore : m.core = stat.core
        · exact .inr (hmem m hm hcore)
        · exact .inr ⟨m, hm, st, (Function.update_of_ne hcore _ _).trans hst, htime⟩

/-- So nothing does, within a second, and each step of the controller is one less. -/
theorem Controlled.Clashes.step [Preorder σ] (hP : P.Lawful) (hsigned : s.Signed P) {since : Nat}
    (hs : s.Clashes P since) {a : CtlAct π W} (h : s.step P order a = some (s', rows))
    (hwithin : a.Within since) : s'.Clashes P since ∧
      s'.stepsLeft + (if a.isControl then 1 else 0) ≤ s.stepsLeft := by
  cases a with
  | work a =>
    obtain ⟨t, u, ht, rfl⟩ := step_work_inv h
    have hadd : Clashes P { s with prog := t } since ∧ _ := hs.add rfl rfl rfl fun _ => id
    exact ⟨hadd.1, Nat.le_of_eq hadd.2⟩
  | interrupt =>
    cases h
    have hadd : Clashes P { s with exit := true } since ∧ _ := hs.add rfl rfl rfl fun _ => id
    exact ⟨hadd.1, Nat.le_of_eq hadd.2⟩
  | poll w =>
    have hresponses : ∀ v, Fifo.contents (s.responses v) ≠ [] →
        Fifo.contents (s'.responses v) ≠ [] := by
      intro v hv
      obtain hsame | ⟨-, hmore⟩ | ⟨now, now', msg, ha, -⟩ := step_responses h v
      · rwa [hsame]
      · rw [hmore]
        exact List.append_ne_nil_of_left_ne_nil hv _
      · cases ha
    have hadd : s'.Clashes P since ∧ s'.stepsLeft = s.stepsLeft := by
      obtain ⟨cmd, t, ht, ⟨rfl, -, rfl⟩ | ⟨c, q, rfl, -, -, rfl⟩⟩ := step_poll_inv h
      · exact hs.add rfl rfl rfl hresponses
      · exact hs.add rfl rfl rfl hresponses
    exact ⟨hadd.1, Nat.le_of_eq hadd.2⟩
  | control now now' =>
    have h : s.control P order now now' = some (s', rows) := h
    cases hpc : s.pc with
    | collect queues => exact hs.collect hsigned hpc h
    | print stats => exact hs.print hP hpc h hwithin.1 hwithin.2
    | _ =>
      simp only [Clashes, hpc] at hs

/-- So a run within a second has only so many steps of the controller. -/
theorem Controlled.Clashes.run [Preorder σ] (hP : P.Lawful) (hsigned : s.Signed P) {since : Nat}
    (hs : s.Clashes P since) {as : List (CtlAct π W)} {outs : List (List ρ)}
    (h : Run.run (Controlled.step P order) s as = some (s', outs))
    (hwithin : ∀ a ∈ as, a.Within since) : s'.Clashes P since ∧
      s'.stepsLeft + as.countP CtlAct.isControl ≤ s.stepsLeft := by
  induction as generalizing s outs with
  | nil =>
      cases h
      exact ⟨hs, Nat.le_refl _⟩
  | cons a as ih =>
      obtain ⟨t, rows, outs', h1, h2, rfl⟩ := run_cons.1 h
      obtain ⟨ht, hleft⟩ := hs.step hP hsigned h1 (hwithin a List.mem_cons_self)
      obtain ⟨hs', hleft'⟩ := ih (hsigned.step h1) ht h2 fun b hb =>
        hwithin b (List.mem_cons_of_mem _ hb)
      refine ⟨hs', ?_⟩
      rw [List.countP_cons]
      omega

omit [DecidableEq W] [Fifo C Command] in
theorem Controlled.Clashes.reporting {since : Nat} (hs : s.Clashes P since) : s.pc.Reporting := by
  rw [Clashes] at hs
  split at hs
  · next hpc => exact hpc ▸ trivial
  · next hpc => exact hpc ▸ trivial
  · exact hs.elim

/-- Take any run of the workers and the controller, after which the controller comes to collect,
with a response of each of two workers on one core waiting. As long as the clock shows `since` or
less than a second more, the controller does not get past collecting and printing, whatever the
workers do, and it has only so many steps. When it does not get on any more, the comparison of a
response with an entry panics. -/
theorem run_duplicate_core [Preorder σ] (hP : P.Lawful) (horder : order.Nodup) {t : τ}
    (hs : s.Start t) {as : List (CtlAct π W)} {outs : List (List ρ)}
    (hrun : run (Controlled.step P order) s as = some (s', outs)) (hpc : s'.pc = .collect order)
    {w v : W} (hne : w ≠ v) (hw : w ∈ order) (hv : v ∈ order) (hcore : P.core w = P.core v)
    (hresw : Fifo.contents (s'.responses w) ≠ []) (hresv : Fifo.contents (s'.responses v) ≠ [])
    {since : Nat} {as' : List (CtlAct π W)} {outs' : List (List ρ)}
    (hrun' : run (Controlled.step P order) s' as' = some (s'', outs'))
    (hwithin : ∀ a ∈ as', a.Within since) :
    s''.pc.Reporting ∧
    as'.countP CtlAct.isControl ≤ 2 * order.length + s'.pendingStats.length + 1 ∧
    ∀ now now', s''.control P order now now' = none →
      ∃ stat stats old e, s''.pc = .print (stat :: stats) ∧ s''.map stat.core = some old ∧
        P.diff now' ⟨now, stat⟩ old = .error e := by
  have hsigned : s'.Signed P :=
    run_invariant (I := Controlled.Signed P) (Q := fun _ => True)
      (fun _ _ _ _ _ hi h => hi.step h) hs.signed (fun _ _ => trivial) hrun
  have hclashes : s'.Clashes P since := by
    rw [Controlled.Clashes, hpc]
    refine ⟨horder, P.core w, Nat.le_trans ?_ (Nat.le_add_left _ _)⟩
    have hsub : [w, v].Subperm order :=
      List.subperm_of_subset (by simpa using hne) (by simp [hw, hv])
    refine Nat.le_trans (Nat.le_of_eq ?_) (hsub.countP_le _)
    simp [WorkerProgram.waits, hcore, hresw, hresv]
  obtain ⟨hclashes', hleft⟩ := hclashes.run hP hsigned hrun' hwithin
  refine ⟨hclashes'.reporting, ?_, fun now now' hnone => ?_⟩
  · have hbound : s'.stepsLeft = 2 * order.length + s'.pendingStats.length + 1 := by
      rw [Controlled.stepsLeft, hpc]
    omega
  · obtain hdone | hpanic := Controlled.control_eq_none_iff.1 hnone
    · have hreporting := hclashes'.reporting
      rw [hdone] at hreporting
      exact hreporting.elim
    · exact hpanic

end

end Afxdp
