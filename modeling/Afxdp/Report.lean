import Afxdp.Control

/-!
# What the controller prints

The controller prints for each response how much the worker's counters grew since the last one, by
the seconds that passed. That panics if a counter is smaller than before, or if no second passed.
If the workers run on different cores, the first does not happen: for each worker the entry in the
controller's map, the responses that are not printed yet, those in the queue and the worker's
counters are in this order (`Controlled.Reported.sorted`). So the controller gets on unless it is
done or finds an entry less than a second old (`run_control_iff`). The controller collects one
response of each worker in a round and sleeps in between; so there is no such entry unless the clock
is set back (`run_gets_on`).

The counters that are compared are the worker's, from two states of the run, and the entry is the
last one that the controller made for the worker (`run_compared`). From them the rows are made, over
a second or more (`run_rows`).
-/

namespace Afxdp

open Run (run run_invariant EveryStep Leads leads_append leads_actions After after_append)
open Queue (Fifo offer contents_offer offer_capacity mem_offer)

/-- Whether an entry of a core is still to be compared with a new response in this round. -/
def CtlPc.Awaits {W σ : Type} (c : Nat) : CtlPc W σ → Prop
  | .collect _ => True
  | .print stats => c ∈ stats.map StatsMessage.core
  | _ => False

/-- Whether the controller is collecting responses or printing them. -/
def CtlPc.Reporting {W σ : Type} : CtlPc W σ → Prop
  | .collect _ | .print _ => True
  | _ => False

/-- A list that does not decrease, of elements with a property. -/
def Ascending {α : Type} [Preorder α] (Q : α → Prop) (l : List α) : Prop :=
  l.Pairwise (· ≤ ·) ∧ ∀ x ∈ l, Q x

section
variable {α : Type} [Preorder α] {Q : α → Prop} {l l' : List α} {a b : α}

/-- Its last element can be replaced by a larger one. -/
theorem Ascending.concat (h : Ascending Q (l ++ [a])) (hab : a ≤ b) (hb : Q b) :
    Ascending Q (l ++ [b]) := by
  obtain ⟨hsorted, hall⟩ := h
  rw [List.pairwise_append] at hsorted
  refine ⟨List.pairwise_append.2 ⟨hsorted.1, List.pairwise_singleton _ _, fun x hx y hy => ?_⟩,
    fun x hx => ?_⟩
  · rw [List.mem_singleton.1 hy]
    exact le_trans (hsorted.2.2 x hx a (List.mem_singleton.2 rfl)) hab
  · rcases List.mem_append.1 hx with hx | hx
    · exact hall x (List.mem_append_left _ hx)
    · rwa [List.mem_singleton.1 hx]

/-- It can also be repeated. -/
theorem Ascending.repeat (h : Ascending Q (l ++ [a])) : Ascending Q (l ++ [a] ++ [a]) := by
  obtain ⟨hsorted, hall⟩ := h
  refine ⟨List.pairwise_append.2 ⟨hsorted, List.pairwise_singleton _ _, fun x hx y hy => ?_⟩,
    fun x hx => ?_⟩
  · rw [List.mem_singleton.1 hy]
    rcases List.mem_append.1 hx with hx | hx
    · exact (List.pairwise_append.1 hsorted).2.2 x hx a (List.mem_singleton.2 rfl)
    · rw [List.mem_singleton.1 hx]
  · rcases List.mem_append.1 hx with hx | hx
    · exact hall x hx
    · rw [List.mem_singleton.1 hx]
      exact hall a (List.mem_append_right _ (List.mem_singleton.2 rfl))

theorem Ascending.mono {Q' : α → Prop} (h : Ascending Q l) (hQ : ∀ x, Q x → Q' x) :
    Ascending Q' l :=
  ⟨h.1, fun x hx => hQ x (h.2 x hx)⟩

/-- What is left of it without its first elements is one. -/
theorem Ascending.of_append (h : Ascending Q (l ++ l')) : Ascending Q l' :=
  ⟨(List.pairwise_append.1 h.1).2.1, fun x hx => h.2 x (List.mem_append_right _ hx)⟩

end

section
variable {τ π W σ ρ C R : Type} [Fifo R (StatsMessage σ)]
  {P : WorkerProgram τ π W σ ρ} {Q : W → σ → Prop} {s s' : Controlled τ W σ C R}

/-- The responses that the controller collected and did not print yet. -/
def Controlled.unprinted (s : Controlled τ W σ C R) : List (StatsMessage σ) :=
  match s.pc with
  | .print stats => stats
  | _ => s.pendingStats

/-- The counters of a worker as the controller has them, as they are under way, and as they are. -/
def Controlled.snapshots (P : WorkerProgram τ π W σ ρ) (s : Controlled τ W σ C R) (w : W) :
    List σ :=
  (s.map (P.core w)).toList.map (·.stats.stats) ++
    ((s.unprinted ++ Fifo.contents (s.responses w)).filter (·.core = P.core w)).map (·.stats) ++
      [P.stats s.prog w]

/-- What is known of the responses and of the entries in the map, where `Q` is a property that the
counters of each worker always have. -/
structure Controlled.Reported [Preorder σ] (P : WorkerProgram τ π W σ ρ) (Q : W → σ → Prop)
    (s : Controlled τ W σ C R) : Prop where
  known : ∀ m ∈ s.unprinted, ∃ w, m.core = P.core w
  sorted : ∀ w, Ascending (Q w) (s.snapshots P w)
  nodup : (s.unprinted.map StatsMessage.core).Nodup
  collect : ∀ queues, s.pc = .collect queues → queues.Nodup ∧
    ∀ w ∈ queues, P.core w ∉ s.unprinted.map StatsMessage.core
  idle : ¬s.pc.Reporting → s.pendingStats = []

theorem Controlled.Reported.mono [Preorder σ] {Q' : W → σ → Prop} (hs : s.Reported P Q)
    (hQ : ∀ w x, Q w x → Q' w x) : s.Reported P Q' where
  known := hs.known
  sorted := fun w => (hs.sorted w).mono (hQ w)
  nodup := hs.nodup
  collect := hs.collect
  idle := hs.idle

/-- The counters are as they are. -/
theorem Controlled.Reported.stats [Preorder σ] (hs : s.Reported P Q) (w : W) :
    P.stats s.prog w ≤ P.stats s.prog w ∧ Q w (P.stats s.prog w) :=
  ⟨le_refl _, (hs.sorted w).2 _ (List.mem_append_right _ (List.mem_singleton.2 rfl))⟩

/-- A step that leaves the responses and the map alone keeps that. -/
theorem Controlled.Reported.keep [Preorder σ] (hs : s.Reported P Q)
    (hresponses : s'.responses = s.responses) (hunprinted : s'.unprinted = s.unprinted)
    (hmap : s'.map = s.map)
    (hstats : ∀ w, P.stats s.prog w ≤ P.stats s'.prog w ∧ Q w (P.stats s'.prog w))
    (hcollect : ∀ queues, s'.pc = .collect queues → queues.Nodup ∧
      ∀ w ∈ queues, P.core w ∉ s.unprinted.map StatsMessage.core)
    (hidle : ¬s'.pc.Reporting → s'.pendingStats = []) : s'.Reported P Q := by
  refine ⟨?_, ?_, ?_, ?_, hidle⟩
  · rw [hunprinted]
    exact hs.known
  · intro w
    rw [snapshots, hresponses, hunprinted, hmap]
    exact (hs.sorted w).concat (hstats w).1 (hstats w).2
  · rw [hunprinted]
    exact hs.nodup
  · rw [hunprinted]
    exact hcollect

variable [DecidableEq W] [Fifo C Command] {order : List W} {rows : List ρ}

omit [Fifo C Command] in
/-- A response is the worker's counters as they are. -/
theorem Controlled.Reported.respond [Preorder σ] (hs : s.Reported P Q) (hP : P.Lawful) {w : W}
    {cmd : Command} {t : τ} (ht : P.poll s.prog w (some cmd) = some t) (commands : W → C) :
    Controlled.Reported P Q { s with prog := t, commands, responses := s.respond P w cmd } := by
  have hstats := hP.stats_poll ht
  cases cmd with
  | exit =>
    exact hs.keep rfl rfl rfl (by rw [hstats]; exact hs.stats) hs.collect hs.idle
  | getStats =>
    have hqueue : ∀ v, s.respond P w .getStats v =
        if v = w then offer (s.responses w) ⟨P.core w, P.stats s.prog w⟩ else s.responses v :=
      fun v => Function.update_apply _ _ _ _
    refine ⟨hs.known, ?_, hs.nodup, hs.collect, hs.idle⟩
    · intro v
      have hsorted := hs.sorted v
      show Ascending (Q v) ((s.map (P.core v)).toList.map _ ++ ((s.unprinted ++
        Fifo.contents (s.respond P w .getStats v)).filter _).map _ ++ [P.stats t v])
      rw [hqueue, hstats]
      split
      · next heq =>
          subst heq
          rw [contents_offer]
          split
          · rw [← List.append_assoc, List.filter_append, List.map_append, ← List.append_assoc]
            simp only [List.filter_cons, decide_true, if_true, List.filter_nil, List.map_cons,
              List.map_nil]
            exact hsorted.repeat
          · exact hsorted
      · exact hsorted

omit [Fifo C Command] in
/-- A response that is collected goes from the worker's queue to the others. -/
theorem Controlled.Reported.collected [Preorder σ] (hs : s.Reported P Q)
    (hcore : Function.Injective P.core) {w : W} {queues : List W} {msg : StatsMessage σ} {q : R}
    (hpc : s.pc = .collect (w :: queues))
    (hq : Fifo.contents (s.responses w) = msg :: Fifo.contents q) (hmsg : msg.core = P.core w) :
    Controlled.Reported P Q { s with
      pc := .collect queues
      responses := Function.update s.responses w q
      pendingStats := s.pendingStats ++ [msg] } := by
  have hunprinted : s.unprinted = s.pendingStats := by
    rw [unprinted, hpc]
  obtain ⟨hnodup, hnew⟩ := hs.collect _ hpc
  obtain ⟨hw, hnodup⟩ := List.nodup_cons.1 hnodup
  have hqueue : ∀ v, Function.update s.responses w q v = if v = w then q else s.responses v :=
    fun v => Function.update_apply _ _ _ _
  refine ⟨?_, ?_, ?_, ?_, fun h => absurd trivial h⟩
  · intro m hm
    change m ∈ s.pendingStats ++ [msg] at hm
    rcases List.mem_append.1 hm with hm | hm
    · exact hs.known m (by rwa [hunprinted])
    · exact ⟨w, by rw [List.mem_singleton.1 hm, hmsg]⟩
  · intro v
    have hsorted := hs.sorted v
    rw [snapshots, hunprinted] at hsorted
    show Ascending (Q v) ((s.map (P.core v)).toList.map _ ++ ((s.pendingStats ++ [msg] ++
      Fifo.contents (Function.update s.responses w q v)).filter _).map _ ++ [P.stats s.prog v])
    rw [hqueue]
    split
    · next heq =>
        subst heq
        have hmoved : s.pendingStats ++ [msg] ++ Fifo.contents q =
            s.pendingStats ++ Fifo.contents (s.responses v) := by
          rw [List.append_assoc, List.singleton_append, hq]
        rwa [hmoved]
    · next hne =>
        -- the response is not one of this worker
        have hother : msg.core ≠ P.core v := by
          rw [hmsg]
          exact fun h => hne (hcore h).symm
        have hsame : (s.pendingStats ++ [msg] ++ Fifo.contents (s.responses v)).filter
            (·.core = P.core v) =
              (s.pendingStats ++ Fifo.contents (s.responses v)).filter (·.core = P.core v) := by
          simp [List.filter_append, hother]
        rwa [hsame]
  · show ((s.pendingStats ++ [msg]).map StatsMessage.core).Nodup
    have hnodup' := hs.nodup
    have hnew' := hnew w List.mem_cons_self
    rw [hunprinted] at hnodup' hnew'
    rw [List.map_append, List.map_singleton, hmsg, List.nodup_append]
    refine ⟨hnodup', List.pairwise_singleton _ _, fun x hx y hy heq => hnew' ?_⟩
    rw [← List.mem_singleton.1 hy, ← heq]
    exact hx
  · rintro _ ⟨⟩
    refine ⟨hnodup, fun v hv => ?_⟩
    show P.core v ∉ (s.pendingStats ++ [msg]).map StatsMessage.core
    have hnew' := hnew v (List.mem_cons_of_mem _ hv)
    rw [hunprinted] at hnew'
    rw [List.map_append, List.mem_append, List.map_singleton, List.mem_singleton, hmsg]
    rintro (h | h)
    · exact hnew' h
    · exact hw (hcore h ▸ hv)

omit [DecidableEq W] [Fifo C Command] in
/-- A response that is printed takes the place of its worker's entry. -/
theorem Controlled.Reported.printed [Preorder σ] (hs : s.Reported P Q) {stat : StatsMessage σ}
    {stats : List (StatsMessage σ)} (hpc : s.pc = .print (stat :: stats)) (clock now : Nat) :
    Controlled.Reported P Q { s with
      clock
      pc := .print stats
      map := Function.update s.map stat.core (some ⟨now, stat⟩) } := by
  have hunprinted : s.unprinted = stat :: stats := by
    rw [unprinted, hpc]
  have hnodup := hs.nodup
  rw [hunprinted, List.map_cons, List.nodup_cons] at hnodup
  refine ⟨?_, ?_, hnodup.2, nofun, fun h => absurd trivial h⟩
  · intro m hm
    exact hs.known m (by rw [hunprinted]; exact List.mem_cons_of_mem _ hm)
  · intro w
    have hsorted := hs.sorted w
    rw [snapshots, hunprinted, List.cons_append] at hsorted
    show Ascending (Q w) ((Function.update s.map stat.core _ (P.core w)).toList.map _ ++ ((stats ++
      Fifo.contents (s.responses w)).filter _).map _ ++ [P.stats s.prog w])
    by_cases hw : stat.core = P.core w
    · rw [hw, Function.update_self]
      rw [List.filter_cons_of_pos (by simpa using hw), List.map_cons, List.append_assoc] at hsorted
      exact hsorted.of_append
    · rw [Function.update_of_ne (Ne.symm hw)]
      rwa [List.filter_cons_of_neg (by simpa using hw)] at hsorted

/-- Each response in a worker's queue is one of its own. -/
def Controlled.Signed (P : WorkerProgram τ π W σ ρ) (s : Controlled τ W σ C R) : Prop :=
  ∀ w, ∀ m ∈ Fifo.contents (s.responses w), m.core = P.core w

theorem Controlled.Signed.step (hs : s.Signed P) {a : CtlAct π W}
    (h : s.step P order a = some (s', rows)) : s'.Signed P := by
  intro w m hm
  obtain hsame | ⟨-, hmore⟩ | ⟨d, e, msg, -, hless⟩ := step_responses h w
  · exact hs w m (by rwa [← hsame])
  · rw [hmore] at hm
    rcases List.mem_append.1 hm with hm | hm
    · exact hs w m hm
    · rw [List.mem_singleton.1 hm]
  · exact hs w m (by rw [hless]; exact List.mem_cons_of_mem _ hm)

omit [DecidableEq W] [Fifo C Command] in
/-- Before the first steps there are no responses. -/
theorem Controlled.Start.signed [Fifo C Command] {t : τ} (hs : s.Start t) : s.Signed P := by
  intro w m hm
  rw [(hs.responses w).1] at hm
  exact absurd hm List.not_mem_nil

/-- Every step keeps it, if the workers are on different cores. -/
theorem Controlled.Reported.step [Preorder σ] (hP : P.Lawful) (hcore : Function.Injective P.core)
    (horder : order.Nodup) (hs : s.Reported P Q) (hsigned : s.Signed P) {a : CtlAct π W}
    (h : s.step P order a = some (s', rows)) (hgood : ∀ w, Q w (P.stats s'.prog w)) :
    s'.Reported P Q := by
  cases a with
  | work a =>
    obtain ⟨t, u, ht, rfl⟩ := step_work_inv h
    exact hs.keep rfl rfl rfl (fun w => ⟨hP.stats_step ht w, hgood w⟩) hs.collect hs.idle
  | interrupt =>
    cases h
    exact hs.keep rfl rfl rfl hs.stats hs.collect hs.idle
  | poll w =>
    obtain ⟨cmd, t, ht, ⟨rfl, -, rfl⟩ | ⟨c, q, rfl, -, -, rfl⟩⟩ := step_poll_inv h
    · exact hs.keep rfl rfl rfl (by rw [hP.stats_poll ht]; exact hs.stats) hs.collect hs.idle
    · exact hs.respond hP ht _
  | control now now' =>
    have h : s.control P order now now' = some (s', rows) := h
    cases hpc : s.pc with
    | sleep =>
      simp only [control, hpc] at h
      cases h
      have hnone := hs.idle (by rw [hpc]; exact id)
      refine hs.keep rfl ?_ rfl hs.stats ?_ ?_
      · rw [unprinted, unprinted, hpc]
      · rintro _ ⟨⟩
        refine ⟨horder, fun w _ => ?_⟩
        rw [unprinted, hpc, hnone]
        exact List.not_mem_nil
      · exact fun h => absurd trivial h
    | collect queues =>
      cases queues with
      | nil =>
        simp only [control, hpc] at h
        cases h
        refine hs.keep rfl ?_ rfl hs.stats (by simp) ?_
        · rw [unprinted, unprinted, hpc]
        · exact fun h => absurd trivial h
      | cons v queues =>
        simp only [control, hpc] at h
        split at h
        · next msg q hpop =>
            cases h
            have hq := (Fifo.pop_some hpop).1
            exact hs.collected hcore hpc hq (hsigned v msg (by rw [hq]; exact List.mem_cons_self))
        · cases h
          obtain ⟨hnodup, hnew⟩ := hs.collect _ hpc
          refine hs.keep rfl ?_ rfl hs.stats ?_ ?_
          · rw [unprinted, unprinted, hpc]
          · rintro _ ⟨⟩
            exact ⟨(List.nodup_cons.1 hnodup).2, fun w hw => hnew w (List.mem_cons_of_mem _ hw)⟩
          · exact fun h => absurd trivial h
    | print stats =>
      cases stats with
      | nil =>
        simp only [control, hpc] at h
        cases h
        refine hs.keep rfl ?_ rfl hs.stats (by simp) fun _ => rfl
        rw [unprinted, unprinted, hpc]
      | cons stat stats =>
        obtain ⟨clock, rfl, -⟩ := control_print_inv hpc h
        exact hs.printed hpc clock now
    | loadExit =>
      have hnone := hs.idle (by rw [hpc]; exact id)
      simp only [control, hpc] at h
      cases h
      cases s.exit
      all_goals
        refine hs.keep rfl ?_ rfl hs.stats (by simp) fun _ => hnone
        rw [unprinted, unprinted, hpc]
        rfl
    | sendExit queues =>
      have hnone := hs.idle (by rw [hpc]; exact id)
      cases queues with
      | nil =>
        simp only [control, hpc] at h
        cases h
        refine hs.keep rfl ?_ rfl hs.stats (by simp) fun _ => hnone
        rw [unprinted, unprinted, hpc]
      | cons v queues =>
        simp only [control, hpc] at h
        cases h
        refine hs.keep rfl ?_ rfl hs.stats (by simp) fun _ => hnone
        rw [unprinted, unprinted, hpc]
        rfl
    | sendStats queues =>
      have hnone := hs.idle (by rw [hpc]; exact id)
      cases queues with
      | nil =>
        simp only [control, hpc] at h
        cases h
        refine hs.keep rfl ?_ rfl hs.stats (by simp) fun _ => hnone
        rw [unprinted, unprinted, hpc]
      | cons v queues =>
        simp only [control, hpc] at h
        cases h
        refine hs.keep rfl ?_ rfl hs.stats (by simp) fun _ => hnone
        rw [unprinted, unprinted, hpc]
        rfl
    | done =>
      simp only [control, hpc] at h
      cases h

/-! ## Runs -/

omit [DecidableEq W] in
/-- Before the first steps there are no responses and no entries. -/
theorem Controlled.Start.reported [Preorder σ] {t : τ} (hs : s.Start t)
    (hgood : ∀ w, Q w (P.stats t w)) : s.Reported P Q := by
  have hnone : s.unprinted = [] := by
    rw [unprinted, hs.pc]
    exact hs.pendingStats
  refine ⟨?_, ?_, ?_, ?_, fun _ => hs.pendingStats⟩
  · rw [hnone]
    exact fun m hm => absurd hm List.not_mem_nil
  · intro w
    rw [snapshots, hs.map, hnone, (hs.responses w).1, hs.prog]
    refine ⟨List.pairwise_singleton _ _, fun x hx => ?_⟩
    rw [List.mem_singleton.1 hx]
    exact hgood w
  · rw [hnone]
    exact List.nodup_nil
  · rw [hs.pc]
    nofun

omit [DecidableEq W] [Fifo C Command] in
/-- A response is one of a worker, whose counters are not smaller. The entry that it is compared
with is not larger. -/
theorem Controlled.Reported.compared [Preorder σ] (hs : s.Reported P Q) {stat : StatsMessage σ}
    {stats : List (StatsMessage σ)} {old : StatState σ} (hpc : s.pc = .print (stat :: stats))
    (hold : s.map stat.core = some old) :
    ∃ w, stat.core = P.core w ∧ Q w old.stats.stats ∧ Q w stat.stats ∧
      old.stats.stats ≤ stat.stats ∧ stat.stats ≤ P.stats s.prog w := by
  have hunprinted : s.unprinted = stat :: stats := by
    rw [unprinted, hpc]
  obtain ⟨w, hw⟩ := hs.known stat (by rw [hunprinted]; exact List.mem_cons_self)
  obtain ⟨hsorted, hgood⟩ := hs.sorted w
  rw [snapshots, ← hw, hold, hunprinted, List.cons_append, List.filter_cons_of_pos (by simp),
    List.map_cons] at hsorted hgood
  refine ⟨w, hw, hgood _ (by simp), hgood _ (by simp), ?_, ?_⟩
  · exact List.rel_of_pairwise_cons hsorted List.mem_cons_self
  · exact (List.pairwise_append.1 hsorted).2.2 _ (by simp) _ (List.mem_singleton.2 rfl)

/-- A worker had the counters `st` after `k` of the actions. -/
def Controlled.HadAt (P : WorkerProgram τ π W σ ρ) (order : List W) (s : Controlled τ W σ C R)
    (as : List (CtlAct π W)) (w : W) (st : σ) (k : Nat) : Prop :=
  ∃ t, After (Controlled.step P order) s as k t ∧ P.stats t.prog w = st

/-- The responses and the entries are counters that the workers had in the course of a run. -/
theorem run_reported [Preorder σ] (hP : P.Lawful) (hcore : Function.Injective P.core)
    (horder : order.Nodup) {t : τ} (hs : s.Start t) {as : List (CtlAct π W)}
    {outs : List (List ρ)} (hrun : run (Controlled.step P order) s as = some (s', outs)) :
    s'.Signed P ∧ s'.Reported P fun w st => ∃ k, s.HadAt P order as w st k := by
  refine leads_actions (I := fun as t => t.Signed P ∧
    t.Reported P fun w st => ∃ k, s.HadAt P order as w st k) ?_ ?_ ⟨outs, hrun⟩
  · refine ⟨hs.signed, hs.reported fun w => ⟨0, s, .last (.nil s), ?_⟩⟩
    rw [hs.prog]
  · rintro as t a t' rows hlead ⟨hsigned, hr⟩ h
    refine ⟨hsigned.step h, (hr.mono ?_).step hP hcore horder hsigned h ?_⟩
    · rintro w st ⟨k, u, hu, hst⟩
      exact ⟨k, u, (after_append hu.1).2 hu, hst⟩
    · exact fun w => ⟨_, t', .last (hlead.append (.single h)), rfl⟩

/-- Take any run of the workers and the controller, in any order, with the workers on different
cores, and with whatever the clock shows. In every state that it reaches the controller gets on
unless it is done, or compares a response with an entry that is less than a second old. -/
theorem run_control_iff [Preorder σ] (hP : P.Lawful) (hcore : Function.Injective P.core)
    (horder : order.Nodup) {t : τ} (hs : s.Start t) {as : List (CtlAct π W)}
    {outs : List (List ρ)} (hrun : run (Controlled.step P order) s as = some (s', outs))
    (now now' : Nat) : s'.control P order now now' = none ↔ s'.pc = .done ∨
      ∃ stat stats old, s'.pc = .print (stat :: stats) ∧ s'.map stat.core = some old ∧
        now' < old.time + nanosPerSec := by
  have hr := (run_reported hP hcore horder hs hrun).2
  rw [Controlled.control_eq_none_iff]
  refine or_congr Iff.rfl ⟨?_, ?_⟩
  · rintro ⟨stat, stats, old, e, hpc, hold, hdiff⟩
    obtain ⟨w, -, -, -, hle, -⟩ := hr.compared hpc hold
    refine ⟨stat, stats, old, hpc, hold, Nat.lt_of_not_le fun hsec => ?_⟩
    obtain ⟨rows, hrows⟩ : ∃ rows, P.diff now' ⟨now, stat⟩ old = .ok rows := hP.diff_ok hle hsec
    rw [hdiff] at hrows
    cases hrows
  · rintro ⟨stat, stats, old, hpc, hold, hsec⟩
    obtain ⟨e, he⟩ : ∃ e, P.diff now' ⟨now, stat⟩ old = .error e := hP.diff_error hsec
    exact ⟨stat, stats, old, e, hpc, hold, he⟩

/-! ## The clock -/

/-- No entry is newer than what the clock showed last, and one that is still to be compared with a
response in this round is a second older. -/
def Controlled.Stamped (s : Controlled τ W σ C R) : Prop :=
  ∀ c st, s.map c = some st → st.time ≤ s.clock ∧
    (s.pc.Awaits c → st.time + nanosPerSec ≤ s.clock)

omit [Fifo R (StatsMessage σ)] [DecidableEq W] [Fifo C Command] in
/-- A step that makes no entry keeps that if the clock is not set back. -/
theorem Controlled.Stamped.keep (hs : s.Stamped) (hmap : s'.map = s.map)
    (hclock : s.clock ≤ s'.clock)
    (hawaits : ∀ c, s'.pc.Awaits c → s.pc.Awaits c ∨ s.clock + nanosPerSec ≤ s'.clock) :
    s'.Stamped := by
  intro c st hst
  rw [hmap] at hst
  obtain ⟨hle, hsec⟩ := hs c st hst
  refine ⟨Nat.le_trans hle hclock, fun h => ?_⟩
  rcases hawaits c h with h | h
  · exact Nat.le_trans (hsec h) hclock
  · omega

/-- So does every step, as the responses of a round are of different workers. -/
theorem Controlled.Stamped.step [Preorder σ] (hr : s.Reported P Q) (hs : s.Stamped)
    {a : CtlAct π W} (hticks : s.Ticks a) (h : s.step P order a = some (s', rows)) :
    s'.Stamped := by
  cases a with
  | work a =>
    obtain ⟨t, u, -, rfl⟩ := step_work_inv h
    exact hs.keep rfl (Nat.le_refl _) fun _ => .inl
  | interrupt =>
    cases h
    exact hs.keep rfl (Nat.le_refl _) fun _ => .inl
  | poll w =>
    obtain ⟨cmd, t, -, ⟨-, -, rfl⟩ | ⟨c, q, -, -, -, rfl⟩⟩ := step_poll_inv h
    · exact hs.keep rfl (Nat.le_refl _) fun _ => .inl
    · exact hs.keep rfl (Nat.le_refl _) fun _ => .inl
  | control now now' =>
    have h : s.control P order now now' = some (s', rows) := h
    cases hpc : s.pc with
    | sleep =>
      have hsec : s.clock + nanosPerSec ≤ now := by
        simpa only [Ticks, hpc] using hticks
      simp only [control, hpc] at h
      cases h
      exact hs.keep rfl (Nat.le_of_add_right_le hsec) fun _ _ => .inr hsec
    | collect queues =>
      cases queues with
      | nil =>
        simp only [control, hpc] at h
        cases h
        exact hs.keep rfl (Nat.le_refl _) fun _ _ => .inl (by rw [hpc]; trivial)
      | cons v queues =>
        simp only [control, hpc] at h
        split at h <;> cases h
        all_goals exact hs.keep rfl (Nat.le_refl _) fun _ _ => .inl (by rw [hpc]; trivial)
    | print stats =>
      cases stats with
      | nil =>
        simp only [control, hpc] at h
        cases h
        exact hs.keep rfl (Nat.le_refl _) fun _ => False.elim
      | cons stat stats =>
        obtain ⟨hnow, hnow'⟩ : s.clock ≤ now ∧ now ≤ now' := by
          simpa only [Ticks, hpc] using hticks
        have hnodup := hr.nodup
        rw [unprinted, hpc, List.map_cons, List.nodup_cons] at hnodup
        obtain ⟨clock, rfl, hcase⟩ := control_print_inv hpc h
        have hclock : now ≤ clock := by
          obtain ⟨rfl, -⟩ | ⟨rfl, -⟩ := hcase
          · exact Nat.le_refl _
          · exact hnow'
        intro c st hst
        change Function.update s.map stat.core _ c = some st at hst
        show st.time ≤ clock ∧ (c ∈ stats.map StatsMessage.core → _ ≤ clock)
        rcases eq_or_ne c stat.core with rfl | hc
        · rw [Function.update_self] at hst
          cases hst
          exact ⟨hclock, fun h => absurd h hnodup.1⟩
        · rw [Function.update_of_ne hc] at hst
          obtain ⟨hle, hsec⟩ := hs c st hst
          refine ⟨by omega, fun h => ?_⟩
          have hthen : st.time + nanosPerSec ≤ s.clock := by
            refine hsec ?_
            rw [hpc]
            exact List.mem_cons_of_mem _ h
          omega
    | loadExit =>
      simp only [control, hpc] at h
      cases h
      cases s.exit
      all_goals exact hs.keep rfl (Nat.le_refl _) fun _ => False.elim
    | sendExit queues =>
      cases queues
      all_goals
        simp only [control, hpc] at h
        cases h
        exact hs.keep rfl (Nat.le_refl _) fun _ => False.elim
    | sendStats queues =>
      cases queues
      all_goals
        simp only [control, hpc] at h
        cases h
        exact hs.keep rfl (Nat.le_refl _) fun _ => False.elim
    | done =>
      simp only [control, hpc] at h
      cases h

/-- If the clock is not set back, neither in the run nor in the next step, then the controller gets
on unless it is done. -/
theorem run_gets_on [Preorder σ] (hP : P.Lawful) (hcore : Function.Injective P.core)
    (horder : order.Nodup) {t : τ} (hs : s.Start t) {as : List (CtlAct π W)}
    {outs : List (List ρ)} (hrun : run (Controlled.step P order) s as = some (s', outs))
    (hticks : EveryStep (Controlled.step P order) (fun s a _ _ => s.Ticks a) s as) {now now' : Nat}
    (hnext : s'.Ticks (.control now now' : CtlAct π W)) :
    s'.control P order now now' = none ↔ s'.pc = .done := by
  have hstamped : s'.Stamped := by
    refine (hticks.invariant
      (I := fun s : Controlled τ W σ C R => (s.Signed P ∧ s.Reported P fun _ _ => True) ∧ s.Stamped)
      ?_ ⟨⟨hs.signed, hs.reported fun _ => trivial⟩, ?_⟩ hrun).2
    · rintro s a s' rows ht ⟨⟨hsigned, hr⟩, hstamped⟩ h
      exact ⟨⟨hsigned.step h, hr.step hP hcore horder hsigned h fun _ => trivial⟩,
        hstamped.step hr ht h⟩
    · intro c st hst
      rw [hs.map] at hst
      cases hst
  rw [run_control_iff hP hcore horder hs hrun, or_iff_left]
  rintro ⟨stat, stats, old, hpc, hold, hsec⟩
  obtain ⟨hnow, hnow'⟩ : s'.clock ≤ now ∧ now ≤ now' := by
    simpa only [Controlled.Ticks, hpc] using hnext
  have hthen := (hstamped _ _ hold).2 (by rw [hpc]; exact List.mem_cons_self)
  omega

/-! ## Entries -/

/-- After `i` of the actions the controller comes to the response `m`, and enters it with the time
that the clock shows. -/
def Controlled.EnteredAt (P : WorkerProgram τ π W σ ρ) (order : List W) (s : Controlled τ W σ C R)
    (as : List (CtlAct π W)) (m : StatsMessage σ) (time i : Nat) : Prop :=
  ∃ t now' stats, After (Controlled.step P order) s as i t ∧ as[i]? = some (.control time now') ∧
    t.pc = .print (m :: stats)

theorem Controlled.EnteredAt.lt {as : List (CtlAct π W)} {m : StatsMessage σ} {time i : Nat}
    (h : s.EnteredAt P order as m time i) : i < as.length := by
  obtain ⟨t, now', stats, -, hget, -⟩ := h
  exact (List.getElem?_eq_some_iff.1 hget).1

/-- Further actions do not change what was entered before. -/
theorem Controlled.enteredAt_append {as as' : List (CtlAct π W)} {m : StatsMessage σ}
    {time i : Nat} (hi : i < as.length) :
    s.EnteredAt P order (as ++ as') m time i ↔ s.EnteredAt P order as m time i := by
  simp only [EnteredAt, after_append (Nat.le_of_lt hi), List.getElem?_append_left hi]

/-- What the last action enters is the response that the controller came to. -/
theorem Controlled.enteredAt_concat {as : List (CtlAct π W)} (h : Leads (step P order) s as s')
    {a : CtlAct π W} {m : StatsMessage σ} {time : Nat} :
    s.EnteredAt P order (as ++ [a]) m time as.length ↔
      ∃ now' stats, a = .control time now' ∧ s'.pc = .print (m :: stats) := by
  rw [EnteredAt]
  simp only [after_append (Nat.le_refl _), List.getElem?_concat_length, Option.some.injEq]
  constructor
  · rintro ⟨t, now', stats, ⟨-, ht⟩, ha, hpc⟩
    rw [List.take_length] at ht
    obtain rfl := h.determ ht
    exact ⟨now', stats, ha, hpc⟩
  · rintro ⟨now', stats, ha, hpc⟩
    exact ⟨s', now', stats, .last h, ha, hpc⟩

/-- The entry of a core is the last response of this core that the controller came to. -/
theorem run_entered {t : τ} (hs : s.Start t) {as : List (CtlAct π W)} {outs : List (List ρ)}
    (hrun : run (Controlled.step P order) s as = some (s', outs)) {c : Nat} {st : StatState σ}
    (hst : s'.map c = some st) :
    st.stats.core = c ∧ ∃ i, s.EnteredAt P order as st.stats st.time i ∧
      ∀ i' m time', i < i' → s.EnteredAt P order as m time' i' → m.core ≠ c := by
  refine leads_actions (I := fun as t => ∀ c st, t.map c = some st → st.stats.core = c ∧
    ∃ i, s.EnteredAt P order as st.stats st.time i ∧ ∀ i' m time', i < i' →
      s.EnteredAt P order as m time' i' → m.core ≠ c) ?_ ?_ ⟨outs, hrun⟩ c st hst
  · intro c st hst
    rw [hs.map] at hst
    cases hst
  · intro as t a t' rows hlead hi h c st hst
    -- an entry stays the last one where the step enters nothing for its core
    have hkeep : t.map c = some st →
        (∀ time now' m stats, a = .control time now' → t.pc = .print (m :: stats) → m.core ≠ c) →
        st.stats.core = c ∧ ∃ i, s.EnteredAt P order (as ++ [a]) st.stats st.time i ∧
          ∀ i' m time', i < i' → s.EnteredAt P order (as ++ [a]) m time' i' → m.core ≠ c := by
      intro hst hnew
      obtain ⟨hc, i, hentered, hlast⟩ := hi c st hst
      refine ⟨hc, i, (Controlled.enteredAt_append hentered.lt).2 hentered, ?_⟩
      intro i' m time' hlt hm
      have hi' := hm.lt
      rw [List.length_append, List.length_singleton] at hi'
      rcases Nat.lt_or_ge i' as.length with hold | hge
      · exact hlast i' m time' hlt ((Controlled.enteredAt_append hold).1 hm)
      · obtain rfl : i' = as.length := by omega
        obtain ⟨now', stats, ha, hpc⟩ := (Controlled.enteredAt_concat hlead).1 hm
        exact hnew time' now' m stats ha hpc
    cases a with
    | work a =>
      obtain ⟨u, v, -, rfl⟩ := Controlled.step_work_inv h
      exact hkeep hst fun _ _ _ _ => nofun
    | interrupt =>
      cases h
      exact hkeep hst fun _ _ _ _ => nofun
    | poll w =>
      obtain ⟨cmd, u, -, ⟨-, -, rfl⟩ | ⟨x, q, -, -, -, rfl⟩⟩ := Controlled.step_poll_inv h
      · exact hkeep hst fun _ _ _ _ => nofun
      · exact hkeep hst fun _ _ _ _ => nofun
    | control now now' =>
      have h : t.control P order now now' = some (t', rows) := h
      by_cases hprint : ∃ stat stats, t.pc = .print (stat :: stats)
      · obtain ⟨stat, stats, hpc⟩ := hprint
        obtain ⟨clock, rfl, -⟩ := Controlled.control_print_inv hpc h
        change Function.update t.map stat.core _ c = some st at hst
        rcases eq_or_ne c stat.core with rfl | hc
        · rw [Function.update_self] at hst
          cases hst
          refine ⟨rfl, as.length, (Controlled.enteredAt_concat hlead).2 ⟨now', stats, rfl, hpc⟩, ?_⟩
          intro i' m time' hlt hm
          have hi' := hm.lt
          rw [List.length_append, List.length_singleton] at hi'
          omega
        · rw [Function.update_of_ne hc] at hst
          refine hkeep hst fun time now' m stats' _ hpc' => ?_
          rw [hpc] at hpc'
          cases hpc'
          exact hc.symm
      · have hnone : ∀ stat stats, t.pc ≠ .print (stat :: stats) := fun stat stats heq =>
          hprint ⟨stat, stats, heq⟩
        rw [(Controlled.control_map h hnone).1] at hst
        exact hkeep hst fun _ _ _ _ _ hpc => absurd hpc (hnone _ _)

/-! ## Comparisons -/

omit [DecidableEq W] [Fifo C Command] in
/-- A response that is not printed yet is one of a worker. -/
theorem Controlled.Reported.unprinted_mem [Preorder σ] (hs : s.Reported P Q) {m : StatsMessage σ}
    (hm : m ∈ s.unprinted) : ∃ w, m.core = P.core w ∧ Q w m.stats := by
  obtain ⟨w, hw⟩ := hs.known m hm
  refine ⟨w, hw, (hs.sorted w).2 _ ?_⟩
  refine List.mem_append_left _ (List.mem_append_right _ (List.mem_map_of_mem ?_))
  exact List.mem_filter.2 ⟨List.mem_append_left _ hm, by simpa using hw⟩

/-- In the course of a run no counter decreases. -/
theorem Controlled.leads_stats_le [Preorder σ] (hP : P.Lawful) {as : List (CtlAct π W)}
    (h : Leads (step P order) s as s') (w : W) : P.stats s.prog w ≤ P.stats s'.prog w := by
  obtain ⟨outs, hrun⟩ := h
  refine run_invariant (I := fun t : Controlled τ W σ C R => P.stats s.prog w ≤ P.stats t.prog w)
    (Q := fun _ => True) ?_ (le_refl _) (fun _ _ => trivial) hrun
  intro t a t' rows _ hle h
  refine le_trans hle ?_
  cases a with
  | work a =>
    obtain ⟨u, v, ht, rfl⟩ := step_work_inv h
    exact hP.stats_step ht w
  | poll v =>
    obtain ⟨cmd, u, ht, ⟨-, -, rfl⟩ | ⟨c, q, -, -, -, rfl⟩⟩ := step_poll_inv h
    · exact le_of_eq (congrFun (hP.stats_poll ht) w).symm
    · exact le_of_eq (congrFun (hP.stats_poll ht) w).symm
  | control now now' => rw [control_prog h]
  | interrupt =>
    cases h
    exact le_refl _

/-- Take any run of the workers and the controller, in any order, with the workers on different
cores. When the controller compares a response with an entry, both are of one worker. The entry is
the last response of this worker that the controller came to, after `i` actions, with the time that
the clock showed then. The worker had the counters of the entry at some time before that, after `j`
actions, and the ones of the response then or later, after `k`. -/
theorem run_compared [PartialOrder σ] (hP : P.Lawful) (hcore : Function.Injective P.core)
    (horder : order.Nodup) {t : τ} (hs : s.Start t) {as : List (CtlAct π W)}
    {outs : List (List ρ)} (hrun : run (Controlled.step P order) s as = some (s', outs))
    {stat : StatsMessage σ} {stats : List (StatsMessage σ)} {old : StatState σ}
    (hpc : s'.pc = .print (stat :: stats)) (hold : s'.map stat.core = some old) :
    ∃ w i j k, stat.core = P.core w ∧ old.stats.core = P.core w ∧ old.stats.stats ≤ stat.stats ∧
      s.EnteredAt P order as old.stats old.time i ∧
      (∀ i' m time', i < i' → s.EnteredAt P order as m time' i' → m.core ≠ P.core w) ∧
      s.HadAt P order as w old.stats.stats j ∧ j ≤ i ∧
      s.HadAt P order as w stat.stats k ∧ j ≤ k := by
  obtain ⟨w, hw, -, ⟨k, hk⟩, hle, -⟩ := (run_reported hP hcore horder hs hrun).2.compared hpc hold
  obtain ⟨hc, i, hentered, hlast⟩ := run_entered hs hrun hold
  rw [hw] at hc hlast
  -- the entry was a response of the run up to there
  obtain ⟨u, now', stats', ⟨hi, outs', hrun'⟩, hget, hpc'⟩ := hentered
  obtain ⟨v, hv, j, x, hx, hstats⟩ := (run_reported hP hcore horder hs hrun').2.unprinted_mem
    (m := old.stats) (by rw [Controlled.unprinted, hpc']; exact List.mem_cons_self)
  obtain rfl : v = w := hcore (hv.symm.trans hc)
  obtain ⟨hji, hx⟩ := hx.of_take
  have hj : s.HadAt P order as v old.stats.stats j := ⟨x, hx, hstats⟩
  have hentered : s.EnteredAt P order as old.stats old.time i :=
    ⟨u, now', stats', ⟨hi, outs', hrun'⟩, hget, hpc'⟩
  rcases Nat.le_total j k with hjk | hkj
  · exact ⟨v, i, j, k, hw, hc, hle, hentered, hlast, hj, hji, hk, hjk⟩
  · -- then nothing was counted in between
    obtain ⟨y, hy, hstats'⟩ := hk
    obtain ⟨as', hlead⟩ := hy.leads hx hkj
    have hge := Controlled.leads_stats_le hP hlead v
    rw [hstats', hstats] at hge
    rw [le_antisymm hge hle]
    exact ⟨v, i, j, j, hw, hc, le_refl _, hentered, hlast, hj, hji, hj, Nat.le_refl _⟩

/-- So the rows of a response are what `diff` gives for two states of one worker, the older one of
which was entered a second before at least. -/
theorem run_rows [PartialOrder σ] (hP : P.Lawful) (hcore : Function.Injective P.core)
    (horder : order.Nodup) {t : τ} (hs : s.Start t) {as : List (CtlAct π W)}
    {outs : List (List ρ)} (hrun : run (Controlled.step P order) s as = some (s', outs))
    {now now' : Nat} {s'' : Controlled τ W σ C R}
    (h : s'.control P order now now' = some (s'', rows)) (hrows : rows ≠ []) :
    ∃ w new old time i j k,
      P.diff now' ⟨now, P.core w, new⟩ ⟨time, P.core w, old⟩ = .ok rows ∧
      time + nanosPerSec ≤ now' ∧ old ≤ new ∧ s.HadAt P order as w new k ∧
      s.HadAt P order as w old j ∧ j ≤ k ∧ s.EnteredAt P order as ⟨P.core w, old⟩ time i ∧
      j ≤ i ∧ ∀ i' m time', i < i' → s.EnteredAt P order as m time' i' → m.core ≠ P.core w := by
  obtain ⟨⟨c, new⟩, stats, ⟨time, c', old⟩, hpc, hold, hdiff⟩ :=
    Controlled.control_rows_inv h hrows
  obtain ⟨w, i, j, k, rfl, rfl, hle, hentered, hlast, hj, hji, hk, hjk⟩ :=
    run_compared hP hcore horder hs hrun hpc hold
  refine ⟨w, new, old, time, i, j, k, hdiff, ?_, hle, hk, hj, hjk, hentered, hji, hlast⟩
  -- within a second it would have panicked
  by_contra hlt
  obtain ⟨e, he⟩ : ∃ e, P.diff now' ⟨now, P.core w, new⟩ ⟨time, P.core w, old⟩ = .error e :=
    hP.diff_error (Nat.lt_of_not_le hlt)
  rw [hdiff] at he
  cases he

end

end Afxdp
