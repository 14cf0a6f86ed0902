import Afxdp.Control

/-!
# How the workers stop

After CTRL-C the controller offers `Exit` to every worker once and stops, whether the offers were
taken or not. A worker whose `Exit` is in its queue finds it there with its second look at the
latest. The queue has room for two commands, and may be full of `GetStats` if the worker is slow;
then the `Exit` is lost, the worker never leaves its loop, and the program, which waits for it, does
not end (`run_shutdown`). No worker leaves its loop before CTRL-C.
-/

namespace Afxdp

open Run (run run_cons run_invariant)
open Queue (Fifo offer contents_offer offer_capacity mem_offer)

/-- Whether the controller was told to stop. -/
def CtlPc.Stopping {W σ : Type} : CtlPc W σ → Prop
  | .sendExit _ | .done => True
  | _ => False

/-- Whether it offered `Exit` to a worker. -/
def CtlPc.Told {W σ : Type} (w : W) : CtlPc W σ → Prop
  | .sendExit queues => w ∉ queues
  | .done => True
  | _ => False

section
variable {τ π W σ ρ C R : Type} [DecidableEq W] [Fifo C Command] [Fifo R (StatsMessage σ)]
  {P : WorkerProgram τ π W σ ρ} {order : List W} {s s' : Controlled τ W σ C R}
  {rows : List ρ} {w : W}

/-- An `Exit` is offered to a worker once, after CTRL-C, and nothing behind it. -/
structure Controlled.Orderly (P : WorkerProgram τ π W σ ρ) (s : Controlled τ W σ C R) : Prop where
  capacity : ∀ w, Fifo.capacity (s.commands w) = 2
  exit : s.pc.Stopping → s.exit = true
  nodup : ∀ queues, s.pc = .sendExit queues → queues.Nodup
  told : ∀ w, P.exited s.prog w = true ∨ .exit ∈ Fifo.contents (s.commands w) → s.pc.Told w
  last : ∀ w, .exit ∈ Fifo.contents (s.commands w) →
    ∃ l, Fifo.contents (s.commands w) = l ++ [.exit] ∧ .exit ∉ l

omit [DecidableEq W] [Fifo R (StatsMessage σ)] in
/-- A step that offers nothing and lets no worker exit keeps that. -/
theorem Controlled.Orderly.keep (hs : s.Orderly P) (hprog : P.exited s'.prog = P.exited s.prog)
    (hcommands : s'.commands = s.commands) (hexit : s'.pc.Stopping → s'.exit = true)
    (hnodup : ∀ queues, s'.pc = .sendExit queues → queues.Nodup)
    (htold : ∀ w, s.pc.Told w → s'.pc.Told w) : s'.Orderly P := by
  refine ⟨?_, hexit, hnodup, ?_, ?_⟩
  · rw [hcommands]
    exact hs.capacity
  · intro w hw
    rw [hprog, hcommands] at hw
    exact htold w (hs.told w hw)
  · rw [hcommands]
    exact hs.last

omit [Fifo R (StatsMessage σ)] in
/-- So does an offer to a worker that `Exit` was not offered to. -/
theorem Controlled.Orderly.send (hs : s.Orderly P) {cmd : Command} {pc : CtlPc W σ}
    (hnew : ¬s.pc.Told w) (hexit : pc.Stopping → s.exit = true)
    (hnodup : ∀ queues, pc = .sendExit queues → queues.Nodup)
    (htold : ∀ v, s.pc.Told v ∨ v = w ∧ cmd = .exit → pc.Told v) :
    Controlled.Orderly P { s.send w cmd with pc } := by
  have hnone : .exit ∉ Fifo.contents (s.commands w) := fun h => hnew (hs.told w (.inr h))
  refine ⟨?_, hexit, hnodup, ?_, ?_⟩
  · intro v
    show Fifo.capacity ((s.send w cmd).commands v) = 2
    rw [send_commands]
    split
    · rw [offer_capacity]
      exact hs.capacity w
    · exact hs.capacity v
  · intro v hv
    refine htold v ?_
    rcases hv with hv | hv
    · exact .inl (hs.told v (.inl hv))
    · change .exit ∈ Fifo.contents ((s.send w cmd).commands v) at hv
      rw [send_commands] at hv
      split at hv
      · next heq =>
          rcases mem_offer hv with hv | rfl
          · exact absurd hv hnone
          · exact .inr ⟨heq, rfl⟩
      · exact .inl (hs.told v (.inr hv))
  · intro v hv
    change .exit ∈ Fifo.contents ((s.send w cmd).commands v) at hv
    show ∃ l, Fifo.contents ((s.send w cmd).commands v) = _ ∧ _
    rw [send_commands] at hv ⊢
    split at hv
    · next heq =>
        rw [if_pos heq]
        rw [contents_offer] at hv ⊢
        split at hv
        · next hlt =>
            rcases List.mem_append.1 hv with hv | hv
            · exact absurd hv hnone
            · rw [List.mem_singleton] at hv
              subst hv
              rw [if_pos hlt]
              exact ⟨_, rfl, hnone⟩
        · exact absurd hv hnone
    · next hne =>
        rw [if_neg hne]
        exact hs.last v hv

/-- Every step keeps it. -/
theorem Controlled.Orderly.step [Preorder σ] (hP : P.Lawful) (horder : order.Nodup)
    (hs : s.Orderly P) {a : CtlAct π W} (h : s.step P order a = some (s', rows)) :
    s'.Orderly P := by
  cases a with
  | work a =>
    obtain ⟨t, u, ht, rfl⟩ := step_work_inv h
    exact hs.keep (hP.exited_step ht) rfl hs.exit hs.nodup fun _ => id
  | interrupt =>
    cases h
    exact hs.keep rfl rfl (fun _ => rfl) hs.nodup fun _ => id
  | poll w =>
    obtain ⟨cmd, t, ht, ⟨rfl, -, rfl⟩ | ⟨c, q, rfl, hc, hcap, rfl⟩⟩ := step_poll_inv h
    · obtain ⟨-, hexited⟩ := hP.exited_poll ht
      refine hs.keep (funext fun v => ?_) rfl hs.exit hs.nodup fun _ => id
      rw [Bool.eq_iff_iff, hexited v]
      simp
    · obtain ⟨-, hexited⟩ := hP.exited_poll ht
      have hqueue : ∀ v, (Function.update s.commands w q v) = if v = w then q else s.commands v :=
        fun v => Function.update_apply _ _ _ _
      refine ⟨?_, hs.exit, hs.nodup, ?_, ?_⟩
      · intro v
        show Fifo.capacity (Function.update s.commands w q v) = 2
        rw [hqueue]
        split
        · rw [hcap]
          exact hs.capacity w
        · exact hs.capacity v
      · rintro v (hv | hv)
        · rcases (hexited v).1 hv with hv | ⟨rfl, hexit⟩
          · exact hs.told v (.inl hv)
          · refine hs.told v (.inr ?_)
            rw [hc, Option.some.inj hexit]
            exact List.mem_cons_self
        · change .exit ∈ Fifo.contents (Function.update s.commands w q v) at hv
          rw [hqueue] at hv
          refine hs.told v (.inr ?_)
          split at hv
          · next heq =>
              rw [heq, hc]
              exact List.mem_cons_of_mem _ hv
          · exact hv
      · intro v hv
        change .exit ∈ Fifo.contents (Function.update s.commands w q v) at hv
        show ∃ l, Fifo.contents (Function.update s.commands w q v) = _ ∧ _
        rw [hqueue] at hv ⊢
        split at hv
        · next heq =>
            rw [if_pos heq]
            -- the command that was taken is not the last one
            obtain ⟨l, hl, hnone⟩ := hs.last w (by rw [hc]; exact List.mem_cons_of_mem _ hv)
            rw [hc] at hl
            cases l with
            | nil =>
              obtain ⟨-, hq⟩ := List.cons.inj hl
              rw [hq] at hv
              exact absurd hv List.not_mem_nil
            | cons x l =>
              obtain ⟨-, hq⟩ := List.cons.inj hl
              exact ⟨l, hq, fun h => hnone (List.mem_cons_of_mem _ h)⟩
        · next hne =>
            rw [if_neg hne]
            exact hs.last v hv
  | control now now' =>
    have h : s.control P order now now' = some (s', rows) := h
    cases hpc : s.pc with
    | sleep =>
      simp only [control, hpc] at h
      cases h
      exact hs.keep rfl rfl (fun h => h.elim) (by simp) fun w hw => by
        simp [hpc, CtlPc.Told] at hw
    | collect queues =>
      cases queues with
      | nil =>
        simp only [control, hpc] at h
        cases h
        exact hs.keep rfl rfl (fun h => h.elim) (by simp) fun w hw => by
          simp [hpc, CtlPc.Told] at hw
      | cons v queues =>
        simp only [control, hpc] at h
        split at h <;> cases h
        all_goals
          exact hs.keep rfl rfl (fun h => h.elim) (by simp) fun w hw => by
            simp [hpc, CtlPc.Told] at hw
    | print stats =>
      cases stats with
      | nil =>
        simp only [control, hpc] at h
        cases h
        exact hs.keep rfl rfl (fun h => h.elim) (by simp) fun w hw => by
          simp [hpc, CtlPc.Told] at hw
      | cons stat stats =>
        obtain ⟨clock, rfl, -⟩ := control_print_inv hpc h
        exact hs.keep rfl rfl (fun h => h.elim) (by simp) fun w hw => by
          simp [hpc, CtlPc.Told] at hw
    | loadExit =>
      simp only [control, hpc] at h
      cases h
      refine hs.keep rfl rfl ?_ ?_ fun w hw => by simp [hpc, CtlPc.Told] at hw
      · intro hstop
        by_contra hexit
        simp [hexit, CtlPc.Stopping] at hstop
      · intro queues hq
        split at hq
        · cases hq
          exact horder
        · cases hq
    | sendExit queues =>
      have hstop := hs.exit (by rw [hpc]; trivial)
      cases queues with
      | nil =>
        simp only [control, hpc] at h
        cases h
        exact hs.keep rfl rfl (fun _ => hstop) (by simp) fun _ _ => trivial
      | cons v queues =>
        simp only [control, hpc] at h
        cases h
        have hnodup := List.nodup_cons.1 (hs.nodup _ hpc)
        refine hs.send (by simp [hpc, CtlPc.Told]) (fun _ => hstop) ?_ ?_
        · rintro _ ⟨⟩
          exact hnodup.2
        · rintro u (hu | ⟨rfl, -⟩)
          · rw [hpc] at hu
            exact fun h => hu (List.mem_cons_of_mem _ h)
          · exact hnodup.1
    | sendStats queues =>
      cases queues with
      | nil =>
        simp only [control, hpc] at h
        cases h
        exact hs.keep rfl rfl (fun h => h.elim) (by simp) fun w hw => by
          simp [hpc, CtlPc.Told] at hw
      | cons v queues =>
        simp only [control, hpc] at h
        cases h
        refine hs.send (by simp [hpc, CtlPc.Told]) (fun h => h.elim) (by simp) ?_
        rintro u (hu | ⟨-, hu⟩)
        · simp [hpc, CtlPc.Told] at hu
        · cases hu
    | done =>
      simp only [control, hpc] at h
      cases h

/-! ## After the controller -/

/-- A worker that finds an `Exit` within its next `n` looks for a command, or exited. -/
def Controlled.ExitsWithin (P : WorkerProgram τ π W σ ρ) (w : W) (n : Nat)
    (s : Controlled τ W σ C R) : Prop :=
  P.exited s.prog w = true ∨
    ∃ l, Fifo.contents (s.commands w) = l ++ [.exit] ∧ .exit ∉ l ∧ l.length < n

/-- A worker that will not find an `Exit`. -/
def Controlled.NeverExits (P : WorkerProgram τ π W σ ρ) (w : W) (s : Controlled τ W σ C R) : Prop :=
  P.exited s.prog w = false ∧ .exit ∉ Fifo.contents (s.commands w)

/-- What a step does to a worker's commands when the controller is done. -/
theorem Controlled.step_done [Preorder σ] (hP : P.Lawful) (hpc : s.pc = .done) {a : CtlAct π W}
    (h : s.step P order a = some (s', rows)) (w : W) : s'.pc = .done ∧
      (P.exited s'.prog w = P.exited s.prog w ∧ s'.commands w = s.commands w ∧
          (a = .poll w → P.exited s.prog w = false ∧ Fifo.contents (s.commands w) = []) ∨
        a = .poll w ∧ P.exited s.prog w = false ∧ ∃ cmd,
          Fifo.contents (s.commands w) = cmd :: Fifo.contents (s'.commands w) ∧
          (P.exited s'.prog w = true ↔ cmd = .exit)) := by
  cases a with
  | work a =>
    obtain ⟨t, u, ht, rfl⟩ := step_work_inv h
    exact ⟨hpc, .inl ⟨by rw [hP.exited_step ht], rfl, nofun⟩⟩
  | interrupt =>
    cases h
    exact ⟨hpc, .inl ⟨rfl, rfl, nofun⟩⟩
  | poll v =>
    obtain ⟨cmd, t, ht, hcase⟩ := step_poll_inv h
    obtain ⟨hin, hexited⟩ := hP.exited_poll ht
    obtain ⟨rfl, hnil, rfl⟩ | ⟨c, q, rfl, hc, -, rfl⟩ := hcase
    · refine ⟨hpc, .inl ⟨?_, rfl, ?_⟩⟩
      · rw [Bool.eq_iff_iff, hexited w]
        simp
      · rintro ⟨⟩
        exact ⟨hin, hnil⟩
    · rcases eq_or_ne w v with rfl | hw
      · refine ⟨hpc, .inr ⟨rfl, hin, c, ?_, ?_⟩⟩
        · rw [hc]
          simp
        · rw [hexited w, hin]
          simp
      · refine ⟨hpc, .inl ⟨?_, Function.update_of_ne hw _ _, ?_⟩⟩
        · rw [Bool.eq_iff_iff, hexited w]
          simp [hw]
        · rintro ⟨⟩
          exact absurd rfl hw
  | control now now' =>
    have h : s.control P order now now' = some (s', rows) := h
    simp only [control, hpc] at h
    cases h

/-- Whether an action is the look of a worker for a command. -/
def CtlAct.isPoll (w : W) : CtlAct π W → Bool
  | .poll v => v = w
  | _ => false

theorem CtlAct.isPoll_iff {a : CtlAct π W} : a.isPoll w = true ↔ a = .poll w := by
  cases a <;> simp [isPoll]

/-- A look brings the `Exit` closer. -/
theorem Controlled.ExitsWithin.step [Preorder σ] (hP : P.Lawful) (hpc : s.pc = .done) {n : Nat}
    (hs : s.ExitsWithin P w n) {a : CtlAct π W} (h : s.step P order a = some (s', rows)) :
    s'.ExitsWithin P w (n - if a.isPoll w then 1 else 0) := by
  obtain ⟨-, ⟨hexited, hcommands, hpoll⟩ | ⟨rfl, hin, cmd, hcons, hexit⟩⟩ := step_done hP hpc h w
  · rcases hs with hs | ⟨l, hl, hnone, hlt⟩
    · exact .inl (hexited ▸ hs)
    · refine .inr ⟨l, hcommands ▸ hl, hnone, ?_⟩
      rw [if_neg, Nat.sub_zero]
      · exact hlt
      · rw [CtlAct.isPoll_iff]
        intro ha
        have hnil := (hpoll ha).2
        rw [hl] at hnil
        simp at hnil
  · rw [if_pos (CtlAct.isPoll_iff.2 rfl)]
    rcases hs with hs | ⟨l, hl, hnone, hlt⟩
    · rw [hin] at hs
      cases hs
    · rw [hcons] at hl
      cases l with
      | nil =>
        obtain ⟨rfl, -⟩ := List.cons.inj hl
        exact .inl (hexit.2 rfl)
      | cons x l =>
        obtain ⟨-, hq⟩ := List.cons.inj hl
        rw [List.length_cons] at hlt
        exact .inr ⟨l, hq, fun h => hnone (List.mem_cons_of_mem _ h), by omega⟩

/-- So a worker exits with as many looks. -/
theorem Controlled.ExitsWithin.run [Preorder σ] (hP : P.Lawful) (hpc : s.pc = .done) {n : Nat}
    (hs : s.ExitsWithin P w n) {as : List (CtlAct π W)} {outs : List (List ρ)}
    (h : Run.run (Controlled.step P order) s as = some (s', outs))
    (hn : n ≤ as.countP (CtlAct.isPoll w)) : P.exited s'.prog w = true := by
  induction as generalizing s n outs with
  | nil =>
      cases h
      rcases hs with hs | ⟨l, -, -, hlt⟩
      · exact hs
      · exact absurd (Nat.lt_of_lt_of_le hlt hn) (Nat.not_lt_zero _)
  | cons a as ih =>
      obtain ⟨t, rows, outs', h1, h2, rfl⟩ := run_cons.1 h
      refine ih (step_done hP hpc h1 w).1 (hs.step hP hpc h1) h2 ?_
      rw [List.countP_cons] at hn
      omega

theorem Controlled.NeverExits.step [Preorder σ] (hP : P.Lawful) (hpc : s.pc = .done)
    (hs : s.NeverExits P w) {a : CtlAct π W} (h : s.step P order a = some (s', rows)) :
    s'.NeverExits P w := by
  obtain ⟨-, ⟨hexited, hcommands, -⟩ | ⟨-, -, cmd, hcons, hexit⟩⟩ := step_done hP hpc h w
  · exact ⟨hexited ▸ hs.1, hcommands ▸ hs.2⟩
  · obtain ⟨-, hnone⟩ := hs
    rw [hcons] at hnone
    refine ⟨Bool.eq_false_iff.2 fun hs => hnone ?_, fun h => hnone (List.mem_cons_of_mem _ h)⟩
    rw [hexit.1 hs]
    exact List.mem_cons_self

/-! ## Runs -/

omit [DecidableEq W] in
/-- Before the first steps no worker exited. -/
theorem Controlled.Start.orderly {t : τ} (hs : s.Start t) (hin : ∀ w, P.exited t w = false) :
    s.Orderly P := by
  refine ⟨fun w => (hs.commands w).2, ?_, ?_, ?_, ?_⟩
  · rw [hs.pc]
    exact fun h => h.elim
  · rw [hs.pc]
    nofun
  · intro w hw
    rw [hs.prog, hin, (hs.commands w).1] at hw
    simp at hw
  · intro w hw
    rw [(hs.commands w).1] at hw
    exact absurd hw List.not_mem_nil

theorem run_orderly [Preorder σ] (hP : P.Lawful) (horder : order.Nodup) {t : τ} (hs : s.Start t)
    (hin : ∀ w, P.exited t w = false) {as : List (CtlAct π W)} {outs : List (List ρ)}
    (hrun : run (Controlled.step P order) s as = some (s', outs)) : s'.Orderly P :=
  run_invariant (I := Controlled.Orderly P) (Q := fun _ => True)
    (fun _ _ _ _ _ hi h => hi.step hP horder h) (hs.orderly hin) (fun _ _ => trivial) hrun

omit [DecidableEq W] [Fifo R (StatsMessage σ)] in
/-- The offer of `Exit` is refused exactly if two `GetStats` are in the queue. -/
theorem Controlled.Orderly.exit_mem (hs : s.Orderly P) {queues : List W}
    (hpc : s.pc = .sendExit (w :: queues)) : .exit ∈ Fifo.contents (offer (s.commands w) .exit) ↔
      Fifo.contents (s.commands w) ≠ [.getStats, .getStats] := by
  have hnone : .exit ∉ Fifo.contents (s.commands w) := by
    intro h
    have htold := hs.told w (.inr h)
    rw [hpc] at htold
    exact htold List.mem_cons_self
  have hle := Fifo.length_le (s.commands w)
  rw [hs.capacity w] at hle
  rw [contents_offer, hs.capacity w]
  generalize Fifo.contents (s.commands w) = l at *
  have hall : ∀ cmd ∈ l, cmd = .getStats := by
    rintro (_ | _) hcmd
    · exact absurd hcmd hnone
    · rfl
  rw [List.eq_replicate_of_mem hall] at *
  generalize l.length = n at *
  rcases Nat.lt_or_ge n 2 with hlt | hge
  · rw [if_pos (by rwa [List.length_replicate])]
    refine iff_of_true (List.mem_append_right _ (List.mem_singleton.2 rfl)) fun heq => ?_
    have hlen := congrArg List.length heq
    simp at hlen
    omega
  · obtain rfl : n = 2 := Nat.le_antisymm hle hge
    decide

/-- Take any run of the workers and the controller, in any order. No worker leaves its loop before
CTRL-C. The `Exit` that the controller offers to a worker is refused exactly if two `GetStats` are
in the worker's queue. When the controller is done, a worker that has an `Exit` in its queue exits
with its second look for a command at the latest, whatever happens in between, and a worker that
neither exited nor has one never exits. -/
theorem run_shutdown [Preorder σ] (hP : P.Lawful) (horder : order.Nodup) {t : τ} (hs : s.Start t)
    (hin : ∀ w, P.exited t w = false) {as : List (CtlAct π W)} {outs : List (List ρ)}
    (hrun : run (Controlled.step P order) s as = some (s', outs)) (w : W) :
    (P.exited s'.prog w = true → s'.exit = true) ∧
    (∀ queues, s'.pc = .sendExit (w :: queues) →
      (.exit ∈ Fifo.contents ((s'.send w .exit).commands w) ↔
        Fifo.contents (s'.commands w) ≠ [.getStats, .getStats])) ∧
    (s'.pc = .done → ∀ as' s'' outs',
      run (Controlled.step P order) s' as' = some (s'', outs') →
      if P.exited s'.prog w = true ∨ .exit ∈ Fifo.contents (s'.commands w) then
        2 ≤ as'.countP (CtlAct.isPoll w) → P.exited s''.prog w = true
      else P.exited s''.prog w = false) := by
  have ho := run_orderly hP horder hs hin hrun
  refine ⟨?_, ?_, ?_⟩
  · intro hexited
    refine ho.exit ?_
    have htold := ho.told w (.inl hexited)
    cases hpc : s'.pc with
    | sendExit | done => trivial
    | _ =>
      rw [hpc] at htold
      exact htold
  · intro queues hpc
    rw [Controlled.send_commands, if_pos rfl]
    exact ho.exit_mem hpc
  · intro hpc as' s'' outs' hrun'
    split
    · next h =>
        intro hpolls
        have hwithin : s'.ExitsWithin P w 2 := by
          rcases h with h | h
          · exact .inl h
          · obtain ⟨l, hl, hnone⟩ := ho.last w h
            have hle := Fifo.length_le (s'.commands w)
            rw [hl, ho.capacity w, List.length_append, List.length_singleton] at hle
            exact .inr ⟨l, hl, hnone, by omega⟩
        exact hwithin.run hP hpc hrun' hpolls
    · next h =>
        obtain ⟨hin', hnone⟩ := not_or.1 h
        have hnever : s'.NeverExits P w := ⟨Bool.eq_false_iff.2 hin', hnone⟩
        refine (run_invariant (I := fun s : Controlled τ W σ C R => s.pc = .done ∧ s.NeverExits P w)
          (Q := fun _ => True) ?_ ⟨hpc, hnever⟩ (fun _ _ => trivial) hrun').2.1
        rintro s a s' rows - ⟨hpc, hs⟩ hstep
        exact ⟨(Controlled.step_done hP hpc hstep w).1, hs.step hP hpc hstep⟩

end

end Afxdp
