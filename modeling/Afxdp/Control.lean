import Afxdp.Lib.Queue
import Afxdp.TwoLink

/-!
# Workers under a controller

`l2fwd-2link-multicore` and `rxdrop` run their workers under a controller thread. It shares two
queues with each worker, one for commands and one for responses, and sleeps for a second in each
round, collects a response from every worker, prints them, and then tells the workers to send their
statistics, or to exit if the program was interrupted. A worker looks for a command in each round of
its own loop. `Controlled` is the state of all of it, over a program of the workers that is given by
what it does apart from the commands (`WorkerProgram`), and `Controlled.step` is one access to a
queue by either side, one line of the table, or one step of the workers.

The clock is the one of `SystemTime`. It can be set, so it may show anything each time it is read;
`Controlled.Ticks` says that it is not set back. The queues are taken by what `rtrb` documents of
them (`Queue.Fifo`). The text of the table and the errors that are only printed are left out.
-/

namespace Afxdp

open Run (EveryStep checkSteps everyStep_of_checkSteps)
open Queue (Fifo offer)

/-! ## Messages -/

/-- `StatsMessage`, which is the only `Response`, with the statistics `σ` of a worker. -/
structure StatsMessage (σ : Type) where
  core : Nat
  stats : σ

/-- `StatState`, with the time in nanoseconds. -/
structure StatState (σ : Type) where
  time : Nat
  stats : StatsMessage σ

/-- Nanoseconds in a second. -/
def nanosPerSec : Nat := 1000000000

/-- `now.duration_since(time).unwrap().as_secs()`. -/
def secsSince (now time : Nat) : Except Panic Nat :=
  if time ≤ now then .ok ((now - time) / nanosPerSec) else .error .unwrap

/-- A division of machine integers. -/
def div64 (a b : Nat) : Except Panic Nat :=
  if b = 0 then .error (.msg "attempt to divide by zero") else .ok (a / b)

/-- The rate of a counter: its difference by the seconds that passed. -/
def rate (p : Profile) (new old timeDiff : Nat) : Except Panic Nat := do
  let diff ← p.sub64 new old
  div64 diff timeDiff

theorem secsSince_ok {now time : Nat} (h : time ≤ now) :
    secsSince now time = .ok ((now - time) / nanosPerSec) := if_pos h

/-- Over a positive number of seconds the rate of a counter that did not decrease is exact, in both
profiles. -/
theorem rate_ok (p : Profile) {new old secs : Nat} (h : old ≤ new) (hsecs : 0 < secs) :
    rate p new old secs = .ok ((new - old) / secs) := by
  rw [rate, p.sub64_ok h]
  exact if_neg (Nat.ne_of_gt hsecs)

/-- Over less than a second there is no rate. -/
theorem rate_zero (p : Profile) (new old : Nat) : ∃ e, rate p new old 0 = .error e := by
  rw [rate]
  cases p.sub64 new old with
  | error e => exact ⟨e, rfl⟩
  | ok diff => exact ⟨_, rfl⟩

/-- Otherwise a debug build may panic on a counter that decreased, before it divides. -/
theorem rate_error_inv {p : Profile} {new old secs : Nat} {e : Panic}
    (h : rate p new old secs = .error e) : p = .debug ∧ e = .overflow ∨
      secs = 0 ∧ e = .msg "attempt to divide by zero" := by
  rw [rate] at h
  cases hdiff : p.sub64 new old with
  | error e' =>
    rw [hdiff] at h
    cases h
    cases p with
    | release => cases hdiff
    | debug =>
      simp only [Profile.sub64] at hdiff
      split at hdiff
      · cases hdiff
      · cases hdiff
        exact .inl ⟨rfl, rfl⟩
  | ok diff =>
    rw [hdiff] at h
    change div64 diff secs = .error e at h
    rw [div64] at h
    split at h
    · next hsecs =>
        cases h
        exact .inr ⟨hsecs, rfl⟩
    · cases h

/-! ## Programs of workers -/

/-- A program of the workers `W` in a build, whose states are `τ` and whose steps, except for
looking for a command, are `π`. -/
structure WorkerProgram (τ π W σ ρ : Type) where
  step : τ → π → Option (τ × Unit)
  /-- What a worker does that looked for a command and found this one, or none. -/
  poll : τ → W → Option Command → Option τ
  /-- `stats` of a worker. -/
  stats : τ → W → σ
  /-- Whether a worker left its loop. -/
  exited : τ → W → Bool
  /-- `config.core` of a worker. -/
  core : W → Nat
  /-- `StatState::diff`, at a time. -/
  diff : Nat → StatState σ → StatState σ → Except Panic (List ρ)

/-- Counters do not decrease, and a worker leaves its loop on `Exit`, only then, and for good. -/
structure WorkerProgram.Lawful {τ π W σ ρ : Type} [Preorder σ] (P : WorkerProgram τ π W σ ρ) :
    Prop where
  stats_step : ∀ {t a t' u}, P.step t a = some (t', u) → ∀ w, P.stats t w ≤ P.stats t' w
  stats_poll : ∀ {t w cmd t'}, P.poll t w cmd = some t' → P.stats t' = P.stats t
  exited_step : ∀ {t a t' u}, P.step t a = some (t', u) → P.exited t' = P.exited t
  exited_poll : ∀ {t w cmd t'}, P.poll t w cmd = some t' → P.exited t w = false ∧
    ∀ v, P.exited t' v = true ↔ P.exited t v = true ∨ v = w ∧ cmd = some .exit
  diff_ok : ∀ {now b} {cur : StatState σ}, b.stats.stats ≤ cur.stats.stats →
    b.time + nanosPerSec ≤ now → ∃ rows, P.diff now cur b = .ok rows
  diff_error : ∀ {now b} {cur : StatState σ}, now < b.time + nanosPerSec →
    ∃ e, P.diff now cur b = .error e

/-! ## States -/

/-- Where the controller is. The list of a loop is what it has not come to yet. -/
inductive CtlPc (W σ : Type)
  | sleep
  | collect (queues : List W)
  | print (stats : List (StatsMessage σ))
  | loadExit
  | sendExit (queues : List W)
  | sendStats (queues : List W)
  | done

/-- The workers, the queues, and the controller. -/
structure Controlled (τ W σ C R : Type) where
  prog : τ
  commands : W → C
  responses : W → R
  /-- The flag that CTRL-C sets. -/
  exit : Bool
  /-- What the clock showed when the controller woke up, or read it after that. -/
  clock : Nat
  pc : CtlPc W σ
  pendingStats : List (StatsMessage σ)
  map : Nat → Option (StatState σ)

/-- A step of the workers, a worker that looks for a command, the next step of the controller, or
CTRL-C. The clock shows `now` when the controller wakes up or reads it, and `now'` when it reads it
again in the same step. -/
inductive CtlAct (π W : Type)
  | work (a : π)
  | poll (w : W)
  | control (now now' : Nat)
  | interrupt
deriving DecidableEq

/-! ## Steps -/

section
variable {τ π W σ ρ C R : Type} [DecidableEq W] [Fifo C Command] [Fifo R (StatsMessage σ)]

/-- The state in which a command was offered to a worker. An error is only printed. -/
def Controlled.send (s : Controlled τ W σ C R) (w : W) (cmd : Command) : Controlled τ W σ C R :=
  { s with commands := Function.update s.commands w (offer (s.commands w) cmd) }

omit [Fifo R (StatsMessage σ)] in
theorem Controlled.send_commands (s : Controlled τ W σ C R) (w : W) (cmd : Command) (v : W) :
    (s.send w cmd).commands v =
      if v = w then offer (s.commands w) cmd else s.commands v := Function.update_apply _ _ _ _

/-- A step of the controller, which has a queue pair for each of the workers `order`, and the rows
it adds to the table. -/
def Controlled.control (P : WorkerProgram τ π W σ ρ) (order : List W) (s : Controlled τ W σ C R)
    (now now' : Nat) : Option (Controlled τ W σ C R × List ρ) :=
  match s.pc with
  | .sleep => some ({ s with clock := now, pc := .collect order }, [])
  | .collect [] => some ({ s with pc := .print s.pendingStats }, [])
  | .collect (w :: queues) =>
    match Fifo.pop (s.responses w) with
    | some (msg, q) => some ({ s with
        pc := .collect queues
        responses := Function.update s.responses w q
        pendingStats := s.pendingStats ++ [msg] }, [])
    | none => some ({ s with pc := .collect queues }, [])
  | .print [] => some ({ s with pc := .loadExit, pendingStats := [] }, [])
  | .print (stat :: stats) =>
    let current : StatState σ := ⟨now, stat⟩
    let map := Function.update s.map stat.core (some current)
    match s.map stat.core with
    | some old =>
      match P.diff now' current old with
      | .ok rows => some ({ s with clock := now', pc := .print stats, map }, rows)
      | .error _ => none
    | none => some ({ s with clock := now, pc := .print stats, map }, [])
  | .loadExit =>
    some ({ s with pc := if s.exit then .sendExit order else .sendStats order }, [])
  | .sendExit [] => some ({ s with pc := .done }, [])
  | .sendExit (w :: queues) => some ({ s.send w .exit with pc := .sendExit queues }, [])
  | .sendStats [] => some ({ s with pc := .sleep }, [])
  | .sendStats (w :: queues) => some ({ s.send w .getStats with pc := .sendStats queues }, [])
  | .done => none

/-- The responses after a worker handled a command. A response for which there is no room is
dropped. -/
def Controlled.respond (P : WorkerProgram τ π W σ ρ) (s : Controlled τ W σ C R) (w : W) :
    Command → W → R
  | .exit => s.responses
  | .getStats => Function.update s.responses w
      (offer (s.responses w) ⟨P.core w, P.stats s.prog w⟩)

/-- One step. -/
def Controlled.step (P : WorkerProgram τ π W σ ρ) (order : List W) (s : Controlled τ W σ C R) :
    CtlAct π W → Option (Controlled τ W σ C R × List ρ)
  | .work a => (P.step s.prog a).map fun r => ({ s with prog := r.1 }, [])
  | .poll w =>
    match Fifo.pop (s.commands w) with
    | none => (P.poll s.prog w none).map fun prog => ({ s with prog }, [])
    | some (cmd, q) => (P.poll s.prog w (some cmd)).map fun prog =>
        ({ s with
            prog
            commands := Function.update s.commands w q
            responses := s.respond P w cmd }, [])
  | .control now now' => s.control P order now now'
  | .interrupt => some ({ s with exit := true }, [])

/-- The clock is not set back: it shows a second more at least when the controller wakes up, and
when the controller reads it, no less than before. -/
def Controlled.Ticks (s : Controlled τ W σ C R) : CtlAct π W → Prop
  | .control now now' =>
    match s.pc with
    | .sleep => s.clock + nanosPerSec ≤ now
    | .print (_ :: _) => s.clock ≤ now ∧ now ≤ now'
    | _ => True
  | _ => True

instance (s : Controlled τ W σ C R) : (a : CtlAct π W) → Decidable (s.Ticks a)
  | .control now now' => by
    rw [Controlled.Ticks]
    split <;> infer_instance
  | .work _ | .poll _ | .interrupt => instDecidableTrue

/-- Before the first steps. -/
structure Controlled.Start (s : Controlled τ W σ C R) (t : τ) : Prop where
  prog : s.prog = t
  commands : ∀ w, Fifo.contents (s.commands w) = [] ∧ Fifo.capacity (s.commands w) = 2
  responses : ∀ w, Fifo.contents (s.responses w) = [] ∧ Fifo.capacity (s.responses w) = 2
  exit : s.exit = false
  pc : s.pc = .sleep
  pendingStats : s.pendingStats = []
  map : ∀ c, s.map c = none

omit [DecidableEq W] [Fifo C Command] [Fifo R (StatsMessage σ)] in
/-- The state in which `main` starts the threads, with queues of its own for each worker. -/
def Controlled.init (t : τ) :
    Controlled τ W σ (Queue.Bounded Command) (Queue.Bounded (StatsMessage σ)) where
  prog := t
  commands _ := .new 2
  responses _ := .new 2
  exit := false
  clock := 0
  pc := .sleep
  pendingStats := []
  map _ := none

omit [DecidableEq W] in
theorem Controlled.init_start (t : τ) : (init (W := W) (σ := σ) t).Start t :=
  ⟨rfl, fun _ => ⟨rfl, rfl⟩, fun _ => ⟨rfl, rfl⟩, rfl, rfl, rfl, fun _ => rfl⟩

/-! ## What a step did -/

variable {P : WorkerProgram τ π W σ ρ} {order : List W}
  {s s' : Controlled τ W σ C R} {rows : List ρ}

theorem Controlled.step_work_inv {a : π} (h : s.step P order (.work a) = some (s', rows)) :
    ∃ t u, P.step s.prog a = some (t, u) ∧ s' = { s with prog := t } := by
  obtain ⟨⟨t, u⟩, hr, h⟩ := Option.map_eq_some_iff.1 h
  cases h
  exact ⟨t, u, hr, rfl⟩

/-- The controller does nothing to the workers but through the queues. -/
theorem Controlled.control_prog {now now' : Nat}
    (h : s.control P order now now' = some (s', rows)) : s'.prog = s.prog := by
  simp only [control] at h
  repeat' split at h
  all_goals cases h
  all_goals rfl

/-- A response that is printed is compared with the entry of its core, if there is one, and takes
its place. -/
theorem Controlled.control_print_inv {now now' : Nat} {stat : StatsMessage σ}
    {stats : List (StatsMessage σ)} (hpc : s.pc = .print (stat :: stats))
    (h : s.control P order now now' = some (s', rows)) :
    ∃ clock, s' = { s with
        clock
        pc := .print stats
        map := Function.update s.map stat.core (some ⟨now, stat⟩) } ∧
      (clock = now ∧ s.map stat.core = none ∧ rows = [] ∨
        clock = now' ∧ ∃ old, s.map stat.core = some old ∧
          P.diff now' ⟨now, stat⟩ old = .ok rows) := by
  simp only [control, hpc] at h
  split at h
  · next old hold =>
      split at h
      · next rows' hrows =>
          cases h
          exact ⟨now', rfl, .inr ⟨rfl, old, hold, hrows⟩⟩
      · cases h
  · next hnone =>
      cases h
      exact ⟨now, rfl, .inl ⟨rfl, hnone, rfl⟩⟩

/-- The other steps leave the entries alone, and print nothing. -/
theorem Controlled.control_map {now now' : Nat} (h : s.control P order now now' = some (s', rows))
    (hpc : ∀ stat stats, s.pc ≠ .print (stat :: stats)) : s'.map = s.map ∧ rows = [] := by
  simp only [control] at h
  repeat' split at h
  all_goals cases h
  all_goals first
    | exact ⟨rfl, rfl⟩
    | exact absurd ‹_› (hpc _ _)

/-- Rows come from the comparison of a response with the entry of its core. -/
theorem Controlled.control_rows_inv {now now' : Nat}
    (h : s.control P order now now' = some (s', rows)) (hrows : rows ≠ []) :
    ∃ stat stats old, s.pc = .print (stat :: stats) ∧ s.map stat.core = some old ∧
      P.diff now' ⟨now, stat⟩ old = .ok rows := by
  by_cases hpc : ∃ stat stats, s.pc = .print (stat :: stats)
  · obtain ⟨stat, stats, hpc⟩ := hpc
    obtain ⟨clock, -, ⟨-, -, hnil⟩ | ⟨-, old, hold, hdiff⟩⟩ := control_print_inv hpc h
    · exact absurd hnil hrows
    · exact ⟨stat, stats, old, hpc, hold, hdiff⟩
  · refine absurd (control_map h fun stat stats heq => hpc ⟨stat, stats, heq⟩).2 hrows

/-- The controller gets on unless it is done, or a comparison panics. -/
theorem Controlled.control_eq_none_iff {now now' : Nat} :
    s.control P order now now' = none ↔ s.pc = .done ∨
      ∃ stat stats old e, s.pc = .print (stat :: stats) ∧ s.map stat.core = some old ∧
        P.diff now' ⟨now, stat⟩ old = .error e := by
  constructor
  · intro h
    simp only [control] at h
    repeat' split at h
    all_goals first
      | exact .inl ‹_›
      | exact .inr ⟨_, _, _, _, ‹_›, ‹_›, ‹_›⟩
      | cases h
  · rintro (hpc | ⟨stat, stats, old, e, hpc, hold, hdiff⟩)
    · simp only [control, hpc]
    · simp only [control, hpc, hold, hdiff]

/-- A worker that looks for a command takes the oldest one, and answers `GetStats`. -/
theorem Controlled.step_poll_inv {w : W} (h : s.step P order (.poll w) = some (s', rows)) :
    ∃ cmd t, P.poll s.prog w cmd = some t ∧
      (cmd = none ∧ Fifo.contents (s.commands w) = [] ∧ s' = { s with prog := t } ∨
        ∃ c q, cmd = some c ∧ Fifo.contents (s.commands w) = c :: Fifo.contents q ∧
          Fifo.capacity q = Fifo.capacity (s.commands w) ∧
          s' = { s with
            prog := t
            commands := Function.update s.commands w q
            responses := s.respond P w c }) := by
  simp only [step] at h
  split at h
  · next hpop =>
      obtain ⟨t, ht, h⟩ := Option.map_eq_some_iff.1 h
      cases h
      exact ⟨none, t, ht, .inl ⟨rfl, Fifo.pop_none hpop, rfl⟩⟩
  · next cmd q hpop =>
      obtain ⟨t, ht, h⟩ := Option.map_eq_some_iff.1 h
      cases h
      obtain ⟨hc, hcap⟩ := Fifo.pop_some hpop
      exact ⟨some cmd, t, ht, .inr ⟨cmd, q, rfl, hc, hcap, rfl⟩⟩

/-- Programs whose steps and looks for commands are steps of the workers that `Q` allows are
programs over the workers. -/
theorem Controlled.over {α β : Type} {wstep : τ → α → Option (τ × β)} {Q : α → Prop}
    {Allowed : CtlAct π W → Prop}
    (hstep : ∀ {t a t' u}, Allowed (.work a) → P.step t a = some (t', u) →
      ∃ b out, Q b ∧ wstep t b = some (t', out))
    (hpoll : ∀ {t w cmd t'}, P.poll t w cmd = some t' →
      ∃ b out, Q b ∧ wstep t b = some (t', out)) :
    Program.Over wstep (step (C := C) (R := R) P order) Controlled.prog Q Allowed := by
  have hone : ∀ {b : α}, Q b → ∀ c ∈ [b], Q c := by
    intro b hb c hc
    rwa [List.mem_singleton.1 hc]
  have hnone : ∀ c ∈ ([] : List α), Q c := fun c hc => absurd hc List.not_mem_nil
  intro s a s' rows ha h
  cases a with
  | work a =>
    obtain ⟨t, u, ht, rfl⟩ := step_work_inv h
    obtain ⟨b, out, hQ, hb⟩ := hstep ha ht
    exact ⟨[b], hone hQ, .single hb⟩
  | poll w =>
    obtain ⟨cmd, t, ht, hcase⟩ := step_poll_inv h
    obtain ⟨b, out, hQ, hb⟩ := hpoll ht
    refine ⟨[b], hone hQ, ?_⟩
    obtain ⟨-, -, rfl⟩ | ⟨c, q, -, -, -, rfl⟩ := hcase
    · exact .single hb
    · exact .single hb
  | control now now' =>
    refine ⟨[], hnone, ?_⟩
    rw [control_prog h]
    exact .nil _
  | interrupt =>
    cases h
    exact ⟨[], hnone, .nil _⟩

/-- Whether the clock is set back can be evaluated along a run. -/
theorem Controlled.ticks_of_check {as : List (CtlAct π W)}
    (h : checkSteps (step P order) (fun s a => decide (s.Ticks a)) s as = true) :
    EveryStep (step P order) (fun s a _ _ => s.Ticks a) s as := by
  simpa only [decide_eq_true_eq] using everyStep_of_checkSteps h

/-- A worker's response goes to the end of its queue, and the controller collects the first one. -/
theorem Controlled.step_responses {a : CtlAct π W} (h : s.step P order a = some (s', rows))
    (v : W) : Fifo.contents (s'.responses v) = Fifo.contents (s.responses v) ∨
      (a = .poll v ∧ Fifo.contents (s'.responses v) =
        Fifo.contents (s.responses v) ++ [⟨P.core v, P.stats s.prog v⟩]) ∨
      ∃ now now' msg, a = .control now now' ∧
        Fifo.contents (s.responses v) = msg :: Fifo.contents (s'.responses v) := by
  cases a with
  | work a =>
    obtain ⟨t, u, -, rfl⟩ := step_work_inv h
    exact .inl rfl
  | interrupt =>
    cases h
    exact .inl rfl
  | poll w =>
    obtain ⟨cmd, t, -, ⟨-, -, rfl⟩ | ⟨c, q, -, -, -, rfl⟩⟩ := step_poll_inv h
    · exact .inl rfl
    · cases c with
      | exit => exact .inl rfl
      | getStats =>
        rcases eq_or_ne v w with rfl | hv
        · have hoffer := Queue.contents_offer (s.responses v) ⟨P.core v, P.stats s.prog v⟩
          simp only [respond, Function.update_self, hoffer]
          split
          · exact .inr (.inl ⟨trivial, rfl⟩)
          · exact .inl rfl
        · exact .inl (by simp only [respond, Function.update_of_ne hv])
  | control now now' =>
    have h : s.control P order now now' = some (s', rows) := h
    by_cases hpc : ∃ w queues, s.pc = .collect (w :: queues)
    · obtain ⟨w, queues, hpc⟩ := hpc
      simp only [control, hpc] at h
      split at h
      · next msg q hpop =>
          cases h
          rcases eq_or_ne v w with rfl | hv
          · refine .inr (.inr ⟨now, now', msg, rfl, ?_⟩)
            simp only [Function.update_self]
            exact (Fifo.pop_some hpop).1
          · exact .inl (by simp only [Function.update_of_ne hv])
      · cases h
        exact .inl rfl
    · simp only [control] at h
      repeat' split at h
      all_goals cases h
      all_goals first
        | exact .inl rfl
        | exact absurd ⟨_, _, ‹_›⟩ hpc

end

end Afxdp
