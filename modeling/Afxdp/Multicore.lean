import Afxdp.Clash
import Afxdp.Refill
import Afxdp.Shutdown

/-!
# `l2fwd-2link-multicore`

The workers of `TwoLink` as a program under the controller. Every step of the whole program is a
step of the workers or changes nothing of theirs (`program_over`), so what holds of the workers in
every run holds here. Their statistics do not decrease, and they leave their loop on `Exit` only
(`program_lawful`), so what is known of the controller applies to it. With both, what it prints are
numbers that the worker had, at two times of the run: the rates are those between them, over a
second or more, and a link never shows more packets sent than the other link shows received
(`multicore_table`).
-/

namespace Afxdp

open Run (run EveryStep)
open Queue (Fifo Bounded)

/-! ## Statistics -/

/-- Statistics are compared counter by counter. -/
instance : PartialOrder Stats where
  le a b := a.cqBufsReceived ≤ b.cqBufsReceived ∧ a.fqBufsFilled ≤ b.fqBufsFilled ∧
    a.rxPackets ≤ b.rxPackets ∧ a.txPackets ≤ b.txPackets
  le_refl _ := ⟨Nat.le_refl _, Nat.le_refl _, Nat.le_refl _, Nat.le_refl _⟩
  le_trans _ _ _ h h' := ⟨Nat.le_trans h.1 h'.1, Nat.le_trans h.2.1 h'.2.1,
    Nat.le_trans h.2.2.1 h'.2.2.1, Nat.le_trans h.2.2.2 h'.2.2.2⟩
  le_antisymm := by
    rintro ⟨a, b, c, d⟩ ⟨a', b', c', d'⟩ ⟨h1, h2, h3, h4⟩ ⟨h1', h2', h3', h4'⟩
    rw [Stats.mk.injEq]
    exact ⟨Nat.le_antisymm h1 h1', Nat.le_antisymm h2 h2', Nat.le_antisymm h3 h3',
      Nat.le_antisymm h4 h4'⟩

/-- `StatsRow`. -/
structure StatsRow where
  core : Nat
  txPackets : Nat
  txPacketsRate : Nat
  rxPackets : Nat
  rxPacketsRate : Nat
deriving DecidableEq, Repr

/-- The row of a link in `StatState::diff`. -/
def StatState.row (p : Profile) (timeDiff : Nat) (self b : StatState (Pos → Stats)) (pos : Pos) :
    Except Panic StatsRow := do
  let new := self.stats.stats pos
  let old := b.stats.stats pos
  let txPacketsRate ← rate p new.txPackets old.txPackets timeDiff
  let rxPacketsRate ← rate p new.rxPackets old.rxPackets timeDiff
  return ⟨self.stats.core, new.txPackets, txPacketsRate, new.rxPackets, rxPacketsRate⟩

/-- `StatState::diff`. -/
def StatState.diff (p : Profile) (now : Nat) (self b : StatState (Pos → Stats)) :
    Except Panic (List StatsRow) := do
  let timeDiff ← secsSince now b.time
  [Pos.first, Pos.second].mapM (StatState.row p timeDiff self b)

/-- The row of a link whose counters did not decrease, over `secs` seconds. -/
def exactRow (core secs : Nat) (new old : Pos → Stats) (pos : Pos) : StatsRow :=
  ⟨core, (new pos).txPackets, ((new pos).txPackets - (old pos).txPackets) / secs,
    (new pos).rxPackets, ((new pos).rxPackets - (old pos).rxPackets) / secs⟩

theorem StatState.diff_ok (p : Profile) {now : Nat} {self b : StatState (Pos → Stats)}
    (h : b.stats.stats ≤ self.stats.stats) (hnow : b.time + nanosPerSec ≤ now) :
    StatState.diff p now self b = .ok ([Pos.first, Pos.second].map
      (exactRow self.stats.core ((now - b.time) / nanosPerSec) self.stats.stats
        b.stats.stats)) := by
  generalize hsecs : (now - b.time) / nanosPerSec = secs
  have hpos : 0 < secs := by
    rw [← hsecs]
    exact Nat.div_pos (by omega) (by decide)
  have hrow : ∀ pos, row p secs self b pos =
      .ok (exactRow self.stats.core secs self.stats.stats b.stats.stats pos) := by
    intro pos
    rw [row, rate_ok p (h pos).2.2.2 hpos, rate_ok p (h pos).2.2.1 hpos]
    rfl
  rw [diff, secsSince_ok (by omega), hsecs]
  show [Pos.first, Pos.second].mapM (row p secs self b) = _
  simp only [List.mapM_cons, List.mapM_nil, hrow, List.map_cons, List.map_nil]
  rfl

/-- Within a second of the entry it panics. -/
theorem StatState.diff_error (p : Profile) {now : Nat} {self b : StatState (Pos → Stats)}
    (hnow : now < b.time + nanosPerSec) : ∃ e, StatState.diff p now self b = .error e := by
  rw [diff]
  by_cases hle : b.time ≤ now
  · have hsecs : (now - b.time) / nanosPerSec = 0 := Nat.div_eq_of_lt (by omega)
    rw [secsSince_ok hle, hsecs]
    obtain ⟨e, he⟩ := rate_zero p (self.stats.stats .first).txPackets
      (b.stats.stats .first).txPackets
    have hrow : row p 0 self b .first = .error e := by
      rw [row, he]
      rfl
    refine ⟨e, ?_⟩
    show ([Pos.first, Pos.second].mapM _ : Except Panic _) = _
    rw [List.mapM_cons, hrow]
    rfl
  · exact ⟨.unwrap, by rw [secsSince, if_neg hle]; rfl⟩

theorem StatState.row_error_inv {p : Profile} {secs : Nat} {self b : StatState (Pos → Stats)}
    {pos : Pos} {e : Panic} (h : row p secs self b pos = .error e) :
    p = .debug ∧ e = .overflow ∨ secs = 0 ∧ e = .msg "attempt to divide by zero" := by
  rw [row] at h
  cases htx : rate p (self.stats.stats pos).txPackets (b.stats.stats pos).txPackets secs with
  | error e' =>
    rw [htx] at h
    cases h
    exact rate_error_inv htx
  | ok tx =>
    cases hrx : rate p (self.stats.stats pos).rxPackets (b.stats.stats pos).rxPackets secs with
    | error e' =>
      simp only [htx, hrx] at h
      cases h
      exact rate_error_inv hrx
    | ok rx =>
      simp only [htx, hrx] at h
      cases h

/-- It panics if the clock was set back behind the entry, over less than a second, and in a debug
build also if a counter decreased. -/
theorem StatState.diff_error_inv {p : Profile} {now : Nat} {self b : StatState (Pos → Stats)}
    {e : Panic} (h : StatState.diff p now self b = .error e) : now < b.time ∧ e = .unwrap ∨
      b.time ≤ now ∧ (p = .debug ∧ e = .overflow ∨
        now < b.time + nanosPerSec ∧ e = .msg "attempt to divide by zero") := by
  rw [diff] at h
  by_cases hle : b.time ≤ now
  · refine .inr ⟨hle, ?_⟩
    rw [secsSince_ok hle] at h
    generalize hsecs : (now - b.time) / nanosPerSec = secs at h
    have hrow : ∃ pos, row p secs self b pos = .error e := by
      change [Pos.first, Pos.second].mapM (row p secs self b) = .error e at h
      rw [List.mapM_cons] at h
      cases hfirst : row p secs self b .first with
      | error e' =>
        rw [hfirst] at h
        cases h
        exact ⟨.first, hfirst⟩
      | ok r =>
        rw [hfirst, List.mapM_cons] at h
        cases hsecond : row p secs self b .second with
        | error e' =>
          rw [hsecond] at h
          cases h
          exact ⟨.second, hsecond⟩
        | ok r' =>
          rw [hsecond] at h
          cases h
    obtain ⟨pos, hrow⟩ := hrow
    rcases row_error_inv hrow with herr | ⟨rfl, herr⟩
    · exact .inl herr
    · refine .inr ⟨?_, herr⟩
      rcases Nat.div_eq_zero_iff.1 hsecs with hzero | hlt
      · exact absurd hzero (by decide)
      · omega
  · rw [secsSince, if_neg hle] at h
    cases h
    exact .inl ⟨Nat.lt_of_not_le hle, rfl⟩

/-! ## The program -/

section
variable {W : Type} [DecidableEq W]

/-- The workers of a build, on the given cores. -/
def FwdOpt.program (opt : FwdOpt) (p : Profile) (core : W → Nat) :
    WorkerProgram (Forwarder W) (FwdAct W) W (Pos → Stats) StatsRow where
  step f
    | .command _ _ => none
    | a => fwdStep p opt f a
  poll f w cmd := (fwdStep p opt f (.command w cmd)).map Prod.fst
  stats f w := (f.workers w).stats
  exited f w := (f.workers w).pc = .exited
  core := core
  diff := StatState.diff p

variable {p : Profile} {opt : FwdOpt} {core : W → Nat} {f f' : Forwarder W} {u : Unit}

theorem FwdOpt.program_step_inv {a : FwdAct W} (h : (opt.program p core).step f a = some (f', u)) :
    (∀ w cmd, a ≠ .command w cmd) ∧ fwdStep p opt f a = some (f', u) := by
  cases a with
  | command w cmd => cases h
  | _ => exact ⟨nofun, h⟩

theorem FwdOpt.program_poll_inv {w : W} {cmd : Option Command}
    (h : (opt.program p core).poll f w cmd = some f') :
    fwdStep p opt f (.command w cmd) = some (f', ()) := by
  obtain ⟨⟨f'', u⟩, hstep, rfl⟩ := Option.map_eq_some_iff.1 h
  exact hstep

theorem FwdOpt.worker_in (opt : FwdOpt) : opt.worker.pc ≠ .exited := by
  rw [worker]
  split <;> simp

theorem FwdOpt.loopHead_in (opt : FwdOpt) : opt.loopHead ≠ .exited := by
  rw [loopHead]
  split <;> simp

/-- Each worker is left as it is, or makes a call in its loop or before it. That does not decrease
its counters, and it leaves the loop on `Exit` only. -/
theorem fwdStep_worker {a : FwdAct W} (h : fwdStep p opt f a = some (f', u)) (v : W) :
    f'.workers v = f.workers v ∨
      (f.workers v).pc ≠ .exited ∧ (f.workers v).stats ≤ (f'.workers v).stats ∧
        ((f'.workers v).pc = .exited → a = .command v (some .exit)) := by
  have hset : ∀ {w : W} {r : FwdSys W × FwdWorker}, (f.workers w).pc ≠ .exited →
      (f.workers w).stats ≤ r.2.stats → (r.2.pc = .exited → a = .command w (some .exit)) →
      (f.set w r).workers v = f.workers v ∨
        (f.workers v).pc ≠ .exited ∧ (f.workers v).stats ≤ ((f.set w r).workers v).stats ∧
          (((f.set w r).workers v).pc = .exited → a = .command v (some .exit)) := by
    intro w r hin hle hexited
    rcases eq_or_ne v w with rfl | hv
    · rw [Forwarder.set_self]
      exact .inr ⟨hin, hle, hexited⟩
    · exact .inl (Forwarder.set_of_ne f hv r)
  have hstats : ∀ {stats : Pos → Stats} {pos : Pos} {st : Stats}, stats pos ≤ st →
      stats ≤ Function.update stats pos st := fun h => le_update_self_iff.2 h
  cases a with
  | getBufs w =>
    obtain ⟨hpc, num, n, -, -, rfl⟩ := fwdStep_getBufs_inv h
    exact hset (by simp [hpc]) (le_refl _) (by simp)
  | initialFill w granted =>
    obtain ⟨pos, s, out, hpc, -, -, rfl⟩ := fwdStep_initialFill_inv h
    refine hset (by simp [hpc]) (le_refl _) fun hexited => ?_
    cases pos with
    | first => cases hexited
    | second => exact absurd hexited opt.loopHead_in
  | command w cmd =>
    obtain ⟨hpc, rfl⟩ := fwdStep_command_inv h
    refine hset (by simp [hpc]) (le_refl _) fun hexited => ?_
    by_cases hcmd : cmd = some .exit
    · rw [hcmd]
    · simp [hcmd] at hexited
  | service w grant =>
    obtain ⟨pos, s, out, hpc, -, rfl⟩ := fwdStep_service_inv h
    refine hset (by simp [hpc]) (hstats ?_) (by simp)
    exact ⟨Nat.le_add_right _ _, Nat.le_refl _, Nat.le_refl _, Nat.le_refl _⟩
  | tryRecv w grant =>
    obtain ⟨pos, s, out, hpc, -, rfl⟩ := fwdStep_tryRecv_inv h
    refine hset (by simp [hpc]) (hstats ?_) (by simp)
    exact ⟨Nat.le_refl _, Nat.le_refl _, Nat.le_add_right _ _, Nat.le_refl _⟩
  | forward w granted send =>
    obtain ⟨pos, hpc, rfl | ⟨s, out, -, rfl⟩⟩ := fwdStep_forward_inv h
    · exact hset (by simp [hpc]) (le_refl _) (by simp)
    · refine hset (by simp [hpc]) (hstats ?_) (by simp)
      exact ⟨Nat.le_refl _, Nat.le_refl _, Nat.le_refl _, Nat.le_add_right _ _⟩
  | fill w granted =>
    have hnext : ∀ pos, opt.nextLink pos ≠ .exited := by
      rintro (_ | _)
      · nofun
      · exact opt.loopHead_in
    obtain ⟨pos, hpc, ⟨-, rfl⟩ | ⟨-, s, out, -, -, rfl⟩⟩ := fwdStep_fill_inv h
    · exact hset (by simp [hpc]) (le_refl _) fun h => absurd h (hnext pos)
    · refine hset (by simp [hpc]) (hstats ?_) fun h => absurd h (hnext pos)
      exact ⟨Nat.le_refl _, Nat.le_add_right _ _, Nat.le_refl _, Nat.le_refl _⟩
  | kernel w pos k =>
    obtain ⟨s, out, -, rfl⟩ := fwdStep_kernel_inv h
    exact .inl rfl

/-- The controller can rely on the workers. -/
theorem FwdOpt.program_lawful (opt : FwdOpt) (p : Profile) (core : W → Nat) :
    (opt.program p core).Lawful where
  stats_step := by
    intro f a f' u h v
    obtain ⟨-, h⟩ := program_step_inv h
    show (f.workers v).stats ≤ (f'.workers v).stats
    obtain heq | ⟨-, hle, -⟩ := fwdStep_worker h v
    · rw [heq]
    · exact hle
  stats_poll := by
    intro f w cmd f' h
    obtain ⟨-, rfl⟩ := fwdStep_command_inv (program_poll_inv h)
    exact funext fun v => Forwarder.forall_set (f := f) (P := fun v wk =>
      wk.stats = (f.workers v).stats) (fun _ => rfl) rfl v
  exited_step := by
    intro f a f' u h
    obtain ⟨ha, h⟩ := program_step_inv h
    funext v
    show decide ((f'.workers v).pc = .exited) = decide ((f.workers v).pc = .exited)
    obtain heq | ⟨hin, -, hexited⟩ := fwdStep_worker h v
    · rw [heq]
    · have hin' : (f'.workers v).pc ≠ .exited := fun h => ha v _ (hexited h)
      rw [decide_eq_false hin, decide_eq_false hin']
  exited_poll := by
    intro f w cmd f' h
    obtain ⟨hpc, rfl⟩ := fwdStep_command_inv (program_poll_inv h)
    refine ⟨by simp [program, hpc], fun v => ?_⟩
    rcases eq_or_ne v w with rfl | hv
    · simp [program, Forwarder.set_self, hpc]
    · simp [program, Forwarder.set_of_ne f hv, hv]
  diff_ok h hnow := ⟨_, StatState.diff_ok _ h hnow⟩
  diff_error hnow := StatState.diff_error _ hnow

section
variable {C R : Type} [Fifo C Command] [Fifo R (StatsMessage (Pos → Stats))]
  {order : List W} {s s' : Controlled (Forwarder W) W (Pos → Stats) C R}

/-- The workers and the controller are a program over the workers. -/
theorem FwdOpt.program_over (opt : FwdOpt) (p : Profile) (core : W → Nat) :
    Program.Over (fwdStep p opt)
      (Controlled.step (C := C) (R := R) (opt.program p core) order) Controlled.prog
      (fun _ => True) (fun _ => True) :=
  Controlled.over (fun _ h => ⟨_, _, trivial, (program_step_inv h).2⟩)
    fun h => ⟨_, _, trivial, program_poll_inv h⟩

end

end

/-! ## Two workers -/

/-- What both workers do before their loop. -/
def startCalls (w : Bool) : List (CtlAct (FwdAct Bool) Bool) :=
  [.work (.getBufs w), .work (.initialFill w true), .work (.initialFill w true)]

/-- The calls of a worker's loop. -/
def loopCalls (w : Bool) : List (CtlAct (FwdAct Bool) Bool) :=
  [.work (.service w 0), .work (.tryRecv w 1), .work (.forward w true .sent),
    .work (.fill w true), .work (.service w 0), .work (.tryRecv w 1),
    .work (.forward w true .sent), .work (.fill w true)]

/-- `n` steps of the controller, while the clock shows `now`. -/
def controlCalls (now n : Nat) : List (CtlAct (FwdAct Bool) Bool) :=
  .replicate n (.control now now)

/-- A worker responds, forwards a packet, and responds again. -/
def tableRun : List (CtlAct (FwdAct Bool) Bool) :=
  startCalls true ++ controlCalls nanosPerSec 9 ++
    [.poll true, .work (.kernel true .first .takeFill),
      .work (.kernel true .first (.publish 0 256 1 0))] ++
    loopCalls true ++ controlCalls (2 * nanosPerSec) 10 ++ .poll true :: loopCalls true ++
    controlCalls (4 * nanosPerSec) 4

/-- CTRL-C, before a worker took a command. -/
def exitRun : List (CtlAct (FwdAct Bool) Bool) :=
  startCalls true ++ controlCalls nanosPerSec 9 ++ .interrupt :: controlCalls (2 * nanosPerSec) 9

/-- Both workers respond in one round. -/
def clashRun : List (CtlAct (FwdAct Bool) Bool) :=
  startCalls true ++ startCalls false ++ controlCalls nanosPerSec 9 ++ .poll true :: .poll false ::
    controlCalls (2 * nanosPerSec) 1

/-- Two workers of four buffers with rings of `2 ^ e` slots, and the controller. -/
def twoWorkers (e : Fin 32) : Controlled (Forwarder Bool) Bool (Pos → Stats) (Bounded Command)
    (Bounded (StatsMessage (Pos → Stats))) :=
  .init (.start ⟨1, some 2, true⟩ (Sys.init ⟨4, 2048⟩ none (MmapArea.chunkVec 4 2048) e))

/-- A step of them. -/
abbrev twoStep (core : Bool → Nat) := Controlled.step (C := Bounded Command)
  (R := Bounded (StatsMessage (Pos → Stats)))
  (FwdOpt.program ⟨1, some 2, true⟩ .release core) [true, false]

section
variable {W : Type} [DecidableEq W] {C R : Type} [Fifo C Command]
  [Fifo R (StatsMessage (Pos → Stats))] {opt : FwdOpt} {core : W → Nat} {p : Profile}
  {order : List W} {s s' : Controlled (Forwarder W) W (Pos → Stats) C R}

/-! ## Stopping -/

/-- Take any run of the workers, the kernel and the controller, in any order. No worker leaves its
loop before CTRL-C. The `Exit` that the controller offers to a worker is refused exactly if two
`GetStats` are in the worker's queue. When the controller is done, a worker that has an `Exit` in
its queue exits with its second look for a command at the latest, whatever happens in between, and a
worker that neither exited nor has one never exits. -/
theorem multicore_shutdown {s₀ : FwdSys W} (horder : order.Nodup) (hs : s.Start (.start opt s₀))
    {as : List (CtlAct (FwdAct W) W)} {outs : List (List StatsRow)}
    (hrun : run (Controlled.step (opt.program p core) order) s as = some (s', outs)) (w : W) :
    ((s'.prog.workers w).pc = .exited → s'.exit = true) ∧
    (∀ queues, s'.pc = .sendExit (w :: queues) →
      (.exit ∈ Fifo.contents ((s'.send w .exit).commands w) ↔
        Fifo.contents (s'.commands w) ≠ [.getStats, .getStats])) ∧
    (s'.pc = .done → ∀ as' s'' outs',
      run (Controlled.step (opt.program p core) order) s' as' = some (s'', outs') →
      if (s'.prog.workers w).pc = .exited ∨ .exit ∈ Fifo.contents (s'.commands w) then
        2 ≤ as'.countP (CtlAct.isPoll w) → (s''.prog.workers w).pc = .exited
      else (s''.prog.workers w).pc ≠ .exited) := by
  have hexited : ∀ f : Forwarder W, (opt.program p core).exited f w = true ↔
      (f.workers w).pc = .exited := fun f => decide_eq_true_iff
  obtain ⟨hexit, hrefused, hdone⟩ := run_shutdown (opt.program_lawful p core) horder hs
    (fun w => decide_eq_false opt.worker_in) hrun w
  rw [hexited] at hexit
  refine ⟨hexit, hrefused, fun hpc as' s'' outs' hrun' => ?_⟩
  have hlast := hdone hpc as' s'' outs' hrun'
  simp only [← Bool.not_eq_true, hexited] at hlast
  exact hlast

theorem multicore_shutdown_exitRun :
    ∃ s s' outs outs', run (twoStep Bool.toNat) (twoWorkers 4) exitRun = some (s, outs) ∧
      run (twoStep Bool.toNat) s (.poll true :: loopCalls true ++ [.poll true]) =
        some (s', outs') ∧ s.pc = .done ∧ (s'.prog.workers true).pc = .exited := by
  have hexits : (run (twoStep Bool.toNat) (twoWorkers 4) exitRun).any (fun r =>
      (run (twoStep Bool.toNat) r.1 (.poll true :: loopCalls true ++ [.poll true])).isSome &&
        (.exit ∈ Fifo.contents (r.1.commands true)) && match r.1.pc with
          | .done => true
          | _ => false) = true := by
    decide +kernel
  obtain ⟨⟨s, outs⟩, hrun, hnext⟩ := (Option.any_eq_true _ _).1 hexits
  simp only [Bool.and_eq_true, decide_eq_true_eq] at hnext
  obtain ⟨⟨hsome, hexit⟩, hdone⟩ := hnext
  obtain ⟨⟨s', outs'⟩, hrun'⟩ := Option.isSome_iff_exists.1 hsome
  have hpc : s.pc = .done := by
    split at hdone
    · assumption
    · cases hdone
  have hlast := (multicore_shutdown (by decide) (Controlled.init_start _) hrun true).2.2 hpc _ _ _
    hrun'
  rw [if_pos (.inr hexit)] at hlast
  exact ⟨s, s', outs, outs', hrun, hrun', hpc, hlast (by decide)⟩

/-! ## Responses -/

/-- Take any run of the workers, the kernel and the controller, in any order, in either build, with
the workers on different cores, and with whatever the clock shows. In every state that it reaches
the controller gets on unless it is done, or compares a response with an entry that is less than a
second old. The latter does not happen if the clock is not set back. -/
theorem multicore_reports {s₀ : FwdSys W} (hcore : Function.Injective core)
    (horder : order.Nodup) (hs : s.Start (.start opt s₀)) {as : List (CtlAct (FwdAct W) W)}
    {outs : List (List StatsRow)}
    (hrun : run (Controlled.step (opt.program p core) order) s as = some (s', outs))
    (now now' : Nat) :
    (s'.control (opt.program p core) order now now' = none ↔ s'.pc = .done ∨
      ∃ stat stats old, s'.pc = .print (stat :: stats) ∧ s'.map stat.core = some old ∧
        now' < old.time + nanosPerSec) ∧
    (EveryStep (Controlled.step (opt.program p core) order) (fun s a _ _ => s.Ticks a) s as →
      s'.Ticks (.control now now' : CtlAct (FwdAct W) W) →
      (s'.control (opt.program p core) order now now' = none ↔ s'.pc = .done)) :=
  ⟨run_control_iff (opt.program_lawful p core) hcore horder hs hrun now now',
    fun hticks => run_gets_on (opt.program_lawful p core) hcore horder hs hrun hticks⟩

theorem multicore_reports_tableRun :
    ∃ s outs, run (twoStep Bool.toNat) (twoWorkers 4) tableRun = some (s, outs) ∧
      (s.control (FwdOpt.program ⟨1, some 2, true⟩ .release Bool.toNat) [true, false]
        (4 * nanosPerSec) (4 * nanosPerSec) = none ↔ s.pc = .done) := by
  have hbusy : (run (twoStep Bool.toNat) (twoWorkers 4) tableRun).any (fun r => decide (r.1.Ticks
      (.control (4 * nanosPerSec) (4 * nanosPerSec) : CtlAct (FwdAct Bool) Bool))) = true := by
    decide +kernel
  obtain ⟨⟨s, outs⟩, hrun, hticks⟩ := (Option.any_eq_true _ _).1 hbusy
  exact ⟨s, outs, hrun, (multicore_reports (Bool.injective_iff.2 (by decide)) (by decide)
    (Controlled.init_start _) hrun _ _).2 (Controlled.ticks_of_check (by decide +kernel))
      (of_decide_eq_true hticks)⟩

/-- If the controller comes to collect and a response of each of two workers on one core is waiting,
then as long as the clock shows `since` or less than a second more it does not get past collecting
and printing, whatever the workers do, and it has only so many steps. When it does not get on any
more, it panics where it compares a response with an entry: in `duration_since` if the clock was set
back, else on a division by zero seconds, or in a debug build on a counter of the other worker. -/
theorem multicore_duplicate_core {s₀ : FwdSys W} (horder : order.Nodup)
    (hs : s.Start (.start opt s₀)) {as : List (CtlAct (FwdAct W) W)} {outs : List (List StatsRow)}
    (hrun : run (Controlled.step (opt.program p core) order) s as = some (s', outs))
    (hpc : s'.pc = .collect order) {w v : W} (hne : w ≠ v) (hw : w ∈ order) (hv : v ∈ order)
    (hcore : core w = core v) (hresw : Fifo.contents (s'.responses w) ≠ [])
    (hresv : Fifo.contents (s'.responses v) ≠ []) {since : Nat} {as' : List (CtlAct (FwdAct W) W)}
    {outs' : List (List StatsRow)} {s'' : Controlled (Forwarder W) W (Pos → Stats) C R}
    (hrun' : run (Controlled.step (opt.program p core) order) s' as' = some (s'', outs'))
    (hwithin : ∀ a ∈ as', a.Within since) :
    s''.pc.Reporting ∧
    as'.countP CtlAct.isControl ≤ 2 * order.length + s'.pendingStats.length + 1 ∧
    ∀ now now', s''.control (opt.program p core) order now now' = none →
      ∃ stat stats old e, s''.pc = .print (stat :: stats) ∧ s''.map stat.core = some old ∧
        StatState.diff p now' ⟨now, stat⟩ old = .error e ∧
        (now' < old.time ∧ e = .unwrap ∨ old.time ≤ now' ∧ (p = .debug ∧ e = .overflow ∨
          now' < old.time + nanosPerSec ∧ e = .msg "attempt to divide by zero")) := by
  obtain ⟨hreporting, hcount, hpanic⟩ := run_duplicate_core (opt.program_lawful p core) horder hs
    hrun hpc hne hw hv hcore hresw hresv hrun' hwithin
  refine ⟨hreporting, hcount, fun now now' hnone => ?_⟩
  obtain ⟨stat, stats, old, e, hprint, hold, hdiff⟩ := hpanic now now' hnone
  exact ⟨stat, stats, old, e, hprint, hold, hdiff, StatState.diff_error_inv hdiff⟩

theorem multicore_duplicate_core_clashRun :
    ∃ s s' outs outs', run (twoStep fun _ => 1) (twoWorkers 4) clashRun = some (s, outs) ∧
      run (twoStep fun _ => 1) s (controlCalls (2 * nanosPerSec) 4) = some (s', outs') ∧
      s'.control (FwdOpt.program ⟨1, some 2, true⟩ .release fun _ => 1) [true, false]
        (2 * nanosPerSec) (2 * nanosPerSec) = none ∧
      ∃ stat stats old e, s'.pc = .print (stat :: stats) ∧ s'.map stat.core = some old ∧
        StatState.diff .release (2 * nanosPerSec) ⟨2 * nanosPerSec, stat⟩ old = .error e ∧
        (2 * nanosPerSec < old.time ∧ e = .unwrap ∨ old.time ≤ 2 * nanosPerSec ∧
          (Profile.release = .debug ∧ e = .overflow ∨
            2 * nanosPerSec < old.time + nanosPerSec ∧
              e = .msg "attempt to divide by zero")) := by
  have hclash : (run (twoStep fun _ => 1) (twoWorkers 4) clashRun).any (fun r =>
      ((run (twoStep fun _ => 1) r.1 (controlCalls (2 * nanosPerSec) 4)).any fun r' =>
        (r'.1.control (FwdOpt.program ⟨1, some 2, true⟩ .release fun _ => 1) [true, false]
          (2 * nanosPerSec) (2 * nanosPerSec)).isNone) &&
        decide (∀ w, Fifo.contents (r.1.responses w) ≠ []) && match r.1.pc with
          | .collect queues => decide (queues = [true, false])
          | _ => false) = true := by
    decide +kernel
  obtain ⟨⟨s, outs⟩, hrun, hnext⟩ := (Option.any_eq_true _ _).1 hclash
  simp only [Bool.and_eq_true, decide_eq_true_eq] at hnext
  obtain ⟨⟨hpanics, hres⟩, hpc⟩ := hnext
  obtain ⟨⟨s', outs'⟩, hrun', hnone⟩ := (Option.any_eq_true _ _).1 hpanics
  split at hpc
  · next queues hcollect =>
      rw [of_decide_eq_true hpc] at hcollect
      have hnone' := Option.isNone_iff_eq_none.1 hnone
      have hwithin : ∀ a ∈ controlCalls (2 * nanosPerSec) 4, a.Within (2 * nanosPerSec) := by
        decide
      exact ⟨s, s', outs, outs', hrun, hrun', hnone', (multicore_duplicate_core (w := true)
        (v := false) (by decide) (Controlled.init_start _) hrun hcollect (by decide) (by decide)
        (by decide) rfl (hres _) (hres _) hrun' hwithin).2.2 _ _ hnone'⟩
  · cases hpc

/-! ## The table -/

/-- Take any run of the workers, the kernel and the controller, in any order, in either build, with
the workers on different cores, and with whatever the clock shows. What is printed for a response
are the rows of one worker: its counters after `k` of the steps, and the rates at which they grew
since the last response of this worker that the controller came to. It came to that one after `i`
steps, when the clock showed a second less or more than that, and it had the worker's counters after
`j`. Never are more packets sent on a link than were received on the other one. -/
theorem multicore_table {s₀ : FwdSys W} {area : MmapArea} {v₀ : Option W} {b : Vec (BufMmap Unit)}
    (hcore : Function.Injective core) (horder : order.Nodup)
    (hlen : afXdpReserved ≤ area.bufLen) (hs₀ : s₀.Start area v₀ b)
    (hs : s.Start (.start opt s₀)) {as : List (CtlAct (FwdAct W) W)} {outs : List (List StatsRow)}
    (hrun : run (Controlled.step (opt.program p core) order) s as = some (s', outs))
    {now now' : Nat} {s'' : Controlled (Forwarder W) W (Pos → Stats) C R} {rows : List StatsRow}
    (h : s'.control (opt.program p core) order now now' = some (s'', rows)) (hrows : rows ≠ []) :
    ∃ w new old time i j k,
      rows = [Pos.first, Pos.second].map
        (exactRow (core w) ((now' - time) / nanosPerSec) new old) ∧
      time + nanosPerSec ≤ now' ∧ old ≤ new ∧
      s.HadAt (opt.program p core) order as w new k ∧
      s.HadAt (opt.program p core) order as w old j ∧ j ≤ k ∧
      s.EnteredAt (opt.program p core) order as ⟨core w, old⟩ time i ∧ j ≤ i ∧
      (∀ i' m time', i < i' → s.EnteredAt (opt.program p core) order as m time' i' →
        m.core ≠ core w) ∧
      ∀ pos, (new pos.other).txPackets ≤ (new pos).rxPackets := by
  obtain ⟨w, new, old, time, i, j, k, hdiff, hsec, hle, hk, hj, hjk, hentered, hji, hlast⟩ :=
    run_rows (opt.program_lawful p core) hcore horder hs hrun h hrows
  have hrow : StatState.diff p now' ⟨now, core w, new⟩ ⟨time, core w, old⟩ = .ok rows := hdiff
  rw [StatState.diff_ok p hle hsec] at hrow
  refine ⟨w, new, old, time, i, j, k, (Except.ok.inj hrow).symm, hsec, hle, hk, hj, hjk, hentered,
    hji, hlast, ?_⟩
  obtain ⟨t, ⟨-, outs', hrun'⟩, hstats⟩ := hk
  have hpending : t.prog.sys.area = area ∧ t.prog.Pending := by
    refine (opt.program_over p core).invariant (I := fun f => f.sys.area = area ∧ f.Pending)
      ?_ ?_ (fun _ _ => trivial) hrun'
    · rintro f a f' u - ⟨harea, hpending⟩ hstep
      have hlen' : afXdpReserved ≤ f.sys.area.bufLen := by rwa [harea]
      refine ⟨fwdStep_keeps (I := fun s => s.area = area) ?_ harea hstep,
        hpending.step hlen' hstep⟩
      intro s a s' out harea hstep
      rw [step_area (by rwa [harea]) hstep, harea]
    · rw [hs.prog]
      refine ⟨hs₀.area, fun w pos => ?_⟩
      show 0 = 0 + (s₀.deques (w, pos)).list.length
      rw [hs₀.deques, List.length_nil]
  intro pos
  rw [← hstats]
  exact (hpending.2 w pos).symm ▸ Nat.le_add_right _ _

theorem multicore_table_tableRun :
    ∃ s outs s' rows, run (twoStep Bool.toNat) (twoWorkers 4) tableRun = some (s, outs) ∧
      s.control (FwdOpt.program ⟨1, some 2, true⟩ .release Bool.toNat) [true, false]
        (4 * nanosPerSec) (4 * nanosPerSec) = some (s', rows) ∧ rows ≠ [] ∧
      ∃ w new old time i j k,
        rows = [Pos.first, Pos.second].map
          (exactRow (Bool.toNat w) ((4 * nanosPerSec - time) / nanosPerSec) new old) ∧
        time + nanosPerSec ≤ 4 * nanosPerSec ∧ old ≤ new ∧
        (twoWorkers 4).HadAt (FwdOpt.program ⟨1, some 2, true⟩ .release Bool.toNat) [true, false]
          tableRun w new k ∧
        (twoWorkers 4).HadAt (FwdOpt.program ⟨1, some 2, true⟩ .release Bool.toNat) [true, false]
          tableRun w old j ∧ j ≤ k ∧
        (twoWorkers 4).EnteredAt (FwdOpt.program ⟨1, some 2, true⟩ .release Bool.toNat)
          [true, false] tableRun ⟨Bool.toNat w, old⟩ time i ∧ j ≤ i ∧
        (∀ i' m time', i < i' → (twoWorkers 4).EnteredAt
          (FwdOpt.program ⟨1, some 2, true⟩ .release Bool.toNat) [true, false] tableRun m time'
            i' → m.core ≠ Bool.toNat w) ∧
        ∀ pos, (new pos.other).txPackets ≤ (new pos).rxPackets := by
  have hprints : (run (twoStep Bool.toNat) (twoWorkers 4) tableRun).any (fun r =>
      (r.1.control (FwdOpt.program ⟨1, some 2, true⟩ .release Bool.toNat) [true, false]
        (4 * nanosPerSec) (4 * nanosPerSec)).any fun r => !r.2.isEmpty) = true := by
    decide +kernel
  obtain ⟨⟨s, outs⟩, hrun, hnext⟩ := (Option.any_eq_true _ _).1 hprints
  obtain ⟨⟨s', rows⟩, hcontrol, hrows⟩ := (Option.any_eq_true _ _).1 hnext
  have hne : rows ≠ [] := by simpa using hrows
  exact ⟨s, outs, s', rows, hrun, hcontrol, hne,
    multicore_table (Bool.injective_iff.2 (by decide)) (by decide) (by decide)
      (Sys.init_start _ _ _ _) (Controlled.init_start _) hrun hcontrol hne⟩

end

end Afxdp
