import Afxdp.Multicore
import Afxdp.Restock

/-!
# `rxdrop`

The workers of `Receiver` as a program under the controller. As those of `Multicore` they do not
decrease their statistics and leave their loop on `Exit` only (`RxOpt.program_lawful`), so what is
known of the controller applies to them, and what is known of their buffers holds in every run here
(`RxOpt.program_over`). With both, a row of the table is of one worker, its rate is exact, and the
packets it shows came in buffers of the initial fill or refilled ones (`rxdrop_table`); and it is
known what can panic: an initial fill, a ring index of a debug build that overflows, and the
controller if the clock is set back (`rxdrop_panics_iff`).
-/

namespace Afxdp

open Run (run EveryStep)
open Queue (Fifo Bounded)

/-! ## Statistics -/

/-- `StatsRow`. -/
structure RxStatsRow where
  core : Nat
  rxPackets : Nat
  rxPacketsRate : Nat
deriving DecidableEq, Repr

/-- `StatState::diff`. -/
def StatState.rxDiff (p : Profile) (now : Nat) (self b : StatState Stats) :
    Except Panic RxStatsRow := do
  let timeDiff ← secsSince now b.time
  let new := self.stats.stats
  let rxPacketsRate ← rate p new.rxPackets b.stats.stats.rxPackets timeDiff
  return ⟨self.stats.core, new.rxPackets, rxPacketsRate⟩

/-- The row of counters that did not decrease, over `secs` seconds. -/
def exactRxRow (core secs : Nat) (new old : Stats) : RxStatsRow :=
  ⟨core, new.rxPackets, (new.rxPackets - old.rxPackets) / secs⟩

theorem StatState.rxDiff_ok (p : Profile) {now : Nat} {self b : StatState Stats}
    (h : b.stats.stats ≤ self.stats.stats) (hnow : b.time + nanosPerSec ≤ now) :
    StatState.rxDiff p now self b = .ok (exactRxRow self.stats.core
      ((now - b.time) / nanosPerSec) self.stats.stats b.stats.stats) := by
  have hpos : 0 < (now - b.time) / nanosPerSec := Nat.div_pos (by omega) (by decide)
  have hrate := rate_ok p h.2.2.1 hpos
  rw [rxDiff, secsSince_ok (by omega)]
  show rate p _ _ _ >>= _ = _
  rw [hrate]
  rfl

/-- Within a second of the entry it panics. -/
theorem StatState.rxDiff_error (p : Profile) {now : Nat} {self b : StatState Stats}
    (hnow : now < b.time + nanosPerSec) : ∃ e, StatState.rxDiff p now self b = .error e := by
  rw [rxDiff]
  by_cases hle : b.time ≤ now
  · have hsecs : (now - b.time) / nanosPerSec = 0 := Nat.div_eq_of_lt (by omega)
    obtain ⟨e, he⟩ := rate_zero p self.stats.stats.rxPackets b.stats.stats.rxPackets
    refine ⟨e, ?_⟩
    rw [secsSince_ok hle, hsecs]
    show rate p _ _ 0 >>= _ = _
    rw [he]
    rfl
  · exact ⟨.unwrap, by rw [secsSince, if_neg hle]; rfl⟩

/-! ## The program -/

section
variable {W : Type} [DecidableEq W]

/-- The workers of a build, on the given cores. -/
def RxOpt.program (opt : RxOpt) (p : Profile) (core : W → Nat) :
    WorkerProgram (Receiver W) (RxAct W) W Stats RxStatsRow where
  step f
    | .command _ _ => none
    | a => (rxStep p opt f a).map fun r => (r.1, ())
  poll f w cmd := (rxStep p opt f (.command w cmd)).map Prod.fst
  stats f w := (f.workers w).stats
  exited f w := (f.workers w).pc = .exited
  core := core
  diff now self b := (StatState.rxDiff p now self b).map fun row => [row]

variable {p : Profile} {opt : RxOpt} {core : W → Nat} {f f' : Receiver W} {u : Unit}

theorem RxOpt.program_step_inv {a : RxAct W} (h : (opt.program p core).step f a = some (f', u)) :
    (∀ w cmd, a ≠ .command w cmd) ∧ ∃ out, rxStep p opt f a = some (f', out) := by
  cases a with
  | command w cmd => cases h
  | _ =>
    obtain ⟨⟨f'', out⟩, hstep, h⟩ := Option.map_eq_some_iff.1 h
    cases h
    exact ⟨by simp, out, hstep⟩

theorem RxOpt.program_step_none {a : RxAct W} (ha : ∀ w cmd, a ≠ .command w cmd) :
    (opt.program p core).step f a = none ↔ rxStep p opt f a = none := by
  cases a with
  | command w cmd => exact absurd rfl (ha w cmd)
  | _ => exact Option.map_eq_none_iff

theorem RxOpt.program_poll_inv {w : W} {cmd : Option Command}
    (h : (opt.program p core).poll f w cmd = some f') :
    ∃ out, rxStep p opt f (.command w cmd) = some (f', out) := by
  obtain ⟨⟨f'', out⟩, hstep, rfl⟩ := Option.map_eq_some_iff.1 h
  exact ⟨out, hstep⟩

/-- Each worker is left as it is, or makes a call in its loop or before it. That does not decrease
its counters, and it leaves the loop on `Exit` only. -/
theorem rxStep_worker {a : RxAct W} {out : List Line} (h : rxStep p opt f a = some (f', out))
    (v : W) : f'.workers v = f.workers v ∨
      (f.workers v).pc ≠ .exited ∧ (f.workers v).stats ≤ (f'.workers v).stats ∧
        ((f'.workers v).pc = .exited → a = .command v (some .exit)) := by
  have hset : ∀ {w : W} {s : RxSys W} {wk : RxWorker}, (f.workers w).pc ≠ .exited →
      (f.workers w).stats ≤ wk.stats → (wk.pc = .exited → a = .command w (some .exit)) →
      (f.set w s wk).workers v = f.workers v ∨
        (f.workers v).pc ≠ .exited ∧ (f.workers v).stats ≤ ((f.set w s wk).workers v).stats ∧
          (((f.set w s wk).workers v).pc = .exited → a = .command v (some .exit)) := by
    intro w s wk hin hle hexited
    rcases eq_or_ne v w with rfl | hv
    · rw [Receiver.set_self]
      exact .inr ⟨hin, hle, hexited⟩
    · exact .inl (Receiver.set_of_ne f hv s wk)
  have hloop : opt.loopHead ≠ .exited := opt.loopHead_ne .exited (by simp) (by simp)
  cases a with
  | getBufs w =>
    obtain ⟨hpc, -, num, n, -, -, rfl⟩ := rxStep_getBufs_inv h
    exact hset (by simp [hpc]) (le_refl _) (by simp)
  | initialFill w granted =>
    obtain ⟨hpc, -, s, o, -, -, rfl⟩ := rxStep_initialFill_inv h
    exact hset (by simp [hpc]) (le_refl _) fun hexited => absurd hexited hloop
  | command w cmd =>
    obtain ⟨hpc, -, rfl⟩ := rxStep_command_inv h
    refine hset (by simp [hpc]) (le_refl _) fun hexited => ?_
    by_cases hcmd : cmd = some .exit
    · rw [hcmd]
    · simp [hcmd] at hexited
  | tryRecv w grant =>
    obtain ⟨hpc, -, s, o, -, rfl⟩ := rxStep_tryRecv_inv h
    refine hset (by simp [hpc]) ?_ (by simp)
    exact ⟨Nat.le_refl _, Nat.le_refl _, Nat.le_add_right _ _, Nat.le_refl _⟩
  | drain w =>
    obtain ⟨hpc, -, rfl⟩ := rxStep_drain_inv h
    exact hset (by simp [hpc]) (le_refl _) (by simp)
  | fill w granted =>
    obtain ⟨hpc, ⟨-, -, rfl⟩ | ⟨-, s, o, -, -, -, rfl⟩⟩ := rxStep_fill_inv h
    · exact hset (by simp [hpc]) (le_refl _) fun hexited => absurd hexited hloop
    · refine hset (by simp [hpc]) ?_ fun hexited => absurd hexited hloop
      exact ⟨Nat.le_refl _, Nat.le_add_right _ _, Nat.le_refl _, Nat.le_refl _⟩
  | kernel w k =>
    obtain ⟨-, s, o, -, rfl⟩ := rxStep_kernel_inv h
    exact .inl rfl

/-- The controller can rely on the workers. -/
theorem RxOpt.program_lawful (opt : RxOpt) (p : Profile) (core : W → Nat) :
    (opt.program p core).Lawful where
  stats_step := by
    intro f a f' u h v
    obtain ⟨-, out, h⟩ := program_step_inv h
    show (f.workers v).stats ≤ (f'.workers v).stats
    obtain heq | ⟨-, hle, -⟩ := rxStep_worker h v
    · rw [heq]
    · exact hle
  stats_poll := by
    intro f w cmd f' h
    obtain ⟨out, h⟩ := program_poll_inv h
    obtain ⟨-, -, rfl⟩ := rxStep_command_inv h
    funext v
    show ((f.set w f.sys _).workers v).stats = (f.workers v).stats
    rcases eq_or_ne v w with rfl | hv
    · rw [Receiver.set_self]
    · rw [Receiver.set_of_ne f hv]
  exited_step := by
    intro f a f' u h
    obtain ⟨ha, out, h⟩ := program_step_inv h
    funext v
    show decide ((f'.workers v).pc = .exited) = decide ((f.workers v).pc = .exited)
    obtain heq | ⟨hin, -, hexited⟩ := rxStep_worker h v
    · rw [heq]
    · have hin' : (f'.workers v).pc ≠ .exited := fun h => ha v _ (hexited h)
      rw [decide_eq_false hin, decide_eq_false hin']
  exited_poll := by
    intro f w cmd f' h
    obtain ⟨out, h⟩ := program_poll_inv h
    obtain ⟨hpc, -, rfl⟩ := rxStep_command_inv h
    refine ⟨by simp [program, hpc], fun v => ?_⟩
    rcases eq_or_ne v w with rfl | hv
    · simp [program, Receiver.set_self, hpc]
    · simp [program, Receiver.set_of_ne f hv, hv]
  diff_ok {_ _ _} h hnow :=
    ⟨_, congrArg (Except.map fun row => [row]) (StatState.rxDiff_ok p h hnow)⟩
  diff_error {_ _ _} hnow := by
    obtain ⟨e, he⟩ := StatState.rxDiff_error p hnow
    exact ⟨e, congrArg (Except.map fun row => [row]) he⟩

section
variable {C R : Type} [Fifo C Command] [Fifo R (StatsMessage Stats)]
  {order : List W} {s s' : Controlled (Receiver W) W Stats C R}

/-- The workers and the controller are a program over the workers. -/
theorem RxOpt.program_over (opt : RxOpt) (p : Profile) (core : W → Nat) {Q : RxAct W → Prop}
    (hQ : ∀ w cmd, Q (.command w cmd)) :
    Program.Over (rxStep p opt) (Controlled.step (C := C) (R := R) (opt.program p core) order)
      Controlled.prog Q (fun a => ∀ b, a = .work b → Q b) := by
  refine Controlled.over (fun ha h => ?_) fun h => ?_
  · obtain ⟨-, out, h⟩ := program_step_inv h
    exact ⟨_, out, ha _ rfl, h⟩
  · obtain ⟨out, h⟩ := program_poll_inv h
    exact ⟨_, out, hQ _ _, h⟩

end

end

/-! ## One worker -/

/-- `n` steps of the controller, while the clock shows `now`. -/
def ctlCalls (now n : Nat) : List (CtlAct (RxAct Unit) Unit) :=
  .replicate n (.control now now)

/-- A worker responds, receives a packet, and responds again. -/
def dropRun : List (CtlAct (RxAct Unit) Unit) :=
  [.work (.getBufs ()), .work (.initialFill () true)] ++ ctlCalls nanosPerSec 7 ++
    [.poll (), .work (.kernel () .takeFill), .work (.kernel () (.publish 0 256 1 0)),
      .work (.tryRecv () 1), .work (.drain ()), .work (.fill () true)] ++
    ctlCalls (2 * nanosPerSec) 8 ++ .poll () :: ctlCalls (4 * nanosPerSec) 3

/-- A worker of two buffers with rings of `2 ^ e` slots, and the controller. -/
def oneWorker (e : Fin 32) : Controlled (Receiver Unit) Unit Stats (Bounded Command)
    (Bounded (StatsMessage Stats)) :=
  .init (.start ⟨1, some 2, true, 64, false⟩
    (Sys.init ⟨2, 2048⟩ none (MmapArea.chunkVec 2 2048) e))

/-- A step of them. -/
abbrev oneStep := Controlled.step (C := Bounded Command) (R := Bounded (StatsMessage Stats))
  (RxOpt.program ⟨1, some 2, true, 64, false⟩ .release fun _ : Unit => 0) [()]

section
variable {W : Type} [DecidableEq W] {C R : Type} [Fifo C Command] [Fifo R (StatsMessage Stats)]
  {opt : RxOpt} {core : W → Nat} {p : Profile} {order : List W}
  {s s' : Controlled (Receiver W) W Stats C R}

/-! ## The table -/

/-- Take any run of the workers, the kernel and the controller, in any order, in either build, with
the workers on different cores, with fill rings that have room for the initial fill, and with
whatever the clock shows. What is printed for a response is the row of one worker: its counters
after `k` of the steps, and the rate at which they grew since the last response of this worker that
the controller came to. It came to that one after `i` steps, when the clock showed a second less or
more than that, and it had the worker's counters after `j`. The worker never refilled more buffers
than it received packets, nor received more packets than there are buffers in the initial fill and
in its refills. -/
theorem rxdrop_table {s₀ : RxSys W} {area : MmapArea} {v₀ : Option W} {b : Vec (BufMmap Unit)}
    (hcore : Function.Injective core) (horder : order.Nodup)
    (hlen : afXdpReserved ≤ area.bufLen) (hs₀ : s₀.Start area v₀ b)
    (hsize : ∀ w, opt.initialFillNum ≤ (s₀.link w).fq.size)
    (hs : s.Start (.start opt s₀)) {as : List (CtlAct (RxAct W) W)}
    {outs : List (List RxStatsRow)}
    (hrun : run (Controlled.step (opt.program p core) order) s as = some (s', outs))
    {now now' : Nat} {s'' : Controlled (Receiver W) W Stats C R} {rows : List RxStatsRow}
    (h : s'.control (opt.program p core) order now now' = some (s'', rows)) (hrows : rows ≠ []) :
    ∃ w new old time i j k,
      rows = [exactRxRow (core w) ((now' - time) / nanosPerSec) new old] ∧
      time + nanosPerSec ≤ now' ∧ old ≤ new ∧
      s.HadAt (opt.program p core) order as w new k ∧
      s.HadAt (opt.program p core) order as w old j ∧ j ≤ k ∧
      s.EnteredAt (opt.program p core) order as ⟨core w, old⟩ time i ∧ j ≤ i ∧
      (∀ i' m time', i < i' → s.EnteredAt (opt.program p core) order as m time' i' →
        m.core ≠ core w) ∧
      new.fqBufsFilled ≤ new.rxPackets ∧
      new.rxPackets ≤ opt.initialFillNum + new.fqBufsFilled := by
  obtain ⟨w, new, old, time, i, j, k, hdiff, hsec, hle, hk, hj, hjk, hentered, hji, hlast⟩ :=
    run_rows (opt.program_lawful p core) hcore horder hs hrun h hrows
  have hrow : (StatState.rxDiff p now' ⟨now, core w, new⟩ ⟨time, core w, old⟩).map
      (fun row => [row]) = .ok rows := hdiff
  rw [StatState.rxDiff_ok p hle hsec] at hrow
  refine ⟨w, new, old, time, i, j, k, (Except.ok.inj hrow).symm, hsec, hle, hk, hj, hjk, hentered,
    hji, hlast, ?_⟩
  obtain ⟨t, ⟨-, outs', hrun'⟩, hstats⟩ := hk
  rw [← hstats]
  have hstocked : t.prog.Stocked opt area fun w => (s₀.vecs (some w)).len := by
    refine (opt.program_over (Q := fun _ => True) p core fun _ _ => trivial).invariant
      (fun _ _ _ _ _ hi h => hi.step hlen h) ?_ (fun _ _ _ _ => trivial) hrun'
    rw [hs.prog]
    exact .start hs₀ hsize
  obtain ⟨hbooks, -⟩ := hstocked.accounts w
  have hsupply := hbooks.supply
  have hdeficit := hbooks.deficit
  have hinitial : (t.prog.workers w).initial opt .fill ≤ opt.initialFillNum := by
    rw [RxWorker.initial]
    split
    · exact Nat.le_refl _
    · exact Nat.zero_le _
  show (t.prog.workers w).stats.fqBufsFilled ≤ (t.prog.workers w).stats.rxPackets ∧
    (t.prog.workers w).stats.rxPackets ≤
      opt.initialFillNum + (t.prog.workers w).stats.fqBufsFilled
  omega

theorem rxdrop_table_dropRun :
    ∃ s outs s' rows, run oneStep (oneWorker 4) dropRun = some (s, outs) ∧
      s.control (RxOpt.program ⟨1, some 2, true, 64, false⟩ .release fun _ : Unit => 0) [()]
        (4 * nanosPerSec) (4 * nanosPerSec) = some (s', rows) ∧ rows ≠ [] ∧
      ∃ w new old time i j k,
        rows = [exactRxRow 0 ((4 * nanosPerSec - time) / nanosPerSec) new old] ∧
        time + nanosPerSec ≤ 4 * nanosPerSec ∧ old ≤ new ∧
        (oneWorker 4).HadAt (RxOpt.program ⟨1, some 2, true, 64, false⟩ .release fun _ => 0) [()]
          dropRun w new k ∧
        (oneWorker 4).HadAt (RxOpt.program ⟨1, some 2, true, 64, false⟩ .release fun _ => 0) [()]
          dropRun w old j ∧ j ≤ k ∧
        (oneWorker 4).EnteredAt (RxOpt.program ⟨1, some 2, true, 64, false⟩ .release fun _ => 0)
          [()] dropRun ⟨0, old⟩ time i ∧ j ≤ i ∧
        (∀ i' m time', i < i' → (oneWorker 4).EnteredAt
          (RxOpt.program ⟨1, some 2, true, 64, false⟩ .release fun _ => 0) [()] dropRun m time'
            i' → m.core ≠ 0) ∧
        new.fqBufsFilled ≤ new.rxPackets ∧ new.rxPackets ≤ 1 + new.fqBufsFilled := by
  have hprints : (run oneStep (oneWorker 4) dropRun).any (fun r =>
      (r.1.control (RxOpt.program ⟨1, some 2, true, 64, false⟩ .release fun _ : Unit => 0) [()]
        (4 * nanosPerSec) (4 * nanosPerSec)).any fun r => !r.2.isEmpty) = true := by
    decide +kernel
  obtain ⟨⟨s, outs⟩, hrun, hnext⟩ := (Option.any_eq_true _ _).1 hprints
  obtain ⟨⟨s', rows⟩, hcontrol, hrows⟩ := (Option.any_eq_true _ _).1 hnext
  have hne : rows ≠ [] := by simpa using hrows
  exact ⟨s, outs, s', rows, hrun, hcontrol, hne,
    rxdrop_table (fun _ _ _ => rfl) (by decide) (by decide) (Sys.init_start _ _ _ _)
      (fun _ => show 1 ≤ 2 ^ 4 by decide) (Controlled.init_start _) hrun hcontrol hne⟩

/-! ## Panics -/

/-- Take any run of the workers, the kernel and the controller, in any order, in either build, over
an area that `new` made, with the workers on different cores, with chunks whose packets have lengths
that fit a `u16`, with fill rings that have room for the initial fill, with a kernel that publishes
packets at offsets up to `AF_XDP_RESERVED`, with lengths that are `AF_XDP_RESERVED` less than those
of the chunks at most, and with whatever the clock shows. In every state that it reaches the
controller gets on unless it is done, or compares a response with an entry that is less than a
second old; the latter does not happen if the clock is not set back. A worker that looks for a
command gets on. And every other call that is due panics if and only if it is an initial fill that
is refused or finds too few buffers, or a call of a debug build whose ring index overflows. -/
theorem rxdrop_panics_iff {q : Profile} {mmap : Nat → Nat → Bool} {bufNum bufLen : Nat}
    {options : MmapAreaOptions} {area : MmapArea} {b : Vec (BufMmap Unit)} {s₀ : RxSys W}
    {v₀ : Option W} (hlen : afXdpReserved < bufLen) (hfit : bufLen < 2 ^ 16 + afXdpReserved)
    (hnum : bufNum * bufLen < 2 ^ 64)
    (hnew : MmapArea.new q mmap bufNum bufLen options = .ok (.ok (area, b)))
    (hs₀ : s₀.Start area v₀ b) (hsize : ∀ w, opt.initialFillNum ≤ (s₀.link w).fq.size)
    (hcore : Function.Injective core) (horder : order.Nodup) (hs : s.Start (.start opt s₀))
    {as : List (CtlAct (RxAct W) W)} {outs : List (List RxStatsRow)}
    (hlaw : ∀ w j o len opts, .work (.kernel w (.publish j o len opts)) ∈ as →
      o ≤ afXdpReserved ∧ len + afXdpReserved ≤ bufLen)
    (hrun : run (Controlled.step (opt.program p core) order) s as = some (s', outs)) :
    (∀ now now', s'.control (opt.program p core) order now now' = none ↔ s'.pc = .done ∨
      ∃ stat stats old, s'.pc = .print (stat :: stats) ∧ s'.map stat.core = some old ∧
        now' < old.time + nanosPerSec) ∧
    (EveryStep (Controlled.step (opt.program p core) order) (fun s a _ _ => s.Ticks a) s as →
      ∀ now now', s'.Ticks (.control now now' : CtlAct (RxAct W) W) →
        (s'.control (opt.program p core) order now now' = none ↔ s'.pc = .done)) ∧
    (∀ w, (s'.prog.workers w).pc = .command →
      ∃ r, Controlled.step (opt.program p core) order s' (.poll w) = some r) ∧
    ∀ a, s'.prog.Due a → (∀ w cmd, a ≠ .command w cmd) →
      (Controlled.step (opt.program p core) order s' (.work a) = none ↔
        s'.prog.PanicsOn opt a ∨ s'.prog.Overflows p opt a) := by
  have hlen' := Nat.le_of_lt hlen
  obtain ⟨rfl, rfl⟩ := MmapArea.new_inv hnum hlen' hnew
  have hallowed : ∀ a ∈ as, ∀ b, a = .work b → b.Allowed (Act.Lawful ⟨bufNum, bufLen⟩ 0) := by
    rintro _ ha b rfl
    refine RxAct.lawful_of_publish (fun w j o len opts hmem => ?_) b (List.mem_singleton.2 rfl)
    rw [← List.mem_singleton.1 hmem] at ha
    exact hlaw w j o len opts ha
  have hstart : s.prog.Sane opt ⟨bufNum, bufLen⟩ fun w => (s₀.vecs (some w)).len := by
    rw [hs.prog]
    exact .start hlen hs₀ hsize
  have hsane : s'.prog.Sane opt ⟨bufNum, bufLen⟩ fun w => (s₀.vecs (some w)).len :=
    (opt.program_over p core fun _ _ => trivial).invariant
      (fun _ _ _ _ ha hi hstep => hi.step hlen' ha hstep) hstart hallowed hrun
  refine ⟨fun now now' => ?_, fun hticks now now' hnext => ?_, fun w hpc => ?_, fun a hdue ha => ?_⟩
  · exact run_control_iff (opt.program_lawful p core) hcore horder hs hrun now now'
  · exact run_gets_on (opt.program_lawful p core) hcore horder hs hrun hticks hnext
  · -- whatever it pops
    have hpoll : ∀ cmd, ∃ f, (opt.program p core).poll s'.prog w cmd = some f := by
      intro cmd
      have hnone : rxStep p opt s'.prog (.command w cmd) ≠ none := by
        intro h
        rcases (hsane.panics_iff hlen' hfit (a := .command w cmd) hpc).1 h with hpanic | hover
        · exact hpanic
        · obtain ⟨c, hc, -⟩ := hover
          cases hc
      obtain ⟨r, hr⟩ := Option.ne_none_iff_exists'.1 hnone
      exact ⟨r.1, congrArg (Option.map Prod.fst) hr⟩
    simp only [Controlled.step]
    split
    · obtain ⟨f, hf⟩ := hpoll none
      exact ⟨_, by rw [hf]; rfl⟩
    · next cmd q _ =>
        obtain ⟨f, hf⟩ := hpoll (some cmd)
        exact ⟨_, by rw [hf]; rfl⟩
  · have hnone : (opt.program p core).step s'.prog a = none ↔ rxStep p opt s'.prog a = none :=
      RxOpt.program_step_none ha
    rw [← hsane.panics_iff hlen' hfit hdue, ← hnone]
    exact Option.map_eq_none_iff

theorem rxdrop_panics_iff_dropRun :
    ∃ s outs, run oneStep (oneWorker 4) dropRun = some (s, outs) ∧
      (s.control (RxOpt.program ⟨1, some 2, true, 64, false⟩ .release fun _ : Unit => 0) [()]
        (4 * nanosPerSec) (4 * nanosPerSec) = none ↔ s.pc = .done) ∧
      (oneStep s (.work (.tryRecv () 1)) = none ↔
        s.prog.PanicsOn ⟨1, some 2, true, 64, false⟩ (.tryRecv () 1) ∨
          s.prog.Overflows .release ⟨1, some 2, true, 64, false⟩ (.tryRecv () 1)) := by
  have hready : (run oneStep (oneWorker 4) dropRun).any (fun r => decide (r.1.Ticks
      (.control (4 * nanosPerSec) (4 * nanosPerSec) : CtlAct (RxAct Unit) Unit)) &&
      decide ((r.1.prog.workers ()).pc = .tryRecv)) = true := by
    decide +kernel
  obtain ⟨⟨s, outs⟩, hrun, hnext⟩ := (Option.any_eq_true _ _).1 hready
  obtain ⟨hticks, hrecv⟩ := (Bool.and_eq_true _ _).mp hnext
  have hpc : (s.prog.workers ()).pc = .tryRecv := of_decide_eq_true hrecv
  have hnew : MmapArea.new (T := Unit) .release (fun _ _ => true) 2 2048 {} =
      .ok (.ok (⟨2, 2048⟩, MmapArea.chunkVec 2 2048)) :=
    MmapArea.new_ok (by decide) (by decide) rfl
  have hgets := rxdrop_panics_iff (by decide) (by decide) (by decide) hnew
    (Sys.init_start _ _ _ _) (fun _ => show 1 ≤ 2 ^ 4 by decide) (fun _ _ _ => rfl) (by decide)
    (Controlled.init_start _) ?_ hrun
  · exact ⟨s, outs, hrun, hgets.2.1 (Controlled.ticks_of_check (by decide +kernel)) _ _
      (of_decide_eq_true hticks), hgets.2.2.2 _ hpc (by simp)⟩
  · intro w j o len opts hmem
    simp [dropRun, ctlCalls] at hmem
    obtain ⟨-, rfl, rfl, -⟩ := hmem
    decide

end

end Afxdp
