import Afxdp.BufPool
import Afxdp.Counts
import Afxdp.TwoLink

/-!
# The traffic tests

The tests run two workers, each on one end of a veth, and ask an instance of `TrafficTest` for the
packets to send and hand it those they receive. The state of such a test is the instance, which both
workers share behind a mutex, and for each worker its data path, where it is in its loop and its
statistics. A step is one call of a worker, one step of the kernel, or one packet that arrives.

The veth delivers on one end what the kernel read for the Tx descriptors of the other one. It may
lose packets, but it neither repeats nor reorders them. What is published on an end is what was read
for a descriptor with a greater number than the last.

A call of the instance is taken to do to the data path what an application can do to its buffers
(`TrafficTest.Lawful`). Then the worker's deficits are what is under way: `cq_deficit` is what was
sent and not collected, so no subtraction underflows, and with `fq_deficit` all buffers of the
initial fill are accounted for (`run_traffic`).

The `poll` of an idle receive socket, the spinning of an idle worker and the printing are left out.
-/

namespace Afxdp.Traffic

open Run (run Leads)

/-! ## Tests -/

/-- `RING_SIZE`. -/
def ringSize : Nat := 512

/-- `SOCKET_BATCH_SIZE`. -/
def socketBatchSize : Nat := 64

/-- `FILL_THRESHOLD`. -/
def fillThreshold : Nat := 64

/-- `FILL_BATCH_SIZE`. -/
def fillBatchSize : Nat := 128

/-- `SERVICE_THRESHOLD`. -/
def serviceThreshold : Nat := 64

/-- `SERVICE_BATCH_SIZE`. -/
def serviceBatchSize : Nat := 128

/-- The deques of a worker, `pending_receive` and `pending_send`. -/
inductive Dir
  | receive
  | send
deriving DecidableEq, Repr

/-- The data path of a worker. -/
abbrev PortSys := Sys Unit Unit Dir Unit

/-- `TrafficTest`, with the states `τ`. What is random in a call is a `ρ`, and a call that panics
has no value. -/
structure TrafficTest (τ ρ : Type) where
  done : τ → Nat → Bool × τ
  /-- `transmit`, with `bufs` and the deque `pending_send` of the data path. -/
  transmit : τ → Nat → Pos → ρ → PortSys → Option (Nat × τ × PortSys)
  /-- `receive`, with `bufs` and the deque `pending_receive` of the data path. -/
  receive : τ → Nat → Pos → PortSys → Option (Nat × τ × PortSys)

/-! ## States -/

/-- `Stats`. The counters of the source are `usize`s, which these do not exceed in fewer than
`2 ^ 63` steps (`run_stats_le`). -/
structure Stats where
  cqBufsReceived : Nat := 0
  fqBufsFilled : Nat := 0
  rxPackets : Nat := 0
  txPackets : Nat := 0
  cqDeficit : Nat := 0
  fqDeficit : Nat := 0
deriving DecidableEq, Repr

/-- Where a worker is: before the initial fill, before one of the calls of its loop, or out of
it. -/
inductive Pc
  | initialFill
  | done
  | service
  | tryRecv
  | receive
  | transmit
  | trySend
  | fill
  | exited
deriving DecidableEq, Repr

/-- A worker, with the `now` of its last look at the clock. -/
structure Worker where
  sys : PortSys
  pc : Pc
  now : Nat
  stats : Stats

/-- The instance and the two workers. What arrives on an end is of one of the other end's
descriptors from `next` on. -/
structure State (τ : Type) where
  test : τ
  worker : Pos → Worker
  next : Pos → Nat

/-- The state with another state of a worker. -/
def State.set {τ : Type} (t : State τ) (p : Pos) (w : Worker) : State τ :=
  { t with worker := Function.update t.worker p w }

@[simp] theorem State.set_self {τ : Type} (t : State τ) (p : Pos) (w : Worker) :
    (t.set p w).worker p = w := Function.update_self _ _ _

theorem State.set_of_ne {τ : Type} (t : State τ) {p q : Pos} (h : q ≠ p) (w : Worker) :
    (t.set p w).worker q = t.worker q := Function.update_of_ne h _ _

@[simp] theorem State.set_test {τ : Type} (t : State τ) (p : Pos) (w : Worker) :
    (t.set p w).test = t.test := rfl

@[simp] theorem State.set_next {τ : Type} (t : State τ) (p : Pos) (w : Worker) :
    (t.set p w).next = t.next := rfl

/-- The workers before the initial fill, over areas of their own. The buffers went through a pool,
which leaves them as they are (`startBufs_eq`). -/
def State.start {τ : Type} (test : τ) (sys : Pos → PortSys) : State τ where
  test := test
  worker p := ⟨sys p, .initialFill, 0, {}⟩
  next _ := 0

/-! ## Steps -/

/-- Something that happens on an end, with what libbpf, the kernel, the clock and the random number
generator decide in it. -/
inductive Act (ρ : Type)
  | initialFill (p : Pos) (granted : Bool)
  | done (p : Pos) (now : Nat)
  | service (p : Pos) (grant : Nat)
  | tryRecv (p : Pos) (grant : Nat)
  | receive (p : Pos)
  | transmit (p : Pos) (r : ρ)
  | trySend (p : Pos) (granted : Bool) (send : Sendto)
  | fill (p : Pos) (granted : Bool)
  | kernel (p : Pos) (k : KAct)
  /-- What the kernel read for the `c`-th descriptor of the other end arrives: it is published as
  in `KAct.publish`. -/
  | deliver (p : Pos) (c j o len options : Nat)

section
variable {τ ρ : Type}

/-- One step, in a build. -/
def step (pr : Profile) (T : TrafficTest τ ρ) (t : State τ) : Act ρ → Option (State τ × Unit)
  | .initialFill p granted =>
    let w := t.worker p
    if w.pc = .initialFill then
      (stepIn pr w.sys (.fill () () ringSize granted)).bind fun r =>
        -- the worker panics if the fill is incomplete
        if r.2.ret = ringSize then some (t.set p { w with sys := r.1, pc := .done }, ()) else none
    else none
  | .done p now =>
    let w := t.worker p
    if w.pc = .done then
      let r := T.done t.test now
      let pc := if r.1 then .exited else .service
      some ({ t with test := r.2 }.set p { w with pc, now }, ())
    else none
  | .service p grant =>
    let w := t.worker p
    if w.pc = .service then
      if w.stats.cqDeficit ≥ serviceThreshold then
        (stepIn pr w.sys (.service () () serviceBatchSize grant)).bind fun r =>
          match pr.sub64 w.stats.cqDeficit r.2.ret with
          | .ok cqDeficit =>
            let cqBufsReceived := w.stats.cqBufsReceived + r.2.ret
            some (t.set p { w with
              sys := r.1
              pc := .tryRecv
              stats := { w.stats with cqBufsReceived, cqDeficit } }, ())
          | .error _ => none
      else some (t.set p { w with pc := .tryRecv }, ())
    else none
  | .tryRecv p grant =>
    let w := t.worker p
    if w.pc = .tryRecv then
      (stepIn pr w.sys (.tryRecv () .receive socketBatchSize () grant)).map fun r =>
        let rxPackets := w.stats.rxPackets + r.2.ret
        let fqDeficit := w.stats.fqDeficit + r.2.ret
        (t.set p { w with
          sys := r.1
          pc := .receive
          stats := { w.stats with rxPackets, fqDeficit } }, ())
    else none
  | .receive p =>
    let w := t.worker p
    if w.pc = .receive then
      (T.receive t.test w.now p w.sys).map fun r =>
        ({ t with test := r.2.1 }.set p { w with sys := r.2.2, pc := .transmit }, ())
    else none
  | .transmit p random =>
    let w := t.worker p
    if w.pc = .transmit then
      (T.transmit t.test w.now p random w.sys).map fun r =>
        ({ t with test := r.2.1 }.set p { w with sys := r.2.2, pc := .trySend }, ())
    else none
  | .trySend p granted send =>
    let w := t.worker p
    if w.pc = .trySend then
      (stepIn pr w.sys (.trySend () .send socketBatchSize granted send)).map fun r =>
        let txPackets := w.stats.txPackets + r.2.ret
        let cqDeficit := w.stats.cqDeficit + r.2.ret
        (t.set p { w with
          sys := r.1
          pc := .fill
          stats := { w.stats with txPackets, cqDeficit } }, ())
    else none
  | .fill p granted =>
    let w := t.worker p
    if w.pc = .fill then
      if w.stats.fqDeficit ≥ fillThreshold then
        let fillNum := min fillBatchSize w.stats.fqDeficit
        (stepIn pr w.sys (.fill () () fillNum granted)).bind fun r =>
          match pr.sub64 w.stats.fqDeficit r.2.ret with
          | .ok fqDeficit =>
            let fqBufsFilled := w.stats.fqBufsFilled + r.2.ret
            some (t.set p { w with
              sys := r.1
              pc := .done
              stats := { w.stats with fqBufsFilled, fqDeficit } }, ())
          | .error _ => none
      else some (t.set p { w with pc := .done }, ())
    else none
  | .kernel p k =>
    let w := t.worker p
    match k with
    | .publish .. => none
    | _ => (stepIn pr w.sys (.kernel () k)).map fun r => (t.set p { w with sys := r.1 }, ())
  | .deliver p c j o len options =>
    let w := t.worker p
    (stepIn pr w.sys (.kernel () (.publish j o len options))).bind fun r =>
      let read := ((t.worker p.other).sys.hist ()).read
      if t.next p ≤ c ∧ ((r.1.hist ()).published.getLast?.any fun bytes => (c, bytes) ∈ read) then
        some ({ t with next := Function.update t.next p (c + 1) }.set p { w with sys := r.1 }, ())
      else none

/-! ## What a step did -/

variable {pr : Profile} {T : TrafficTest τ ρ} {t t' : State τ} {p : Pos} {u : Unit}

theorem step_initialFill_inv {granted : Bool}
    (h : step pr T t (.initialFill p granted) = some (t', u)) :
    (t.worker p).pc = .initialFill ∧ ∃ s out,
      Afxdp.step (t.worker p).sys (.fill () () ringSize granted) = some (s, out) ∧
      out.ret = ringSize ∧ t' = t.set p { t.worker p with sys := s, pc := .done } := by
  simp only [step] at h
  split at h
  · next hpc =>
      obtain ⟨⟨s, out⟩, hs, h⟩ := Option.bind_eq_some_iff.1 h
      split at h
      · next hret =>
          cases h
          exact ⟨hpc, s, out, stepIn_some hs, hret, rfl⟩
      · cases h
  · cases h

theorem step_done_inv {now : Nat} (h : step pr T t (.done p now) = some (t', u)) :
    (t.worker p).pc = .done ∧ t' = { t with test := (T.done t.test now).2 }.set p { t.worker p with
      pc := if (T.done t.test now).1 then .exited else .service
      now } := by
  simp only [step] at h
  split at h
  · next hpc =>
      cases h
      exact ⟨hpc, rfl⟩
  · cases h

theorem step_service_inv {grant : Nat} (h : step pr T t (.service p grant) = some (t', u)) :
    (t.worker p).pc = .service ∧
      (t' = t.set p { t.worker p with pc := .tryRecv } ∨
        serviceThreshold ≤ (t.worker p).stats.cqDeficit ∧ ∃ s out cqDeficit,
          Afxdp.step (t.worker p).sys (.service () () serviceBatchSize grant) = some (s, out) ∧
          pr.sub64 (t.worker p).stats.cqDeficit out.ret = .ok cqDeficit ∧
          t' = t.set p { t.worker p with
            sys := s
            pc := .tryRecv
            stats := { (t.worker p).stats with
              cqBufsReceived := (t.worker p).stats.cqBufsReceived + out.ret
              cqDeficit } }) := by
  simp only [step] at h
  split at h
  · next hpc =>
      refine ⟨hpc, ?_⟩
      split at h
      · next hdeficit =>
          obtain ⟨⟨s, out⟩, hs, h⟩ := Option.bind_eq_some_iff.1 h
          split at h
          · next cqDeficit hsub =>
              cases h
              exact .inr ⟨hdeficit, s, out, cqDeficit, stepIn_some hs, hsub, rfl⟩
          · cases h
      · cases h
        exact .inl rfl
  · cases h

theorem step_tryRecv_inv {grant : Nat} (h : step pr T t (.tryRecv p grant) = some (t', u)) :
    (t.worker p).pc = .tryRecv ∧ ∃ s out,
      Afxdp.step (t.worker p).sys (.tryRecv () .receive socketBatchSize () grant) = some (s, out) ∧
      t' = t.set p { t.worker p with
        sys := s
        pc := .receive
        stats := { (t.worker p).stats with
          rxPackets := (t.worker p).stats.rxPackets + out.ret
          fqDeficit := (t.worker p).stats.fqDeficit + out.ret } } := by
  simp only [step] at h
  split at h
  · next hpc =>
      obtain ⟨⟨s, out⟩, hs, h⟩ := Option.map_eq_some_iff.1 h
      cases h
      exact ⟨hpc, s, out, stepIn_some hs, rfl⟩
  · cases h

theorem step_receive_inv (h : step pr T t (.receive p) = some (t', u)) :
    (t.worker p).pc = .receive ∧ ∃ n test s,
      T.receive t.test (t.worker p).now p (t.worker p).sys = some (n, test, s) ∧
      t' = { t with test }.set p { t.worker p with sys := s, pc := .transmit } := by
  simp only [step] at h
  split at h
  · next hpc =>
      obtain ⟨⟨n, test, s⟩, hs, h⟩ := Option.map_eq_some_iff.1 h
      cases h
      exact ⟨hpc, n, test, s, hs, rfl⟩
  · cases h

theorem step_transmit_inv {r : ρ} (h : step pr T t (.transmit p r) = some (t', u)) :
    (t.worker p).pc = .transmit ∧ ∃ n test s,
      T.transmit t.test (t.worker p).now p r (t.worker p).sys = some (n, test, s) ∧
      t' = { t with test }.set p { t.worker p with sys := s, pc := .trySend } := by
  simp only [step] at h
  split at h
  · next hpc =>
      obtain ⟨⟨n, test, s⟩, hs, h⟩ := Option.map_eq_some_iff.1 h
      cases h
      exact ⟨hpc, n, test, s, hs, rfl⟩
  · cases h

theorem step_trySend_inv {granted : Bool} {send : Sendto}
    (h : step pr T t (.trySend p granted send) = some (t', u)) :
    (t.worker p).pc = .trySend ∧ ∃ s out,
      Afxdp.step (t.worker p).sys (.trySend () .send socketBatchSize granted send) =
        some (s, out) ∧
      t' = t.set p { t.worker p with
        sys := s
        pc := .fill
        stats := { (t.worker p).stats with
          txPackets := (t.worker p).stats.txPackets + out.ret
          cqDeficit := (t.worker p).stats.cqDeficit + out.ret } } := by
  simp only [step] at h
  split at h
  · next hpc =>
      obtain ⟨⟨s, out⟩, hs, h⟩ := Option.map_eq_some_iff.1 h
      cases h
      exact ⟨hpc, s, out, stepIn_some hs, rfl⟩
  · cases h

/-- The subtraction from the deficit does not underflow: no more is filled than is asked for. -/
theorem step_fill_inv {granted : Bool} (h : step pr T t (.fill p granted) = some (t', u)) :
    (t.worker p).pc = .fill ∧
      (t' = t.set p { t.worker p with pc := .done } ∨
        fillThreshold ≤ (t.worker p).stats.fqDeficit ∧ ∃ s out,
          Afxdp.step (t.worker p).sys
            (.fill () () (min fillBatchSize (t.worker p).stats.fqDeficit) granted) =
              some (s, out) ∧
          out.ret ≤ (t.worker p).stats.fqDeficit ∧
          t' = t.set p { t.worker p with
            sys := s
            pc := .done
            stats := { (t.worker p).stats with
              fqBufsFilled := (t.worker p).stats.fqBufsFilled + out.ret
              fqDeficit := (t.worker p).stats.fqDeficit - out.ret } }) := by
  simp only [step] at h
  split at h
  · next hpc =>
      refine ⟨hpc, ?_⟩
      split at h
      · next hdeficit =>
          obtain ⟨⟨s, out⟩, hs, h⟩ := Option.bind_eq_some_iff.1 h
          have hs := stepIn_some hs
          have hret := (Afxdp.step_fill_inv hs).2
          have hle := (grantCount_le ((t.worker p).sys.link ()).fq granted
            (min ((t.worker p).sys.vecs ()).len
              (min fillBatchSize (t.worker p).stats.fqDeficit))).1
          have hout : out.ret ≤ (t.worker p).stats.fqDeficit := by omega
          rw [pr.sub64_ok hout] at h
          cases h
          exact .inr ⟨hdeficit, s, out, hs, hout, rfl⟩
      · cases h
        exact .inl rfl
  · cases h

theorem step_kernel_inv {k : KAct} (h : step pr T t (.kernel p k) = some (t', u)) :
    (∀ j o len options, k ≠ .publish j o len options) ∧ ∃ s out,
      Afxdp.step (t.worker p).sys (.kernel () k) = some (s, out) ∧
      t' = t.set p { t.worker p with sys := s } := by
  cases k with
  | publish j o len options => cases h
  | _ =>
    simp only [step] at h
    obtain ⟨⟨s, out⟩, hs, h⟩ := Option.map_eq_some_iff.1 h
    cases h
    exact ⟨nofun, s, out, stepIn_some hs, rfl⟩

theorem step_deliver_inv {c j o len options : Nat}
    (h : step pr T t (.deliver p c j o len options) = some (t', u)) :
    t.next p ≤ c ∧ ∃ s out bytes,
      Afxdp.step (t.worker p).sys (.kernel () (.publish j o len options)) = some (s, out) ∧
      (s.hist ()).published.getLast? = some bytes ∧
      (c, bytes) ∈ ((t.worker p.other).sys.hist ()).read ∧
      t' = { t with next := Function.update t.next p (c + 1) }.set p
        { t.worker p with sys := s } := by
  simp only [step] at h
  obtain ⟨⟨s, out⟩, hs, h⟩ := Option.bind_eq_some_iff.1 h
  split at h
  · next hnext =>
      obtain ⟨hle, hread⟩ := hnext
      obtain ⟨bytes, hbytes, hmem⟩ := (Option.any_eq_true _ _).1 hread
      cases h
      exact ⟨hle, s, out, bytes, stepIn_some hs, hbytes, of_decide_eq_true hmem, rfl⟩
  · cases h

end

/-! ## The data paths -/

/-- A step of the data path that an application does with its buffers. -/
def Local {ι ν δ T : Type} : Afxdp.Act ι ν δ T → Prop
  | .move .. | .setLen .. | .setUser .. | .write .. => True
  | _ => False

/-- What an application does with its buffers leads from `s` to `s'`. -/
def LocalLeads (s s' : PortSys) : Prop := ∃ as, (∀ a ∈ as, Local a) ∧ Leads Afxdp.step s as s'

theorem LocalLeads.refl (s : PortSys) : LocalLeads s s :=
  ⟨[], fun _ ha => absurd ha List.not_mem_nil, .nil s⟩

theorem LocalLeads.trans {s t u : PortSys} (h : LocalLeads s t) (h' : LocalLeads t u) :
    LocalLeads s u := by
  obtain ⟨as, has, hlead⟩ := h
  obtain ⟨as', has', hlead'⟩ := h'
  refine ⟨as ++ as', ?_, hlead.append hlead'⟩
  intro a ha
  rcases List.mem_append.1 ha with ha | ha
  · exact has a ha
  · exact has' a ha

theorem LocalLeads.single {s s' : PortSys} {a : Afxdp.Act Unit Unit Dir Unit} {out : Out}
    (ha : Local a) (h : Afxdp.step s a = some (s', out)) : LocalLeads s s' := by
  refine ⟨[a], fun _ hb => ?_, .single h⟩
  rwa [List.mem_singleton.1 hb]

/-- The calls of an instance do to the data path what an application can do. -/
structure TrafficTest.Lawful {τ ρ : Type} (T : TrafficTest τ ρ) : Prop where
  receive : ∀ {test now p s n test' s'}, T.receive test now p s = some (n, test', s') →
    LocalLeads s s'
  transmit : ∀ {test now p r s n test' s'}, T.transmit test now p r s = some (n, test', s') →
    LocalLeads s s'

section
variable {ι ν δ T : Type} [DecidableEq ι] [DecidableEq ν] [DecidableEq δ] [Inhabited T]
  {s s' : Sys ι ν δ T}

/-- What an application does with its buffers changes nothing of the links. -/
theorem step_local {a : Afxdp.Act ι ν δ T} {out : Out} (ha : Local a)
    (h : Afxdp.step s a = some (s', out)) :
    s'.area = s.area ∧ s'.link = s.link ∧ s'.hist = s.hist := by
  cases a with
  | move c k c' p spare =>
    obtain ⟨-, -, -, harea, -, hl, hh⟩ := step_move_inv h
    exact ⟨harea, hl, hh⟩
  | setLen c k len =>
    obtain ⟨-, -, -, -, -, -, rfl, -⟩ := step_modify_inv (.inl ⟨len, rfl⟩) h
    exact ⟨Sys.setColl_area _ _, Sys.setColl_link _ _, Sys.setColl_hist _ _⟩
  | setUser c k user =>
    obtain ⟨-, -, -, -, -, -, rfl, -⟩ := step_modify_inv (.inr ⟨user, rfl⟩) h
    exact ⟨Sys.setColl_area _ _, Sys.setColl_link _ _, Sys.setColl_hist _ _⟩
  | write c k off byte =>
    obtain ⟨b, -, -, rfl⟩ := step_write_inv h
    exact ⟨rfl, rfl, rfl⟩
  | _ => exact ha.elim

theorem leads_local {as : List (Afxdp.Act ι ν δ T)} (has : ∀ a ∈ as, Local a)
    (h : Leads Afxdp.step s as s') : s'.area = s.area ∧ s'.link = s.link ∧ s'.hist = s.hist := by
  refine Program.leads_invariant (Q := Local)
    (I := fun u : Sys ι ν δ T => u.area = s.area ∧ u.link = s.link ∧ u.hist = s.hist) ?_
    ⟨rfl, rfl, rfl⟩ has h
  rintro u a u' out ha ⟨harea, hl, hh⟩ hstep
  obtain ⟨harea', hl', hh'⟩ := step_local ha hstep
  exact ⟨harea'.trans harea, hl'.trans hl, hh'.trans hh⟩

end

section
variable {τ ρ : Type} {pr : Profile} {T : TrafficTest τ ρ} {Q : Afxdp.Act Unit Unit Dir Unit → Prop}

/-- A step in which the kernel does nothing on an end but what `Q` allows. -/
def Act.Allowed (Q : Afxdp.Act Unit Unit Dir Unit → Prop) (p : Pos) : Act ρ → Prop
  | .kernel q k => q = p → Q (.kernel () k)
  | .deliver q _ j o len options => q = p → Q (.kernel () (.publish j o len options))
  | _ => True

/-- The test is a program over the data path of each end. -/
theorem step_over (hT : T.Lawful) (hQ : ∀ a, (∀ i k, a ≠ .kernel i k) → Q a) (p : Pos) :
    Program.Over Afxdp.step (step pr T) (fun t => (t.worker p).sys) Q (Act.Allowed Q p) := by
  have hset : ∀ {t : State τ} {q : Pos} {w : Worker} {test : τ} {next : Pos → Nat},
      (q = p → ∃ as, (∀ a ∈ as, Q a) ∧ Leads Afxdp.step (t.worker p).sys as w.sys) →
      ∃ as, (∀ a ∈ as, Q a) ∧
        Leads Afxdp.step (t.worker p).sys as (({ t with test, next }.set q w).worker p).sys := by
    intro t q w test next hw
    rcases eq_or_ne p q with rfl | hp
    · rw [State.set_self]
      exact hw rfl
    · rw [State.set_of_ne _ hp]
      exact ⟨[], fun a ha => absurd ha List.not_mem_nil, .nil _⟩
  have hnone : ∀ {s : PortSys}, ∃ as, (∀ a ∈ as, Q a) ∧ Leads Afxdp.step s as s :=
    ⟨[], fun a ha => absurd ha List.not_mem_nil, .nil _⟩
  have hone : ∀ {s s' : PortSys} {a out}, Afxdp.step s a = some (s', out) → Q a →
      ∃ as, (∀ a ∈ as, Q a) ∧ Leads Afxdp.step s as s' := by
    intro s s' a out h ha
    refine ⟨[a], fun b hb => ?_, .single h⟩
    rwa [List.mem_singleton.1 hb]
  have hlocal : ∀ {s s' : PortSys}, LocalLeads s s' →
      ∃ as, (∀ a ∈ as, Q a) ∧ Leads Afxdp.step s as s' := by
    rintro s s' ⟨as, has, h⟩
    refine ⟨as, fun a ha => hQ a fun i k hk => ?_, h⟩
    have hloc := has a ha
    rw [hk] at hloc
    exact hloc
  intro t a t' u ha h
  cases a with
  | initialFill q granted =>
    obtain ⟨-, s, out, hs, -, rfl⟩ := step_initialFill_inv h
    exact hset fun hq => hq ▸ hone hs (hQ _ (by simp))
  | done q now =>
    obtain ⟨-, rfl⟩ := step_done_inv h
    exact hset fun hq => hq ▸ hnone
  | service q grant =>
    obtain ⟨-, rfl | ⟨-, s, out, cqDeficit, hs, -, rfl⟩⟩ := step_service_inv h
    · exact hset fun hq => hq ▸ hnone
    · exact hset fun hq => hq ▸ hone hs (hQ _ (by simp))
  | tryRecv q grant =>
    obtain ⟨-, s, out, hs, rfl⟩ := step_tryRecv_inv h
    exact hset fun hq => hq ▸ hone hs (hQ _ (by simp))
  | receive q =>
    obtain ⟨-, n, test, s, hs, rfl⟩ := step_receive_inv h
    exact hset fun hq => hq ▸ hlocal (hT.receive hs)
  | transmit q r =>
    obtain ⟨-, n, test, s, hs, rfl⟩ := step_transmit_inv h
    exact hset fun hq => hq ▸ hlocal (hT.transmit hs)
  | trySend q granted send =>
    obtain ⟨-, s, out, hs, rfl⟩ := step_trySend_inv h
    exact hset fun hq => hq ▸ hone hs (hQ _ (by simp))
  | fill q granted =>
    obtain ⟨-, rfl | ⟨-, s, out, hs, -, rfl⟩⟩ := step_fill_inv h
    · exact hset fun hq => hq ▸ hnone
    · exact hset fun hq => hq ▸ hone hs (hQ _ (by simp))
  | kernel q k =>
    obtain ⟨-, s, out, hs, rfl⟩ := step_kernel_inv h
    exact hset fun hq => by
      subst hq
      exact hone hs (ha rfl)
  | deliver q c j o len options =>
    obtain ⟨-, s, out, bytes, hs, -, -, rfl⟩ := step_deliver_inv h
    exact hset fun hq => by
      subst hq
      exact hone hs (ha rfl)

end

/-! ## Books -/

/-- What the calls `o` of a worker returned, by the statistics. -/
def Stats.count (st : Stats) : Op → Nat
  | .fill => st.fqBufsFilled
  | .recv => st.rxPackets
  | .send => st.txPackets
  | .service => st.cqBufsReceived

/-- What the initial fill put into the fill ring, which is in no statistics. -/
def Worker.initial (w : Worker) : Op → Nat
  | .fill => if w.pc = .initialFill then 0 else ringSize
  | _ => 0

/-- The statistics are the counters of the rings. The fill deficit is what was received and not
refilled, and the completion deficit is what was sent and not collected. -/
structure Worker.Books (w : Worker) : Prop where
  count : ∀ o, (w.sys.link ()).count o = w.initial o + w.stats.count o
  fqDeficit : w.stats.fqDeficit + w.stats.fqBufsFilled = w.stats.rxPackets
  cqDeficit : w.stats.cqDeficit + w.stats.cqBufsReceived = w.stats.txPackets
  balanced : (w.sys.link ()).Balanced

section
variable {w : Worker}

/-- After the initial fill its buffers are in the fill ring, with the kernel to receive, in the Rx
ring, or to be refilled. -/
theorem Worker.Books.supply (h : w.Books) (hpc : w.pc ≠ .initialFill) :
    (w.sys.link ()).fq.used + (w.sys.link ()).krx.length + (w.sys.link ()).rx.used +
      w.stats.fqDeficit = ringSize := by
  have hfill := h.count .fill
  have hrecv := h.count .recv
  have hdeficit := h.fqDeficit
  have hbal := h.balanced.rx
  have hfq := (w.sys.link ()).fq.cons_le
  have hrx := (w.sys.link ()).rx.cons_le
  simp only [Link.count, initial, if_neg hpc, Stats.count] at hfill hrecv
  simp only [Spsc.RingBuf.used]
  omega

/-- The completion deficit is in the Tx ring, with the kernel, or in the completion ring. -/
theorem Worker.Books.inFlight (h : w.Books) :
    (w.sys.link ()).tx.used + (w.sys.link ()).ktx.length + (w.sys.link ()).cq.used =
      w.stats.cqDeficit := by
  have hsend := h.count .send
  have hservice := h.count .service
  have hdeficit := h.cqDeficit
  have hbal := h.balanced.tx
  have htx := (w.sys.link ()).tx.cons_le
  have hcq := (w.sys.link ()).cq.cons_le
  simp only [Link.count, initial, Stats.count] at hsend hservice
  simp only [Spsc.RingBuf.used]
  omega

/-- A call keeps the books if the worker enters what it returned. -/
theorem Worker.Books.call (hw : w.Books) (hlen : afXdpReserved ≤ w.sys.area.bufLen)
    {a : Afxdp.Act Unit Unit Dir Unit} {s : PortSys} {out : Out}
    (hs : Afxdp.step w.sys a = some (s, out)) {w' : Worker} (hsys : w'.sys = s) (o : Op)
    (hop : a.op? = some (o, ())) (hcount : ∀ o', w'.initial o' + w'.stats.count o' =
      w.initial o' + w.stats.count o' + if o' = o then out.ret else 0)
    (hfq : w'.stats.fqDeficit + w'.stats.fqBufsFilled = w'.stats.rxPackets)
    (hcq : w'.stats.cqDeficit + w'.stats.cqBufsReceived = w'.stats.txPackets) : w'.Books := by
  obtain ⟨hcounts, hbal, -⟩ := step_counts hlen hs ()
  subst hsys
  refine ⟨?_, hfq, hcq, hbal hw.balanced⟩
  intro o'
  rw [hcounts o', hw.count o', hcount o', returned, hop]
  refine congrArg _ (if_congr ?_ rfl rfl)
  simp only [Option.some.injEq, Prod.mk.injEq, and_true]
  exact eq_comm

/-- So does a step that changes neither the link nor the statistics. -/
theorem Worker.Books.skip (hw : w.Books) {w' : Worker}
    (hlink : w'.sys.link = w.sys.link) (hstats : w'.stats = w.stats)
    (hpc : w'.pc = .initialFill ↔ w.pc = .initialFill) : w'.Books := by
  refine ⟨?_, ?_, ?_, ?_⟩
  · intro o
    rw [hlink, hstats, hw.count o]
    cases o <;> simp only [initial, hpc]
  · rw [hstats]
    exact hw.fqDeficit
  · rw [hstats]
    exact hw.cqDeficit
  · rw [hlink]
    exact hw.balanced

/-- A completion that is collected was sent, so the subtraction does not underflow. -/
theorem Worker.Books.service_le (hw : w.Books) (hlen : afXdpReserved ≤ w.sys.area.bufLen)
    {batchSize grant : Nat} {s : PortSys} {out : Out}
    (hs : Afxdp.step w.sys (.service () () batchSize grant) = some (s, out)) :
    out.ret ≤ w.stats.cqDeficit := by
  obtain ⟨-, hret⟩ := Afxdp.step_service_inv hlen hs
  have hflight := hw.inFlight
  rw [hret, peekCount]
  omega

end

section
variable {τ ρ : Type} {pr : Profile} {T : TrafficTest τ ρ} {t t' : State τ}

/-- Every step keeps the books. -/
theorem books_step (hT : T.Lawful) {a : Act ρ} {u : Unit}
    (hlen : ∀ p, afXdpReserved ≤ (t.worker p).sys.area.bufLen) (ht : ∀ p, (t.worker p).Books)
    (h : step pr T t a = some (t', u)) : ∀ p, (t'.worker p).Books := by
  have hset : ∀ {q : Pos} {w : Worker} {test : τ} {next : Pos → Nat}, w.Books →
      ∀ p, (({ t with test, next }.set q w).worker p).Books := by
    intro q w test next hw p
    rcases eq_or_ne p q with rfl | hp
    · rw [State.set_self]
      exact hw
    · rw [State.set_of_ne _ hp]
      exact ht p
  have hkernel : ∀ {q : Pos} {k : KAct} {s out},
      Afxdp.step (t.worker q).sys (.kernel () k) = some (s, out) →
      Worker.Books { t.worker q with sys := s } := by
    intro q k s out hs
    obtain ⟨hcounts, hbal, -⟩ := step_counts (hlen q) hs ()
    refine ⟨fun o => ?_, (ht q).fqDeficit, (ht q).cqDeficit, hbal (ht q).balanced⟩
    rw [hcounts o, returned_of_ne out (by simp [Act.op?]), Nat.add_zero]
    exact (ht q).count o
  cases a with
  | initialFill q granted =>
    obtain ⟨hpc, s, out, hs, hret, rfl⟩ := step_initialFill_inv h
    refine hset ((ht q).call (hlen q) hs rfl .fill rfl ?_ (ht q).fqDeficit (ht q).cqDeficit)
    intro o
    cases o with
    | fill => simp [Worker.initial, hpc, hret, Nat.add_comm]
    | _ => simp [Worker.initial]
  | done q now =>
    obtain ⟨hpc, rfl⟩ := step_done_inv h
    refine hset ((ht q).skip rfl rfl ?_)
    rw [hpc]
    split <;> simp
  | service q grant =>
    obtain ⟨hpc, rfl | ⟨-, s, out, cqDeficit, hs, hsub, rfl⟩⟩ := step_service_inv h
    · exact hset ((ht q).skip rfl rfl (by simp [hpc]))
    · have hle := (ht q).service_le (hlen q) hs
      rw [pr.sub64_ok hle] at hsub
      cases hsub
      refine hset ((ht q).call (hlen q) hs rfl .service rfl ?_ (ht q).fqDeficit ?_)
      · intro o
        cases o <;> simp [Worker.initial, Stats.count, hpc]
      · have hdeficit := (ht q).cqDeficit
        simp only
        omega
  | tryRecv q grant =>
    obtain ⟨hpc, s, out, hs, rfl⟩ := step_tryRecv_inv h
    refine hset ((ht q).call (hlen q) hs rfl .recv rfl ?_ ?_ (ht q).cqDeficit)
    · intro o
      cases o <;> simp [Worker.initial, Stats.count, hpc]
    · have hdeficit := (ht q).fqDeficit
      simp only
      omega
  | receive q =>
    obtain ⟨hpc, n, test, s, hs, rfl⟩ := step_receive_inv h
    obtain ⟨as, has, hlead⟩ := hT.receive hs
    exact hset ((ht q).skip (leads_local has hlead).2.1 rfl (by simp [hpc]))
  | transmit q r =>
    obtain ⟨hpc, n, test, s, hs, rfl⟩ := step_transmit_inv h
    obtain ⟨as, has, hlead⟩ := hT.transmit hs
    exact hset ((ht q).skip (leads_local has hlead).2.1 rfl (by simp [hpc]))
  | trySend q granted send =>
    obtain ⟨hpc, s, out, hs, rfl⟩ := step_trySend_inv h
    refine hset ((ht q).call (hlen q) hs rfl .send rfl ?_ (ht q).fqDeficit ?_)
    · intro o
      cases o <;> simp [Worker.initial, Stats.count, hpc]
    · have hdeficit := (ht q).cqDeficit
      simp only
      omega
  | fill q granted =>
    obtain ⟨hpc, rfl | ⟨-, s, out, hs, hret, rfl⟩⟩ := step_fill_inv h
    · exact hset ((ht q).skip rfl rfl (by simp [hpc]))
    · refine hset ((ht q).call (hlen q) hs rfl .fill rfl ?_ ?_ (ht q).cqDeficit)
      · intro o
        cases o <;> simp [Worker.initial, Stats.count, hpc, Nat.add_assoc]
      · have hdeficit := (ht q).fqDeficit
        simp only
        omega
  | kernel q k =>
    obtain ⟨-, s, out, hs, rfl⟩ := step_kernel_inv h
    exact hset (hkernel hs)
  | deliver q c j o len options =>
    obtain ⟨-, s, out, bytes, hs, -, -, rfl⟩ := step_deliver_inv h
    exact hset (hkernel hs)

end

/-! ## The start -/

/-- What the buffers of an area go through before the initial fill: `gen_worker_config` puts them
into a pool, and `do_worker` gets them all back. -/
def startBufs {α : Type} (prof : Profile) (bufs : Vec α) : Except Panic (Vec α) := do
  let len := bufs.len
  let (r, bp, _) ← (BufPoolVec.new len).put prof bufs len
  if r = len then
    let totalBufs := bp.len
    let (_, _, bufs) ← bp.get prof (Vec.withCapacity totalBufs) totalBufs
    return bufs
  else throw (.msg "assertion failed: r == len")

/-- A vector keeps its buffers, in their order. -/
theorem startBufs_eq {α : Type} (prof : Profile) {bufs : Vec α} (h : bufs.capacity = bufs.len) :
    startBufs prof bufs = .ok bufs := by
  have hmove : BufPoolVec.moveTail prof bufs (Vec.withCapacity bufs.len) bufs.len =
      .ok (bufs.len, bufs.dropLast bufs.len, bufs) := by
    have htail : BufPoolVec.tail bufs bufs.len = bufs.list := by
      rw [BufPoolVec.tail, Nat.sub_self, List.drop_zero]
    have hpush : (Vec.withCapacity bufs.len).pushAll bufs.list = bufs := by
      refine Vec.ext (Vec.pushAll_list _ _) ?_
      rw [Vec.pushAll_capacity (Nat.le_of_eq (Nat.zero_add _)), h]
      rfl
    rw [BufPoolVec.moveTail_eq, Nat.min_self, htail, hpush]
  have hput : (BufPoolVec.new bufs.len).put prof bufs bufs.len =
      .ok (bufs.len, ⟨bufs⟩, bufs.dropLast bufs.len) := BufPoolVec.put_of hmove
  have hget : BufPoolVec.get prof ⟨bufs⟩ (Vec.withCapacity bufs.len) bufs.len =
      .ok (bufs.len, ⟨bufs.dropLast bufs.len⟩, bufs) := BufPoolVec.get_of hmove
  simp only [startBufs, hput, BufPoolVec.len, hget, bind, Except.bind, pure, Except.pure, if_true]

/-- The two data paths before the initial fill, over areas of their own that `new` made. -/
def Started (prof : Profile) (mmap : Nat → Nat → Bool) (bufNum bufLen : Nat)
    (s₀ : Pos → PortSys) : Prop :=
  ∀ p, ∃ area b w, MmapArea.new prof mmap bufNum bufLen {} = .ok (.ok (area, b)) ∧
    startBufs prof b = .ok w ∧ (s₀ p).Start area () w

theorem Started.start {prof : Profile} {mmap : Nat → Nat → Bool} {bufNum bufLen : Nat}
    {s₀ : Pos → PortSys} (h : Started prof mmap bufNum bufLen s₀) (hlen : afXdpReserved < bufLen)
    (hsize : bufNum * bufLen < 2 ^ 64) (p : Pos) :
    (s₀ p).Start ⟨bufNum, bufLen⟩ () (MmapArea.chunkVec bufNum bufLen) := by
  obtain ⟨area, b, w, hnew, hbufs, hs⟩ := h p
  obtain ⟨rfl, rfl⟩ := MmapArea.new_inv hsize (Nat.le_of_lt hlen) hnew
  rw [startBufs_eq prof (by simp [MmapArea.chunkVec, Vec.len])] at hbufs
  cases hbufs
  exact hs

/-- The state in which both initial fills are done, and complete. -/
def State.filled {τ : Type} (test : τ) (sys : Pos → PortSys) : State τ where
  test := test
  worker p := ⟨(sys p).afterFill () () ringSize, .done, 0, {}⟩
  next _ := 0

/-- With enough buffers and slots the initial fill is complete. -/
theorem step_initialFill {τ ρ : Type} (T : TrafficTest τ ρ) {t : State τ} {p : Pos}
    (hpc : (t.worker p).pc = .initialFill) (hbufs : ringSize ≤ ((t.worker p).sys.vecs ()).len)
    (hfree : ringSize ≤ ((t.worker p).sys.link ()).fq.free) :
    step .release T t (.initialFill p true) = some (t.set p { t.worker p with
      sys := (t.worker p).sys.afterFill () () ringSize
      pc := .done }, ()) := by
  obtain ⟨tr, hs⟩ := Afxdp.step_fill (t.worker p).sys () () ringSize true
  have hcount : grantCount ((t.worker p).sys.link ()).fq true
      (min ((t.worker p).sys.vecs ()).len ringSize) = ringSize := by
    rw [Nat.min_eq_right hbufs, grantCount, if_pos (by simpa using hfree)]
  rw [hcount] at hs
  simp only [step, hpc, stepIn_release, hs, Option.bind_some, if_true]

/-- A run that begins with both initial fills. -/
theorem run_filled {τ ρ : Type} {T : TrafficTest τ ρ} {test : τ} {sys : Pos → PortSys}
    (hbufs : ∀ p, ringSize ≤ ((sys p).vecs ()).len)
    (hfree : ∀ p, ringSize ≤ ((sys p).link ()).fq.free) {as : List (Act ρ)} {t : State τ}
    {outs : List Unit} (h : run (step .release T) (.filled test sys) as = some (t, outs)) :
    run (step .release T) (.start test sys)
        (.initialFill .first true :: .initialFill .second true :: as) =
      some (t, () :: () :: outs) := by
  have hfirst := step_initialFill T (t := .start test sys) (p := .first) rfl (hbufs _) (hfree _)
  refine Run.run_cons.2 ⟨_, _, _, hfirst, Run.run_cons.2 ⟨.filled test sys, (), outs, ?_, h, rfl⟩,
    rfl⟩
  rw [step_initialFill T rfl (hbufs .second) (hfree .second)]
  refine congrArg some (Prod.ext ?_ rfl)
  simp only [State.set, State.filled, State.start, State.mk.injEq, true_and, and_true]
  funext p
  cases p <;> rfl

/-! ## Runs -/

section
variable {τ ρ : Type} {pr : Profile} {T : TrafficTest τ ρ} {t : State τ}

/-- In every state that a run reaches the books are right. -/
theorem run_books {prof : Profile} {mmap : Nat → Nat → Bool} {bufNum bufLen : Nat} {test₀ : τ}
    {s₀ : Pos → PortSys} {as : List (Act ρ)} {outs : List Unit} (hT : T.Lawful)
    (hlen : afXdpReserved < bufLen) (hsize : bufNum * bufLen < 2 ^ 64)
    (hs : Started prof mmap bufNum bufLen s₀)
    (hrun : run (step pr T) (.start test₀ s₀) as = some (t, outs)) (p : Pos) :
    (t.worker p).sys.area = ⟨bufNum, bufLen⟩ ∧
      ((t.worker p).sys.link ()).fq.size = ((s₀ p).link ()).fq.size ∧ (t.worker p).Books := by
  refine Run.run_invariant (Q := fun _ => True)
    (I := fun t => ∀ p, (t.worker p).sys.area = ⟨bufNum, bufLen⟩ ∧
      ((t.worker p).sys.link ()).fq.size = ((s₀ p).link ()).fq.size ∧ (t.worker p).Books) ?_ ?_
    (fun _ _ => trivial) hrun p
  · intro t a t' u _ ht hstep p
    have hsys := (step_over hT (Q := fun _ => True) (fun _ _ => trivial) p).step_invariant
      (I := fun s : PortSys => s.area = ⟨bufNum, bufLen⟩ ∧
        (s.link ()).fq.size = ((s₀ p).link ()).fq.size) ?_ ?_ ⟨(ht p).1, (ht p).2.1⟩ hstep
    · refine ⟨hsys.1, hsys.2, books_step hT (fun q => ?_) (fun q => (ht q).2.2) hstep p⟩
      rw [(ht q).1]
      exact Nat.le_of_lt hlen
    · rintro s a s' out - ⟨harea, hfq⟩ h
      have hlen' : afXdpReserved ≤ s.area.bufLen := by
        rw [harea]
        exact Nat.le_of_lt hlen
      exact ⟨(step_area hlen' h).trans harea, ((step_counts hlen' h ()).2.2).trans hfq⟩
    · cases a with
      | kernel | deliver => exact fun _ => trivial
      | _ => trivial
  · intro p
    have hstart := hs.start hlen hsize p
    refine ⟨hstart.area, rfl, fun o => ?_, rfl, rfl, (hstart.link ()).balanced⟩
    rw [State.start, (hstart.link ()).count]
    cases o <;> rfl

/-- The kernel handles one packet of an end in a step at most. -/
theorem step_handled {t' : State τ} {a : Act ρ} {u : Unit} (hT : T.Lawful) {p : Pos}
    (hlen : afXdpReserved ≤ (t.worker p).sys.area.bufLen) (h : step pr T t a = some (t', u)) :
    ((t'.worker p).sys.link ()).handled ≤ ((t.worker p).sys.link ()).handled + 1 := by
  have hset : ∀ {q : Pos} {k : KAct} {s out} {next : Pos → Nat},
      Afxdp.step (t.worker q).sys (.kernel () k) = some (s, out) →
      (((({ t with next } : State τ).set q { t.worker q with sys := s }).worker p).sys.link
        ()).handled ≤ ((t.worker p).sys.link ()).handled + 1 := by
    intro q k s out next hs
    rcases eq_or_ne p q with rfl | hp
    · rw [State.set_self]
      exact step_kernel_handled hs ()
    · rw [State.set_of_ne _ hp]
      exact Nat.le_succ _
  cases a with
  | kernel q k =>
    obtain ⟨-, s, out, hs, rfl⟩ := step_kernel_inv h
    exact hset hs
  | deliver q c j o len options =>
    obtain ⟨-, s, out, bytes, hs, -, -, rfl⟩ := step_deliver_inv h
    exact hset hs
  | _ =>
    refine Nat.le_succ_of_le (Nat.le_of_eq
      (over_handled (step_over hT (fun _ ha => ha) p) hlen ?_ h ()))
    trivial

/-- In every run a counter exceeds the number of steps by no more than the slots of the Tx ring, so
in fewer than `2 ^ 63` steps no counter of the source wraps. -/
theorem run_stats_le {prof : Profile} {mmap : Nat → Nat → Bool} {bufNum bufLen : Nat} {test₀ : τ}
    {s₀ : Pos → PortSys} {as : List (Act ρ)} {outs : List Unit} (hT : T.Lawful)
    (hlen : afXdpReserved < bufLen) (hsize : bufNum * bufLen < 2 ^ 64)
    (hs : Started prof mmap bufNum bufLen s₀)
    (hrun : run (step pr T) (.start test₀ s₀) as = some (t, outs)) (p : Pos) :
    let st := (t.worker p).stats
    st.rxPackets ≤ as.length ∧ st.fqDeficit ≤ as.length ∧ st.fqBufsFilled ≤ as.length ∧
      st.txPackets ≤ as.length + 2 ^ 31 ∧ st.cqDeficit ≤ as.length + 2 ^ 31 ∧
      st.cqBufsReceived ≤ as.length + 2 ^ 31 := by
  have hstart := hs.start hlen hsize p
  have hhandled : ((t.worker p).sys.link ()).handled ≤ ((s₀ p).link ()).handled + as.length := by
    refine Run.run_le (fun t : State τ => ((t.worker p).sys.link ()).handled) (Q := fun _ => True)
      (I := fun t => (t.worker p).sys.area = ⟨bufNum, bufLen⟩) ?_ hstart.area (fun _ _ => trivial)
      hrun
    rintro t a t' u - harea hstep
    have hlen' : afXdpReserved ≤ (t.worker p).sys.area.bufLen := by
      rw [harea]
      exact Nat.le_of_lt hlen
    refine ⟨(step_over hT (Q := fun _ => True) (fun _ _ => trivial) p).step_invariant
      (I := fun s : PortSys => s.area = ⟨bufNum, bufLen⟩) ?_ ?_ harea hstep,
      step_handled hT hlen' hstep⟩
    · rintro s a s' out - harea h
      rw [step_area (by rw [harea]; exact Nat.le_of_lt hlen) h, harea]
    · cases a with
      | kernel | deliver => exact fun _ => trivial
      | _ => trivial
  rw [(hstart.link ()).handled] at hhandled
  obtain ⟨-, -, hbooks⟩ := run_books hT hlen hsize hs hrun p
  have hrecv := hbooks.count .recv
  have hsend := hbooks.count .send
  have hfq := hbooks.fqDeficit
  have hcq := hbooks.cqDeficit
  have hrx := ((t.worker p).sys.link ()).rx.cons_le
  have htx := ((t.worker p).sys.link ()).tx.prod_le
  have hslots := ((t.worker p).sys.link ()).tx.size_le
  simp only [Link.count, Worker.initial, Stats.count, Link.handled] at hrecv hsend hhandled
  omega

/-- Take any run of a test whose calls do to the data path what an application can do. On each end
what was sent and not collected, by the statistics, is in the Tx ring, with the kernel or in the
completion ring, so the subtraction from that deficit never underflows. And of the buffers of the
initial fill each is in the fill ring, with the kernel, in the Rx ring, or was received and not
refilled. -/
theorem run_traffic {prof : Profile} {mmap : Nat → Nat → Bool} {bufNum bufLen : Nat} {test₀ : τ}
    {s₀ : Pos → PortSys} {as : List (Act ρ)} {outs : List Unit} (hT : T.Lawful)
    (hlen : afXdpReserved < bufLen) (hsize : bufNum * bufLen < 2 ^ 64)
    (hs : Started prof mmap bufNum bufLen s₀)
    (hrun : run (step pr T) (.start test₀ s₀) as = some (t, outs)) (p : Pos) :
    let l := (t.worker p).sys.link ()
    let st := (t.worker p).stats
    l.tx.used + l.ktx.length + l.cq.used = st.cqDeficit ∧
    st.cqDeficit + st.cqBufsReceived = st.txPackets ∧
    (∀ batchSize grant s out,
      Afxdp.step (t.worker p).sys (.service () () batchSize grant) = some (s, out) →
      out.ret ≤ st.cqDeficit) ∧
    ((t.worker p).pc ≠ .initialFill →
      l.fq.used + l.krx.length + l.rx.used + st.fqDeficit = ringSize) ∧
    st.fqDeficit + st.fqBufsFilled = st.rxPackets := by
  obtain ⟨harea, -, hp⟩ := run_books hT hlen hsize hs hrun p
  have hlen' : afXdpReserved ≤ (t.worker p).sys.area.bufLen := by
    rw [harea]
    exact Nat.le_of_lt hlen
  exact ⟨hp.inFlight, hp.cqDeficit, fun _ _ _ _ h => hp.service_le hlen' h, hp.supply,
    hp.fqDeficit⟩

end

/-- A test that sends a buffer of `bufs` whenever it is asked for packets. -/
def moveOne : TrafficTest Unit Unit where
  done _ _ := (false, ())
  transmit test _ _ _ s :=
    (Afxdp.step s (.move (.vec ()) 0 (.deque .send) 0 0)).map fun r => (1, test, r.1)
  receive test _ _ s := some (0, test, s)

theorem moveOne_lawful : moveOne.Lawful where
  receive h := by
    cases h
    exact .refl _
  transmit h := by
    obtain ⟨⟨s, out⟩, hs, h⟩ := Option.map_eq_some_iff.1 h
    cases h
    exact .single (by trivial) hs

/-- The data paths of the two ends. -/
def moveOneSys (e : Fin 32) (_ : Pos) : PortSys :=
  Sys.init ⟨513, 320⟩ () (MmapArea.chunkVec 513 320) e

theorem moveOne_started : Started .release (fun _ _ => true) 513 320 (moveOneSys 9) :=
  fun _ => ⟨_, _, _, MmapArea.new_ok (by decide) (by decide) rfl,
    startBufs_eq _ (by simp [MmapArea.chunkVec, Vec.len]), Sys.init_start _ _ _ _⟩

/-- After the initial fills the first worker sends an empty packet, which the second receives. -/
def moveOneRun : List (Act Unit) :=
  [.initialFill .first true, .initialFill .second true, .done .first 0, .service .first 1,
    .tryRecv .first 1, .receive .first, .transmit .first (), .trySend .first true .sent,
    .kernel .first .takeTx, .kernel .first (.readTx 0), .kernel .second .takeFill,
    .deliver .second 0 0 256 0 0, .done .second 0, .service .second 1, .tryRecv .second 1]

theorem moveOneRun_some : ∃ t outs,
    run (step .release moveOne) (.start () (moveOneSys 9)) moveOneRun = some (t, outs) := by
  have hsome : (run (step .release moveOne) (.filled () (moveOneSys 9))
      (moveOneRun.drop 2)).isSome := by
    decide +kernel
  obtain ⟨⟨t, outs⟩, h⟩ := Option.isSome_iff_exists.1 hsome
  refine ⟨t, _, run_filled (fun p => ?_) (fun p => ?_) h⟩
  · simp [moveOneSys, Sys.init, MmapArea.chunkVec, Vec.len, ringSize]
  · show ringSize ≤ 0 + 2 ^ 9 - 0
    decide

theorem run_traffic_moveOneRun :
    ∃ t outs, run (step .release moveOne) (.start () (moveOneSys 9)) moveOneRun = some (t, outs) ∧
      let l := (t.worker .second).sys.link ()
      let st := (t.worker .second).stats
      l.tx.used + l.ktx.length + l.cq.used = st.cqDeficit ∧
      st.cqDeficit + st.cqBufsReceived = st.txPackets ∧
      (∀ batchSize grant s out,
        Afxdp.step (t.worker .second).sys (.service () () batchSize grant) = some (s, out) →
        out.ret ≤ st.cqDeficit) ∧
      ((t.worker .second).pc ≠ .initialFill →
        l.fq.used + l.krx.length + l.rx.used + st.fqDeficit = ringSize) ∧
      st.fqDeficit + st.fqBufsFilled = st.rxPackets := by
  obtain ⟨t, outs, hrun⟩ := moveOneRun_some
  exact ⟨t, outs, hrun,
    run_traffic moveOne_lawful (by decide) (by decide) moveOne_started hrun .second⟩

end Afxdp.Traffic
