import Afxdp.Numbering

/-!
# What `BiDirHash` finds

The checks of `BiDirHash` are about the crate: that every packet comes out of the other end with the
bytes that went in, in order and once. They never fail (`run_bidirHash`): the ends of the veth lose
packets and change nothing else. What is left for `finalize` to find is a packet that was lost, or a
test that ran out of time (`run_finalize`). The calls of the test do not panic, and the workers only
where their environment refuses something, or in a debug build where a ring index overflows
(`run_bidirHash_panics_iff`).
-/

namespace Afxdp.Traffic

open Run (run run_invariant)

/-! ## The invariant -/

/-- The port sent what was handed to its data path, and it received the first of what came out. -/
structure PortState.Checked (hash : List UInt8 → UInt64) (total : Nat) (port : PortState)
    (s : PortSys) : Prop where
  sent : port.Sent hash (handed s)
  seq : port.seq = port.transmitted + 1
  le : port.transmitted ≤ total
  received : port.Received port.received s

/-- That holds of both ports, and a worker left its loop after the end of the test or when both had
sent all their packets. -/
structure State.Checked (hash : List UInt8 → UInt64) (t : State BiDirHash) : Prop where
  port : ∀ p, (t.test.portState p).Checked hash t.test.totalPackets (t.worker p).sys
  exited : ∀ p, (t.worker p).pc = .exited → t.test.endTime < (t.worker p).now ∨
    ∀ q, (t.test.portState q).transmitted = t.test.totalPackets

theorem PortState.Checked.same {hash : List UInt8 → UInt64} {total : Nat} {port : PortState}
    {s s' : PortSys} (h : port.Checked hash total s) (hs : SamePackets s s') :
    port.Checked hash total s' := by
  have hr := h.received
  refine ⟨?_, h.seq, h.le, ?_, ?_, ?_, hr.badHash, hr.outOfOrder, hr.duplicated⟩
  · rw [hs.handed]
    exact h.sent
  · rw [hs.pushed]
    exact hr.le
  · rw [hs.pushed, hs.pending]
    exact hr.pending
  · rw [hs.pushed]
    exact hr.last

section
variable {pr : Profile} {hash : List UInt8 → UInt64} {area : MmapArea} {S : Finset Nat}
  {t t' : State BiDirHash}
  {a : Act (Nat → Random)} {u : Unit} {p : Pos}

/-- A step of a worker that keeps what holds of its port. -/
theorem State.Checked.set (ht : t.Checked hash) {port : PortState} {w : Worker}
    {next : Pos → Nat} (hport : port.Checked hash t.test.totalPackets w.sys)
    (hle : (t.test.portState p).transmitted ≤ port.transmitted)
    (hpc : w.pc = .exited → (t.worker p).pc = .exited ∧ w.now = (t.worker p).now) :
    (State.set { t with test := t.test.setPort p port, next } p w).Checked hash := by
  constructor
  · intro q
    rcases eq_or_ne q p with rfl | hqp
    · rw [State.set_self, State.set_test, BiDirHash.setPort_self]
      exact hport
    · rw [State.set_of_ne _ hqp, State.set_test, BiDirHash.setPort_of_ne _ hqp]
      exact ht.port q
  · intro q hq
    have hold : t.test.endTime < (t.worker q).now ∨
        ∀ r, (t.test.portState r).transmitted = t.test.totalPackets := by
      refine ht.exited q ?_
      rcases eq_or_ne q p with rfl | hqp
      · rw [State.set_self] at hq
        exact (hpc hq).1
      · rwa [State.set_of_ne _ hqp] at hq
    rcases hold with hnow | hall
    · left
      rcases eq_or_ne q p with rfl | hqp
      · rw [State.set_self] at hq ⊢
        rw [(hpc hq).2]
        exact hnow
      · rw [State.set_of_ne _ hqp]
        exact hnow
    · right
      intro r
      rcases eq_or_ne r p with rfl | hrp
      · rw [State.set_test, BiDirHash.setPort_self]
        have hr := hall r
        have hub := hport.le
        simp only [BiDirHash.setPort_totalPackets]
        omega
      · rw [State.set_test, BiDirHash.setPort_of_ne _ hrp]
        exact hall r

/-- A step of a worker that does not go through the test. -/
theorem State.Checked.set_worker (ht : t.Checked hash) {w : Worker} {next : Pos → Nat}
    (hport : (t.test.portState p).Checked hash t.test.totalPackets w.sys)
    (hpc : w.pc = .exited → (t.worker p).pc = .exited ∧ w.now = (t.worker p).now) :
    (State.set { t with next } p w).Checked hash := by
  have h : (State.set { t with test := t.test.setPort p (t.test.portState p), next } p w).Checked
      hash := ht.set hport (Nat.le_refl _) hpc
  rwa [BiDirHash.setPort, Function.update_eq_self] at h

/-- What came out of an end was handed in at the other one. -/
theorem State.Carried.pushed (h : t.Carried area S) (p : Pos) :
    ((t.worker p).sys.hist ()).pushed.Sublist (handed (t.worker p.other).sys) := by
  have hfifo := ((h.sound p).carries ()).fifo.rx
  exact (hfifo.sublist.trans (h.delivers p).sublist).trans (List.sublist_append_left _ _)

/-- `done` changes nothing that is checked. -/
theorem isDone_eq (test : BiDirHash) (now : Nat) :
    (test.isDone now).2.portState = test.portState ∧
      (test.isDone now).2.totalPackets = test.totalPackets ∧
      (test.isDone now).2.endTime = test.endTime ∧
      ((test.isDone now).1 = true → test.endTime < now ∨
        ∀ q, test.totalPackets ≤ (test.portState q).transmitted) := by
  rw [BiDirHash.isDone]
  split
  · next hend => exact ⟨rfl, rfl, rfl, fun _ => .inl hend⟩
  · split
    · exact ⟨rfl, rfl, rfl, nofun⟩
    · next hall =>
        have hboth : ∀ q, test.totalPackets ≤ (test.portState q).transmitted := by
          intro q
          rw [not_or, Nat.not_lt, Nat.not_lt] at hall
          cases q with
          | first => exact hall.1
          | second => exact hall.2
        split
        · exact ⟨rfl, rfl, rfl, nofun⟩
        · split
          · exact ⟨rfl, rfl, rfl, fun _ => .inr hboth⟩
          · exact ⟨rfl, rfl, rfl, nofun⟩

theorem State.Checked.done (ht : t.Checked hash) (p : Pos) (now : Nat) :
    (State.set { t with test := (t.test.isDone now).2 } p { t.worker p with
      pc := if (t.test.isDone now).1 then .exited else .service
      now }).Checked hash := by
  obtain ⟨hport, htotal, hend, hdone⟩ := isDone_eq t.test now
  constructor
  · intro q
    rw [State.set_test, hport, htotal]
    rcases eq_or_ne q p with rfl | hqp
    · rw [State.set_self]
      exact ht.port q
    · rw [State.set_of_ne _ hqp]
      exact ht.port q
  · intro q hq
    rw [State.set_test, hport, htotal, hend]
    rcases eq_or_ne q p with rfl | hqp
    · rw [State.set_self] at hq ⊢
      by_cases hd : (t.test.isDone now).1 = true
      · refine (hdone hd).imp id fun hall r => ?_
        exact Nat.le_antisymm (ht.port r).le (hall r)
      · simp only [hd] at hq
        cases hq
    · rw [State.set_of_ne _ hqp] at hq ⊢
      exact ht.exited q hq

/-- Every step keeps the invariant. -/
theorem State.Checked.step (hlen : afXdpReserved < area.bufLen)
    (htotal : t.test.totalPackets + 1 < 2 ^ 64) (hcarried : t.Carried area S)
    (ht : t.Checked hash) (h : Traffic.step pr (bidirHash pr hash) t a = some (t', u)) :
    t'.Checked hash ∧ t'.test.totalPackets = t.test.totalPackets := by
  have hlen' : ∀ p, afXdpReserved ≤ (t.worker p).sys.area.bufLen := fun p => by
    rw [(hcarried.sound p).conserved.areaEq]
    exact Nat.le_of_lt hlen
  cases a with
  | initialFill q granted =>
    obtain ⟨-, s, out, hs, -, rfl⟩ := step_initialFill_inv h
    obtain ⟨rfl, -⟩ := Afxdp.step_fill_inv hs
    exact ⟨ht.set_worker ((ht.port q).same ⟨rfl, rfl, rfl⟩) nofun, rfl⟩
  | done q now =>
    obtain ⟨-, rfl⟩ := step_done_inv h
    exact ⟨ht.done q now, (isDone_eq t.test now).2.1⟩
  | service q grant =>
    obtain ⟨-, rfl | ⟨-, s, out, cqDeficit, hs, -, rfl⟩⟩ := step_service_inv h
    · exact ⟨ht.set_worker (ht.port q) nofun, rfl⟩
    · obtain ⟨rfl, -⟩ := Afxdp.step_service_inv (hlen' q) hs
      exact ⟨ht.set_worker ((ht.port q).same ⟨rfl, rfl, rfl⟩) nofun, rfl⟩
  | tryRecv q grant =>
    obtain ⟨-, s, out, hs, rfl⟩ := step_tryRecv_inv h
    obtain ⟨hhanded, ys, hpushed, hpending⟩ := tryRecv_packets (hlen' q) hs
    have hq := ht.port q
    refine ⟨ht.set_worker ⟨?_, hq.seq, hq.le, hq.received.tryRecv hpushed hpending⟩ nofun, rfl⟩
    rw [hhanded]
    exact hq.sent
  | receive q =>
    obtain ⟨-, n, test, s, hs, rfl⟩ := step_receive_inv h
    have hq := ht.port q
    obtain ⟨m, seq, s', hreceive, hreceived, hhist, hhanded⟩ :=
      hq.received.receive (ht.port q.other).sent (hcarried.pushed q)
    obtain heq := hreceive.symm.trans hs
    cases heq
    refine ⟨ht.set ⟨?_, hq.seq, hq.le, ?_⟩ (Nat.le_refl _) nofun, rfl⟩
    · rw [hhanded]
      exact ⟨hq.sent.seq, hq.sent.packet, hq.sent.fresh⟩
    · exact ⟨hreceived.le, hreceived.pending, hreceived.last, hreceived.badHash,
        hreceived.outOfOrder, hreceived.duplicated⟩
  | transmit q r =>
    obtain ⟨-, n, test, s, hs, rfl⟩ := step_transmit_inv h
    have hq := ht.port q
    rcases transmit_inv hs with ⟨rfl, rfl⟩ | ⟨port, hle, hsend, rfl⟩
    · exact ⟨ht.set_worker hq nofun, rfl⟩
    · have hseq := hq.seq
      obtain ⟨hsent, hseq', ⟨seq, hashes, rfl⟩, -, hhist, hpending⟩ :=
        hq.sent.sendPackets hlen (hcarried.sound q) (by omega) hsend
      have hr := hq.received
      refine ⟨ht.set ⟨⟨hsent.seq, hsent.packet, hsent.fresh⟩, ?_, hle, ⟨?_, ?_, ?_, hr.badHash,
        hr.outOfOrder, hr.duplicated⟩⟩ (Nat.le_add_right _ _) nofun, rfl⟩
      · simp only at hseq' ⊢
        omega
      · rw [hhist]
        exact hr.le
      · rw [hhist, hpending]
        exact hr.pending
      · rw [hhist]
        exact hr.last
  | trySend q granted send =>
    obtain ⟨-, s, out, hs, rfl⟩ := step_trySend_inv h
    exact ⟨ht.set_worker ((ht.port q).same (samePackets_trySend hs)) nofun, rfl⟩
  | fill q granted =>
    obtain ⟨-, rfl | ⟨-, s, out, hs, -, rfl⟩⟩ := step_fill_inv h
    · exact ⟨ht.set_worker (ht.port q) nofun, rfl⟩
    · obtain ⟨rfl, -⟩ := Afxdp.step_fill_inv hs
      exact ⟨ht.set_worker ((ht.port q).same ⟨rfl, rfl, rfl⟩) nofun, rfl⟩
  | kernel q k =>
    obtain ⟨-, s, out, hs, rfl⟩ := step_kernel_inv h
    refine ⟨ht.set_worker ((ht.port q).same ?_) fun hpc => ⟨hpc, rfl⟩, rfl⟩
    exact samePackets_kernel (hcarried.sound q) hs
  | deliver q c j o len options =>
    obtain ⟨-, s, out, bytes, hs, -, -, rfl⟩ := step_deliver_inv h
    refine ⟨ht.set_worker ((ht.port q).same ?_) fun hpc => ⟨hpc, rfl⟩, rfl⟩
    exact samePackets_kernel (hcarried.sound q) hs

end

/-! ## Panics -/

section
variable {τ ρ : Type}

/-- The call is the one that the worker makes next. -/
def State.Due (t : State τ) : Act ρ → Prop
  | .initialFill p _ => (t.worker p).pc = .initialFill
  | .done p _ => (t.worker p).pc = .done
  | .service p _ => (t.worker p).pc = .service
  | .tryRecv p _ => (t.worker p).pc = .tryRecv
  | .receive p => (t.worker p).pc = .receive
  | .transmit p _ => (t.worker p).pc = .transmit
  | .trySend p _ _ => (t.worker p).pc = .trySend
  | .fill p _ => (t.worker p).pc = .fill
  | .kernel .. | .deliver .. => False

/-- The call of the crate that a worker makes next, unless it makes none. -/
def State.call (t : State τ) : Act ρ → Option (Pos × Afxdp.Act Unit Unit Dir Unit)
  | .initialFill p granted =>
    if (t.worker p).pc = .initialFill then some (p, .fill () () ringSize granted) else none
  | .service p grant =>
    if (t.worker p).pc = .service ∧ (t.worker p).stats.cqDeficit ≥ serviceThreshold then
      some (p, .service () () serviceBatchSize grant)
    else none
  | .tryRecv p grant =>
    if (t.worker p).pc = .tryRecv then some (p, .tryRecv () .receive socketBatchSize () grant)
    else none
  | .trySend p granted send =>
    if (t.worker p).pc = .trySend then some (p, .trySend () .send socketBatchSize granted send)
    else none
  | .fill p granted =>
    if (t.worker p).pc = .fill ∧ (t.worker p).stats.fqDeficit ≥ fillThreshold then
      some (p, .fill () () (min fillBatchSize (t.worker p).stats.fqDeficit) granted)
    else none
  | _ => none

/-- The ring index of the call overflows. -/
def State.Overflows (pr : Profile) (t : State τ) (a : Act ρ) : Prop :=
  ∃ p c, t.call a = some (p, c) ∧ c.Overflows pr (t.worker p).sys

/-- What a call of a worker panics on in either build. -/
def State.PanicsOn (t : State τ) : Act ρ → Prop
  | .initialFill p granted => ((t.worker p).sys.vecs ()).len < ringSize ∨ granted = false
  | .trySend p _ send => ((t.worker p).sys.deques .send).list ≠ [] ∧
      ((t.worker p).sys.link ()).wake = true ∧ ¬send.Accepted
  | _ => False

/-- Before the initial fill nothing is in the fill ring. -/
theorem Worker.Books.fq_used {w : Worker} (h : w.Books) (hpc : w.pc = .initialFill) :
    (w.sys.link ()).fq.used = 0 := by
  have hfill := h.count .fill
  have hrecv := h.count .recv
  have hdeficit := h.fqDeficit
  have hbal := h.balanced.rx
  have hrx := (w.sys.link ()).rx.cons_le
  simp only [Link.count, initial, hpc, if_true, Stats.count] at hfill hrecv
  simp only [Spsc.RingBuf.used]
  omega

section
variable {pr : Profile} {T : TrafficTest τ ρ} {t : State τ} {a : Act ρ}

/-- Without an overflow the worker of a debug build does what the one of a release build does. -/
theorem step_of_not_overflows (hlen : ∀ p, afXdpReserved ≤ (t.worker p).sys.area.bufLen)
    (hbooks : ∀ p, (t.worker p).Books) (hinc : ¬t.Overflows pr a) :
    step pr T t a = step .release T t a := by
  have hstep : ∀ p c, t.call a = some (p, c) →
      stepIn pr (t.worker p).sys c = Afxdp.step (t.worker p).sys c :=
    fun p c hc => stepIn_of_not_overflows (hlen p) fun hover => hinc ⟨p, c, hc, hover⟩
  cases a with
  | initialFill p granted =>
    simp only [step]
    split
    · next hpc => rw [hstep _ _ (by rw [State.call, if_pos hpc]), stepIn_release]
    · rfl
  | service p grant =>
    simp only [step]
    split
    · next hpc =>
        split
        · next hdue =>
            obtain ⟨tr, hservice⟩ :=
              step_service (t.worker p).sys () () serviceBatchSize grant (hlen p)
            have hret := (hbooks p).service_le (hlen p) hservice
            rw [hstep _ _ (by rw [State.call, if_pos ⟨hpc, hdue⟩]), stepIn_release, hservice,
              Option.bind_some, Option.bind_some, pr.sub64_ok hret,
              Profile.release.sub64_ok hret]
        · rfl
    · rfl
  | tryRecv p grant =>
    simp only [step]
    split
    · next hpc => rw [hstep _ _ (by rw [State.call, if_pos hpc]), stepIn_release]
    · rfl
  | trySend p granted send =>
    simp only [step]
    split
    · next hpc => rw [hstep _ _ (by rw [State.call, if_pos hpc]), stepIn_release]
    · rfl
  | fill p granted =>
    simp only [step]
    split
    · next hpc =>
        split
        · next hdue =>
            have hle := (grantCount_le ((t.worker p).sys.link ()).fq granted
              (min ((t.worker p).sys.vecs ()).len
                (min fillBatchSize (t.worker p).stats.fqDeficit))).1
            have hret := Nat.le_trans hle
              (Nat.le_trans (Nat.min_le_right _ _) (Nat.min_le_right _ _))
            obtain ⟨tr, hfill⟩ := step_fill (t.worker p).sys () ()
              (min fillBatchSize (t.worker p).stats.fqDeficit) granted
            rw [hstep _ _ (by rw [State.call, if_pos ⟨hpc, hdue⟩]), stepIn_release, hfill,
              Option.bind_some, Option.bind_some, pr.sub64_ok hret,
              Profile.release.sub64_ok hret]
        · rfl
    · rfl
  | kernel p k => cases k <;> rfl
  | _ => rfl

/-- The worker of a debug build panics where its ring index overflows. -/
theorem step_of_overflows (hlen : ∀ p, afXdpReserved ≤ (t.worker p).sys.area.bufLen)
    (hover : t.Overflows pr a) : step pr T t a = none := by
  obtain ⟨p, c, hc, hover⟩ := hover
  have hnone := stepIn_of_overflows (hlen p) hover
  cases a with
  | initialFill q granted =>
    simp only [State.call, Option.ite_none_right_eq_some, Option.some.injEq, Prod.mk.injEq] at hc
    obtain ⟨hpc, rfl, rfl⟩ := hc
    simp only [step, if_pos hpc, hnone, Option.bind_none]
  | service q grant =>
    simp only [State.call, Option.ite_none_right_eq_some, Option.some.injEq, Prod.mk.injEq] at hc
    obtain ⟨⟨hpc, hdue⟩, rfl, rfl⟩ := hc
    simp only [step, if_pos hpc, if_pos hdue, hnone, Option.bind_none]
  | tryRecv q grant =>
    simp only [State.call, Option.ite_none_right_eq_some, Option.some.injEq, Prod.mk.injEq] at hc
    obtain ⟨hpc, rfl, rfl⟩ := hc
    simp only [step, if_pos hpc, hnone, Option.map_none]
  | trySend q granted send =>
    simp only [State.call, Option.ite_none_right_eq_some, Option.some.injEq, Prod.mk.injEq] at hc
    obtain ⟨hpc, rfl, rfl⟩ := hc
    simp only [step, if_pos hpc, hnone, Option.map_none]
  | fill q granted =>
    simp only [State.call, Option.ite_none_right_eq_some, Option.some.injEq, Prod.mk.injEq] at hc
    obtain ⟨⟨hpc, hdue⟩, rfl, rfl⟩ := hc
    simp only [step, if_pos hpc, if_pos hdue, hnone, Option.bind_none]
  | _ => cases hc

end

/-- Where the calls of the test return, a call that is due panics on what is listed and on nothing
else, in a release build. -/
theorem release_panics_iff {T : TrafficTest τ ρ} {t : State τ} {area : MmapArea}
    (hf : ∀ p, (t.worker p).sys.Framed area 0) (hlen : afXdpReserved ≤ area.bufLen)
    (hfit : area.bufLen < 2 ^ 16 + afXdpReserved)
    (hbooks : ∀ p, ringSize ≤ ((t.worker p).sys.link ()).fq.size ∧ (t.worker p).Books)
    (htransmit : ∀ p now r, (T.transmit t.test now p r (t.worker p).sys).isSome)
    (hreceive : ∀ p now, (T.receive t.test now p (t.worker p).sys).isSome)
    {a : Act ρ} (hdue : t.Due a) : step .release T t a = none ↔ t.PanicsOn a := by
  have hlen' : ∀ p, afXdpReserved ≤ (t.worker p).sys.area.bufLen := fun p => by
    rwa [(hf p).areaEq]
  cases a with
  | initialFill p granted =>
    have hpc : (t.worker p).pc = .initialFill := hdue
    obtain ⟨tr, hfill⟩ := step_fill (t.worker p).sys () () ringSize granted
    have hused := (hbooks p).2.fq_used hpc
    have hroom := ((t.worker p).sys.link ()).fq.used_add_free
    have hsize := (hbooks p).1
    simp only [step, hpc, if_true, stepIn_release, hfill, Option.bind_some, ite_eq_right_iff,
      reduceCtorEq, imp_false, State.PanicsOn]
    cases granted with
    | false => simp [grantCount, ringSize]
    | true =>
      rw [grantCount_true, if_pos (by omega)]
      simp only [reduceCtorEq, or_false]
      omega
  | done p now =>
    have hpc : (t.worker p).pc = .done := hdue
    refine iff_of_false ?_ id
    simp only [step, hpc, if_true, reduceCtorEq, not_false_eq_true]
  | service p grant =>
    have hpc : (t.worker p).pc = .service := hdue
    obtain ⟨tr, hservice⟩ := step_service (t.worker p).sys () () serviceBatchSize grant (hlen' p)
    have hle := (hbooks p).2.service_le (hlen' p) hservice
    refine iff_of_false ?_ id
    simp only [step, hpc, if_true, stepIn_release, hservice, Option.bind_some,
      Profile.release.sub64_ok hle]
    split <;> simp
  | tryRecv p grant =>
    have hpc : (t.worker p).pc = .tryRecv := hdue
    -- a packet leaves room for the reserved bytes
    have hdesc : ∀ e ∈ ((t.worker p).sys.link ()).rx.entries.take
        (recvCount (t.worker p).sys () .receive socketBatchSize grant), e.len < 2 ^ 16 := by
      intro e he
      have hfits := (((hf p).link ()).rx e (List.mem_of_mem_take he)).fits
      omega
    obtain ⟨tr, hrecv⟩ :=
      step_tryRecv (t.worker p).sys () .receive socketBatchSize () grant (hlen' p) hdesc
    refine iff_of_false ?_ id
    simp only [step, hpc, if_true, stepIn_release, hrecv, Option.map_some, reduceCtorEq,
      not_false_eq_true]
  | receive p =>
    have hpc : (t.worker p).pc = .receive := hdue
    obtain ⟨r, hr⟩ := Option.isSome_iff_exists.1 (hreceive p (t.worker p).now)
    refine iff_of_false ?_ id
    simp only [step, hpc, if_true, hr, Option.map_some, reduceCtorEq, not_false_eq_true]
  | transmit p random =>
    have hpc : (t.worker p).pc = .transmit := hdue
    obtain ⟨r, hr⟩ := Option.isSome_iff_exists.1 (htransmit p (t.worker p).now random)
    refine iff_of_false ?_ id
    simp only [step, hpc, if_true, hr, Option.map_some, reduceCtorEq, not_false_eq_true]
  | trySend p granted send =>
    have hpc : (t.worker p).pc = .trySend := hdue
    have hmin : min ((t.worker p).sys.deques .send).len socketBatchSize ≠ 0 ↔
        ((t.worker p).sys.deques .send).list ≠ [] := by
      rw [← List.length_pos_iff]
      simp only [ArrayDeque.len, socketBatchSize]
      omega
    by_cases hbad : t.PanicsOn (.trySend p granted send : Act ρ)
    · refine iff_of_true ?_ hbad
      obtain ⟨hne, hwake, hsend⟩ := hbad
      have hstep := step_trySend_none (t.worker p).sys () .send socketBatchSize granted send
        (hmin.2 hne) hwake hsend
      simp only [step, hpc, if_true, stepIn_release, hstep, Option.map_none]
    · refine iff_of_false ?_ hbad
      obtain ⟨tr, hstep, -⟩ := step_trySend (t.worker p).sys () .send socketBatchSize granted send
        fun hne hwake => not_not.1 fun h => hbad ⟨hmin.1 hne, hwake, h⟩
      simp only [step, hpc, if_true, stepIn_release, hstep, Option.map_some, reduceCtorEq,
        not_false_eq_true]
  | fill p granted =>
    have hpc : (t.worker p).pc = .fill := hdue
    obtain ⟨tr, hfill⟩ := step_fill (t.worker p).sys () ()
      (min fillBatchSize (t.worker p).stats.fqDeficit) granted
    have hle := (grantCount_le ((t.worker p).sys.link ()).fq granted
      (min ((t.worker p).sys.vecs ()).len (min fillBatchSize (t.worker p).stats.fqDeficit))).1
    refine iff_of_false ?_ id
    simp only [step, hpc, if_true, stepIn_release, hfill, Option.bind_some]
    split
    · rw [Profile.release.sub64_ok (by omega)]
      simp
    · simp
  | kernel => exact hdue.elim
  | deliver => exact hdue.elim

/-- In a debug build it panics on an overflow as well. -/
theorem panics_iff {pr : Profile} {T : TrafficTest τ ρ} {t : State τ} {area : MmapArea}
    (hf : ∀ p, (t.worker p).sys.Framed area 0) (hlen : afXdpReserved ≤ area.bufLen)
    (hfit : area.bufLen < 2 ^ 16 + afXdpReserved)
    (hbooks : ∀ p, ringSize ≤ ((t.worker p).sys.link ()).fq.size ∧ (t.worker p).Books)
    (htransmit : ∀ p now r, (T.transmit t.test now p r (t.worker p).sys).isSome)
    (hreceive : ∀ p now, (T.receive t.test now p (t.worker p).sys).isSome)
    {a : Act ρ} (hdue : t.Due a) : step pr T t a = none ↔ t.PanicsOn a ∨ t.Overflows pr a := by
  have hlen' : ∀ p, afXdpReserved ≤ (t.worker p).sys.area.bufLen := fun p => by
    rwa [(hf p).areaEq]
  by_cases hover : t.Overflows pr a
  · simp only [step_of_overflows hlen' hover, hover, or_true]
  · rw [step_of_not_overflows hlen' (fun p => (hbooks p).2) hover,
      release_panics_iff hf hlen hfit hbooks htransmit hreceive hdue]
    simp only [hover, or_false]

end

/-! ## Runs -/

section
variable {pr prof : Profile} {hash : List UInt8 → UInt64} {mmap : Nat → Nat → Bool}
  {bufNum bufLen : Nat} {s₀ : Pos → PortSys} {test₀ : BiDirHash} {t : State BiDirHash}
  {as : List (Act (Nat → Random))} {outs : List Unit}

/-- A new test, with the times at which it was made. -/
def BiDirHash.New (test : BiDirHash) : Prop := ∃ now portNow maxDuration totalPackets burstGap
  burstSize, test = .new now portNow maxDuration totalPackets burstGap burstSize

/-- The invariants over a run. -/
theorem run_checked (hlen : afXdpReserved < bufLen) (hsize : bufNum * bufLen < 2 ^ 64)
    (hs : Started prof mmap bufNum bufLen s₀) (htest : test₀.New)
    (htotal : test₀.totalPackets + 1 < 2 ^ 64) (hlaw : ∀ a ∈ as, a.Lawful ⟨bufNum, bufLen⟩)
    (hrun : run (step pr (bidirHash pr hash)) (.start test₀ s₀) as = some (t, outs)) :
    (∃ S, t.Carried ⟨bufNum, bufLen⟩ S) ∧ t.Checked hash ∧
      t.test.totalPackets = test₀.totalPackets := by
  have hinv := run_invariant (I := fun t : State BiDirHash =>
    t.Carried ⟨bufNum, bufLen⟩ ((MmapArea.chunkVec (T := Unit) bufNum bufLen).chunkSet bufLen) ∧
      t.Checked hash ∧ t.test.totalPackets = test₀.totalPackets)
    (Q := Act.Lawful ⟨bufNum, bufLen⟩) ?_ ?_ hlaw hrun
  · exact ⟨⟨_, hinv.1⟩, hinv.2⟩
  · rintro t a t' u ha ⟨hcarried, hchecked, htot⟩ hstep
    obtain ⟨hchecked', htot'⟩ := hchecked.step hlen (by omega) hcarried hstep
    exact ⟨hcarried.step (bidirHash_lawful pr hash) hlen ha hstep, hchecked', htot'.trans htot⟩
  · refine ⟨State.Carried.start hlen hsize hs test₀, ⟨fun p => ?_, fun p => nofun⟩, rfl⟩
    obtain ⟨now, portNow, maxDuration, totalPackets, burstGap, burstSize, rfl⟩ := htest
    have hstart := hs.start hlen hsize p
    have hpackets : ∀ d, packets (s₀ p) d = [] := fun d => by
      rw [packets, hstart.deques, List.map_nil]
    have hhanded : handed (s₀ p) = [] := by
      rw [handed, hpackets, hstart.hist]
      rfl
    refine ⟨?_, rfl, Nat.zero_le _, Nat.zero_le _, ?_, .inl rfl, rfl, rfl, rfl⟩
    · show PortState.Sent hash (PortState.new (portNow p)) (handed (s₀ p))
      rw [hhanded]
      exact .new hash _
    · show ((s₀ p).hist ()).pushed.drop 0 = packets (s₀ p) .receive
      rw [hpackets, hstart.hist]
      rfl

/-- Take any run of the test, in either build, in which the veth delivers at offsets up to
`AF_XDP_RESERVED` packets whose lengths are `AF_XDP_RESERVED` less than those of the chunks at most,
and in which there are fewer packets to send than numbers. No packet has another hash than the one
that was sent with its number, none is out of order, and none is a duplicate. What a port received
are some of the packets that the other one transmitted, in this order and byte for byte. -/
theorem run_bidirHash (hlen : afXdpReserved < bufLen) (hsize : bufNum * bufLen < 2 ^ 64)
    (hs : Started prof mmap bufNum bufLen s₀) (htest : test₀.New)
    (htotal : test₀.totalPackets + 1 < 2 ^ 64) (hlaw : ∀ a ∈ as, a.Lawful ⟨bufNum, bufLen⟩)
    (hrun : run (step pr (bidirHash pr hash)) (.start test₀ s₀) as = some (t, outs)) (p : Pos) :
    let port := t.test.portState p
    let sent := handed (t.worker p.other).sys
    let received := ((t.worker p).sys.hist ()).pushed.take port.received
    port.badHash = 0 ∧ port.outOfOrder = 0 ∧ port.duplicated = 0 ∧
      sent.length = (t.test.portState p.other).transmitted ∧
      received.length = port.received ∧ received.Sublist sent := by
  obtain ⟨⟨S, hcarried⟩, hchecked, -⟩ := run_checked hlen hsize hs htest htotal hlaw hrun
  have hp := hchecked.port p
  have hother := hchecked.port p.other
  refine ⟨hp.received.badHash, hp.received.outOfOrder, hp.received.duplicated, ?_, ?_, ?_⟩
  · have hseq := hother.sent.seq
    have htrans := hother.seq
    omega
  · rw [List.length_take, Nat.min_eq_left hp.received.le]
  · exact (List.take_sublist _ _).trans (hcarried.pushed p)

end

/-- A hash. -/
def polyHash (bytes : List UInt8) : UInt64 := bytes.foldl (fun h b => 31 * h + b.toUInt64) 7

/-- A test with one packet in each direction. -/
def onePacket : BiDirHash := .new 0 (fun _ => 0) 10 1 0 1

/-- The data paths of its two ends. -/
def onePacketSys (e : Fin 32) (_ : Pos) : PortSys :=
  Sys.init ⟨513, 2048⟩ () (MmapArea.chunkVec 513 2048) e

/-- After the initial fills the first worker sends a packet of zeros, which the second one
receives. -/
def packetRun : List (Act (Nat → Random)) :=
  [.initialFill .first true, .initialFill .second true, .done .first 1, .service .first 1,
    .tryRecv .first 1, .receive .first, .transmit .first fun _ => ⟨0, fun _ => 0⟩,
    .trySend .first true .sent, .kernel .first .takeTx, .kernel .first (.readTx 0),
    .kernel .second .takeFill, .kernel .second (.write 511 256 2), .deliver .second 0 0 256 64 0,
    .done .second 0, .service .second 1, .tryRecv .second 1, .receive .second]

theorem packetRun_some : ∃ t outs, run (step .release (bidirHash .release polyHash))
    (.start onePacket (onePacketSys 9)) packetRun = some (t, outs) ∧
      (t.worker .second).pc = .transmit := by
  have hsome : (run (step .release (bidirHash .release polyHash))
      (.filled onePacket (onePacketSys 9)) (packetRun.drop 2)).any
        (fun r => (r.1.worker .second).pc = .transmit) = true := by
    decide +kernel
  obtain ⟨⟨t, outs⟩, h, hpc⟩ := (Option.any_eq_true _ _).1 hsome
  refine ⟨t, _, run_filled (fun p => ?_) (fun p => ?_) h, of_decide_eq_true hpc⟩
  · simp [onePacketSys, Sys.init, MmapArea.chunkVec, Vec.len, ringSize]
  · show ringSize ≤ 0 + 2 ^ 9 - 0
    decide

theorem onePacket_started : Started .release (fun _ _ => true) 513 2048 (onePacketSys 9) :=
  fun _ => ⟨_, _, _, MmapArea.new_ok (by decide) (by decide) rfl,
    startBufs_eq _ (by simp [MmapArea.chunkVec, Vec.len]), Sys.init_start _ _ _ _⟩

theorem onePacket_new : onePacket.New := ⟨_, _, _, _, _, _, rfl⟩

theorem packetRun_lawful : ∀ a ∈ packetRun, a.Lawful ⟨513, 2048⟩ := by
  simp [packetRun, Act.Lawful, afXdpReserved]

theorem run_bidirHash_packetRun :
    ∃ t outs, run (step .release (bidirHash .release polyHash)) (.start onePacket (onePacketSys 9))
        packetRun = some (t, outs) ∧
      let port := t.test.portState .second
      let sent := handed (t.worker .first).sys
      let received := ((t.worker .second).sys.hist ()).pushed.take port.received
      port.badHash = 0 ∧ port.outOfOrder = 0 ∧ port.duplicated = 0 ∧
        sent.length = (t.test.portState .first).transmitted ∧
        received.length = port.received ∧ received.Sublist sent := by
  obtain ⟨t, outs, hrun, -⟩ := packetRun_some
  exact ⟨t, outs, hrun, run_bidirHash (by decide) (by decide) onePacket_started onePacket_new
    (by decide) packetRun_lawful hrun .second⟩

section
variable {pr prof : Profile} {hash : List UInt8 → UInt64} {mmap : Nat → Nat → Bool}
  {bufNum bufLen : Nat} {s₀ : Pos → PortSys} {test₀ : BiDirHash} {t : State BiDirHash}
  {as : List (Act (Nat → Random))} {outs : List Unit}

/-- Take any run of the test, in either build, in which the veth delivers at offsets up to
`AF_XDP_RESERVED` packets whose lengths are `AF_XDP_RESERVED` less than those of the chunks at most,
and in which there are fewer packets to send than numbers. Then `finalize` passes if and only if
both ports transmitted all their packets and received as many. Nothing was lost then: what came out
of an end is what was handed in at the other one. And a worker that leaves its loop in time leaves
it after all packets were transmitted. -/
theorem run_finalize (hlen : afXdpReserved < bufLen) (hsize : bufNum * bufLen < 2 ^ 64)
    (hs : Started prof mmap bufNum bufLen s₀) (htest : test₀.New)
    (htotal : test₀.totalPackets + 1 < 2 ^ 64) (hlaw : ∀ a ∈ as, a.Lawful ⟨bufNum, bufLen⟩)
    (hrun : run (step pr (bidirHash pr hash)) (.start test₀ s₀) as = some (t, outs)) :
    (t.test.finalize prof = .ok () ↔ ∀ p,
      (t.test.portState p).transmitted = t.test.totalPackets ∧
      (t.test.portState p).received = t.test.totalPackets) ∧
    (t.test.finalize prof = .ok () → ∀ p,
      ((t.worker p).sys.hist ()).pushed = handed (t.worker p.other).sys) ∧
    ∀ p, (t.worker p).pc = .exited → (t.worker p).now ≤ t.test.endTime →
      ∀ q, (t.test.portState q).transmitted = t.test.totalPackets := by
  obtain ⟨⟨S, hcarried⟩, hchecked, -⟩ := run_checked hlen hsize hs htest htotal hlaw hrun
  have hiff : t.test.finalize prof = .ok () ↔ ∀ p,
      (t.test.portState p).transmitted = t.test.totalPackets ∧
      (t.test.portState p).received = t.test.totalPackets := by
    rw [BiDirHash.finalize_eq]
    constructor
    · rintro ⟨htrans, hreceived, -⟩ p
      have hr := hreceived p.other
      rw [Pos.other_other, htrans] at hr
      exact ⟨htrans p, hr⟩
    · intro h
      refine ⟨fun p => (h p).1, fun p => ?_, fun p => ?_⟩
      · rw [(h p.other).2, (h p).1]
      · have hr := (hchecked.port p).received
        exact ⟨hr.badHash, hr.outOfOrder, hr.duplicated⟩
  refine ⟨hiff, fun hok p => ?_, fun p hpc hnow => ?_⟩
  · have hall := hiff.1 hok
    have hother := hchecked.port p.other
    have hsub := hcarried.pushed p
    have hle := (hchecked.port p).received.le
    have hseq := hother.sent.seq
    have htrans := hother.seq
    rw [(hall p).2] at hle
    rw [(hall p.other).1] at htrans
    exact hsub.eq_of_length_le (by omega)
  · exact (hchecked.exited p hpc).resolve_left (Nat.not_lt_of_le hnow)

end

theorem run_finalize_packetRun :
    ∃ t outs, run (step .release (bidirHash .release polyHash)) (.start onePacket (onePacketSys 9))
        packetRun = some (t, outs) ∧
      (t.test.finalize .release = .ok () ↔ ∀ p,
        (t.test.portState p).transmitted = t.test.totalPackets ∧
        (t.test.portState p).received = t.test.totalPackets) ∧
      (t.test.finalize .release = .ok () → ∀ p,
        ((t.worker p).sys.hist ()).pushed = handed (t.worker p.other).sys) ∧
      ∀ p, (t.worker p).pc = .exited → (t.worker p).now ≤ t.test.endTime →
        ∀ q, (t.test.portState q).transmitted = t.test.totalPackets := by
  obtain ⟨t, outs, hrun, -⟩ := packetRun_some
  exact ⟨t, outs, hrun, run_finalize (by decide) (by decide) onePacket_started onePacket_new
    (by decide) packetRun_lawful hrun⟩

section
variable {pr prof : Profile} {hash : List UInt8 → UInt64} {mmap : Nat → Nat → Bool}
  {bufNum bufLen : Nat} {s₀ : Pos → PortSys} {test₀ : BiDirHash} {t : State BiDirHash}
  {as : List (Act (Nat → Random))} {outs : List Unit}

/-- Where the buffers have room for the largest packet, and their size fits a `u16`, neither call of
the test panics: there is a buffer for every packet of a burst, it is large enough, its number is
new, no buffer is evicted, and every packet that arrives has a number. -/
theorem State.Checked.returns {area : MmapArea} {S : Finset Nat} (ht : t.Checked hash)
    (hcarried : t.Carried area S) (hbuf : 1500 + afXdpReserved ≤ area.bufLen)
    (hbig : area.bufLen < 2 ^ 16) (htotal : t.test.totalPackets + 1 < 2 ^ 64) (p : Pos)
    (now : Nat) (random : Nat → Random) :
    ((bidirHash pr hash).transmit t.test now p random (t.worker p).sys).isSome ∧
      ((bidirHash pr hash).receive t.test now p (t.worker p).sys).isSome := by
  have hp := ht.port p
  constructor
  · simp only [bidirHash, BiDirHash.transmit]
    split
    · next hcond =>
        split
        · rfl
        · next n hcount =>
            obtain ⟨hcount, hleft⟩ := packetCount_le hcount
            have hseq := hp.seq
            have hsend : ∃ port' s', sendPackets pr hash random n (t.test.portState p)
                (t.worker p).sys = some (port', s') :=
              (sendPackets_returns (hcarried.sound p) hp.sent (by omega) hbuf hbig (by omega)
                (by omega)).imp fun _ => Exists.imp fun _ => And.left
            obtain ⟨port', s', h⟩ := hsend
            rw [h]
            rfl
    · rfl
  · obtain ⟨n, seq, s', h, -⟩ :=
      hp.received.receive (ht.port p.other).sent (hcarried.pushed p)
    exact Option.isSome_iff_exists.2 ⟨_, h⟩

/-- Take any run of the test, in either build, over buffers with room for the largest packet whose
size fits a `u16`, with fill rings that have room for the initial fill, in which the veth delivers
at offsets up to `AF_XDP_RESERVED` packets whose lengths are `AF_XDP_RESERVED` less than those of
the chunks at most, and in which there are fewer packets to send than numbers. In every state that
it reaches the next call of a worker panics if and only if it is an initial fill that is refused or
finds too few buffers, or a `try_send` with something pending whose `sendto` is asked for and fails
with an error that is not accepted, or a call of a debug build whose ring index overflows. -/
theorem run_bidirHash_panics_iff (hbuf : 1500 + afXdpReserved ≤ bufLen) (hbig : bufLen < 2 ^ 16)
    (hsize : bufNum * bufLen < 2 ^ 64) (hs : Started prof mmap bufNum bufLen s₀)
    (hfq : ∀ p, ringSize ≤ ((s₀ p).link ()).fq.size) (htest : test₀.New)
    (htotal : test₀.totalPackets + 1 < 2 ^ 64) (hlaw : ∀ a ∈ as, a.Lawful ⟨bufNum, bufLen⟩)
    (hrun : run (step pr (bidirHash pr hash)) (.start test₀ s₀) as = some (t, outs))
    {a : Act (Nat → Random)} (hdue : t.Due a) :
    step pr (bidirHash pr hash) t a = none ↔ t.PanicsOn a ∨ t.Overflows pr a := by
  have hlen : afXdpReserved < bufLen := by omega
  obtain ⟨⟨S, hcarried⟩, hchecked, htot⟩ := run_checked hlen hsize hs htest htotal hlaw hrun
  refine panics_iff (fun p => (hcarried.sound p).framed) (Nat.le_of_lt hlen)
    (Nat.lt_of_lt_of_le hbig (Nat.le_add_right _ _)) (fun p => ?_) ?_ ?_ hdue
  · obtain ⟨-, hfqsize, hbooks⟩ := run_books (bidirHash_lawful pr hash) hlen hsize hs hrun p
    exact ⟨by rw [hfqsize]; exact hfq p, hbooks⟩
  · exact fun p now random => (hchecked.returns hcarried hbuf hbig (by omega) p now random).1
  · intro p now
    exact (hchecked.returns hcarried hbuf hbig (by omega) p now fun _ => ⟨0, fun _ => 0⟩).2

end

theorem run_bidirHash_panics_iff_packetRun :
    ∃ t outs, run (step .release (bidirHash .release polyHash)) (.start onePacket (onePacketSys 9))
        packetRun = some (t, outs) ∧
      (step .release (bidirHash .release polyHash) t (.transmit .second fun _ => ⟨0, fun _ => 0⟩) =
          none ↔
        t.PanicsOn (.transmit .second fun _ => ⟨0, fun _ => 0⟩ : Act (Nat → Random)) ∨
          t.Overflows .release
            (.transmit .second fun _ => ⟨0, fun _ => 0⟩ : Act (Nat → Random))) := by
  obtain ⟨t, outs, hrun, hpc⟩ := packetRun_some
  have hfq : ∀ p, ringSize ≤ ((onePacketSys 9 p).link ()).fq.size := fun p => by
    show ringSize ≤ 2 ^ 9
    decide
  exact ⟨t, outs, hrun, run_bidirHash_panics_iff (by decide) (by decide) (by decide)
    onePacket_started hfq onePacket_new (by decide) packetRun_lawful hrun hpc⟩

end Afxdp.Traffic
