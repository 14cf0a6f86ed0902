import Afxdp.Lib.Lossy
import Afxdp.Relay
import Afxdp.Traffic

/-!
# From end to end

What `try_recv` pushes on one end of the veth was popped by `try_send` on the other one: it is the
same bytes, in the same order, with nothing repeated. Packets may be missing. This holds for every
test whose calls do to the data path what an application can do, if the packets are delivered to
the places that `Act.Lawful` allows (`run_veth`). The veth itself does not know what was sent: it
delivers what the kernel read for a descriptor, at whatever moment. That this is what was sent, and
that what was published is what is pushed, are the channels of the two data paths (`Sys.Carries`),
and the way between them is one that loses (`Lossy.Delivers`).
-/

namespace Afxdp.Traffic

open Lossy (Delivers)
open Run (run run_invariant Leads)

/-! ## What a step adds to the history -/

section
variable {ι ν δ T : Type} [DecidableEq ι] [DecidableEq ν] [DecidableEq δ] [Inhabited T]
  {s s' : Sys ι ν δ T} {a : Afxdp.Act ι ν δ T} {out : Out}

/-- A step in which the kernel hands no packet back. -/
def NoPublish : Afxdp.Act ι ν δ T → Prop
  | .kernel _ (.publish ..) => False
  | _ => True

/-- What was sent stays sent, and without a `publish` nothing is published. -/
theorem step_hist (hlen : afXdpReserved ≤ s.area.bufLen) (h : Afxdp.step s a = some (s', out))
    (i : ι) : (s.hist i).sent <+: (s'.hist i).sent ∧
      (NoPublish a → (s'.hist i).published = (s.hist i).published) := by
  have hupdate : ∀ {j : ι} {h' : Hist}, (s.hist j).sent <+: h'.sent →
      (NoPublish a → h'.published = (s.hist j).published) →
      (s.hist i).sent <+: (Function.update s.hist j h' i).sent ∧
        (NoPublish a → (Function.update s.hist j h' i).published = (s.hist i).published) := by
    intro j h' hsent hpub
    rcases eq_or_ne i j with rfl | hij
    · rw [Function.update_self]
      exact ⟨hsent, hpub⟩
    · rw [Function.update_of_ne hij]
      exact ⟨List.prefix_rfl, fun _ => rfl⟩
  have hsame : s'.hist = s.hist → (s.hist i).sent <+: (s'.hist i).sent ∧
      (NoPublish a → (s'.hist i).published = (s.hist i).published) := by
    intro heq
    rw [heq]
    exact ⟨List.prefix_rfl, fun _ => rfl⟩
  cases a with
  | fill j v batchSize granted =>
    obtain ⟨rfl, -⟩ := Afxdp.step_fill_inv h
    exact hsame rfl
  | tryRecv j d batchSize user grant =>
    obtain ⟨rfl, -⟩ := Afxdp.step_tryRecv_inv hlen h
    exact hupdate List.prefix_rfl fun _ => rfl
  | trySend j d batchSize granted send =>
    obtain ⟨rfl, -⟩ := Afxdp.step_trySend_inv h
    exact hupdate (List.prefix_append _ _) fun _ => rfl
  | service j v batchSize grant =>
    obtain ⟨rfl, -⟩ := Afxdp.step_service_inv hlen h
    exact hsame rfl
  | kernel j k =>
    obtain ⟨mem, l, hi, hk, rfl⟩ := Afxdp.step_kernel_inv h
    refine hupdate (by rw [(kernelStep_hist hk).1]) fun hno => ?_
    cases k with
    | takeFill => obtain ⟨-, hr⟩ := kernelStep_takeFill hk; cases hr; rfl
    | write => obtain ⟨_, _, _, hr⟩ := kernelStep_write hk; cases hr; rfl
    | publish => exact hno.elim
    | takeTx => obtain ⟨-, hr⟩ := kernelStep_takeTx hk; cases hr; rfl
    | readTx => obtain ⟨_, _, _, hr⟩ := kernelStep_readTx hk; cases hr; rfl
    | complete => obtain ⟨_, _, _, _, hr⟩ := kernelStep_complete hk; cases hr; rfl
    | setWake => have hr := kernelStep_setWake hk; cases hr; rfl
  | _ => exact hsame (step_local (by trivial) h).2.2

end

/-! ## The invariant -/

section
variable {τ ρ : Type} {pr : Profile} {T : TrafficTest τ ρ} {area : MmapArea} {S : Finset Nat}
  {t t' : State τ}
  {a : Act ρ} {u : Unit}

/-- Both data paths are sound, and what was published on an end came through of what was sent on the
other one. -/
structure State.Carried (area : MmapArea) (S : Finset Nat) (t : State τ) : Prop where
  sound : ∀ p, (t.worker p).sys.Sound area S
  delivers : ∀ p, Delivers ((t.worker p.other).sys.hist ()).sent (t.next p)
    (((t.worker p).sys.hist ()).published.map some)

/-- A step in which the veth delivers to no place that the kernel must leave alone. -/
def Act.Lawful (area : MmapArea) : Act ρ → Prop
  | .deliver _ _ _ o len _ => o ≤ afXdpReserved ∧ len + afXdpReserved ≤ area.bufLen
  | _ => True

theorem lawful_of_ne_kernel {area : MmapArea} {a : Afxdp.Act Unit Unit Dir Unit}
    (h : ∀ i k, a ≠ .kernel i k) : a.Lawful area 0 := by
  cases a with
  | kernel i k => exact absurd rfl (h i k)
  | _ => trivial

/-- The data paths stay sound. -/
theorem sound_step (hT : T.Lawful) (hlen : afXdpReserved < area.bufLen) (ha : a.Lawful area)
    (ht : ∀ p, (t.worker p).sys.Sound area S) (h : step pr T t a = some (t', u)) (p : Pos) :
    (t'.worker p).sys.Sound area S := by
  refine (step_over hT (fun _ => lawful_of_ne_kernel) p).step_invariant
    (fun _ _ _ _ hb hi hs => hi.step hlen hb hs) ?_ (ht p) h
  cases a with
  | kernel q k =>
    intro _
    obtain ⟨hk, -⟩ := step_kernel_inv h
    cases k with
    | publish j o len options => exact absurd rfl (hk j o len options)
    | _ => trivial
  | deliver q c j o len options => exact fun _ => ⟨Nat.zero_le _, ha⟩
  | _ => trivial

/-- A step other than a delivery publishes nothing. -/
theorem step_hist_of_ne_deliver (hT : T.Lawful) (hlen : afXdpReserved ≤ area.bufLen)
    (hne : ∀ p c j o len options, a ≠ .deliver p c j o len options)
    (h : step pr T t a = some (t', u)) (p : Pos) (harea : (t.worker p).sys.area = area) :
    ((t.worker p).sys.hist ()).sent <+: ((t'.worker p).sys.hist ()).sent ∧
      ((t'.worker p).sys.hist ()).published = ((t.worker p).sys.hist ()).published := by
  have hinv := (step_over hT (Q := NoPublish) (fun b hb => ?_) p).step_invariant
    (I := fun s : PortSys => s.area = area ∧
      ((t.worker p).sys.hist ()).sent <+: (s.hist ()).sent ∧
      (s.hist ()).published = ((t.worker p).sys.hist ()).published) ?_ ?_
    ⟨harea, List.prefix_rfl, rfl⟩ h
  · exact hinv.2
  · cases b with
    | kernel i k => exact absurd rfl (hb i k)
    | _ => trivial
  · rintro s b s' out hb ⟨hs, hsent, hpub⟩ hstep
    have hlen' : afXdpReserved ≤ s.area.bufLen := by rwa [hs]
    obtain ⟨hsent', hpub'⟩ := step_hist hlen' hstep ()
    exact ⟨(step_area hlen' hstep).trans hs, hsent.trans hsent', (hpub' hb).trans hpub⟩
  · cases a with
    | kernel q k =>
      intro _
      obtain ⟨hk, -⟩ := step_kernel_inv h
      cases k with
      | publish j o len options => exact absurd rfl (hk j o len options)
      | _ => trivial
    | deliver q c j o len options => exact absurd rfl (hne q c j o len options)
    | _ => trivial

/-- Nor does it deliver anything. -/
theorem step_next_of_ne_deliver (hne : ∀ p c j o len options, a ≠ .deliver p c j o len options)
    (h : step pr T t a = some (t', u)) : t'.next = t.next := by
  cases a with
  | initialFill q granted =>
    obtain ⟨-, _, _, -, -, rfl⟩ := step_initialFill_inv h
    rfl
  | done q now =>
    obtain ⟨-, rfl⟩ := step_done_inv h
    rfl
  | service q grant =>
    obtain ⟨-, rfl | ⟨-, _, _, _, -, -, rfl⟩⟩ := step_service_inv h <;> rfl
  | tryRecv q grant =>
    obtain ⟨-, _, _, -, rfl⟩ := step_tryRecv_inv h
    rfl
  | receive q =>
    obtain ⟨-, _, _, _, -, rfl⟩ := step_receive_inv h
    rfl
  | transmit q r =>
    obtain ⟨-, _, _, _, -, rfl⟩ := step_transmit_inv h
    rfl
  | trySend q granted send =>
    obtain ⟨-, _, _, -, rfl⟩ := step_trySend_inv h
    rfl
  | fill q granted =>
    obtain ⟨-, rfl | ⟨-, _, _, -, -, rfl⟩⟩ := step_fill_inv h <;> rfl
  | kernel q k =>
    obtain ⟨-, _, _, -, rfl⟩ := step_kernel_inv h
    rfl
  | deliver q c j o len options => exact absurd rfl (hne q c j o len options)

/-- Every step keeps the invariant. -/
theorem State.Carried.step (hT : T.Lawful) (hlen : afXdpReserved < area.bufLen)
    (ha : a.Lawful area) (ht : t.Carried area S) (h : Traffic.step pr T t a = some (t', u)) :
    t'.Carried area S := by
  refine ⟨sound_step hT hlen ha ht.sound h, ?_⟩
  have harea : ∀ p, (t.worker p).sys.area = area := fun p => (ht.sound p).conserved.areaEq
  by_cases hd : ∃ p c j o len options, a = .deliver p c j o len options
  · obtain ⟨q, c, j, o, len, options, rfl⟩ := hd
    obtain ⟨hnext, s, out, bytes, hs, hlast, hread, rfl⟩ := step_deliver_inv h
    obtain ⟨mem, l, hi, hk, rfl⟩ := Afxdp.step_kernel_inv hs
    obtain ⟨a, -, -, -, -, hr⟩ := kernelStep_publish hk
    cases hr
    have hq : q.other ≠ q := q.other_ne
    intro p
    rcases eq_or_ne p q with rfl | hp
    · rw [State.set_self, State.set_of_ne _ hq]
      simp only [State.set_next, Function.update_self, List.getLast?_concat,
        Option.some.injEq] at hlast ⊢
      rw [List.map_append, List.map_singleton, hlast]
      exact (ht.delivers p).deliver hnext (((ht.sound p.other).carries ()).read _ hread)
    · have hother : p.other = q := by
        cases p <;> cases q <;> first | rfl | exact absurd rfl hp
      rw [State.set_of_ne _ hp, hother, State.set_self]
      simp only [State.set_next, Function.update_self, Function.update_of_ne hp]
      rw [← hother]
      exact ht.delivers p
  · have hne : ∀ p c j o len options, a ≠ .deliver p c j o len options := by
      intro p c j o len options heq
      exact hd ⟨p, c, j, o, len, options, heq⟩
    intro p
    have hhist := fun q => step_hist_of_ne_deliver hT (Nat.le_of_lt hlen) hne h q (harea q)
    rw [step_next_of_ne_deliver hne h, (hhist p).2]
    exact (ht.delivers p).send (hhist p.other).1

/-- Nothing is under way before the initial fill. -/
theorem State.Carried.start {prof : Profile} {mmap : Nat → Nat → Bool} {bufNum bufLen : Nat}
    {s₀ : Pos → PortSys} (hlen : afXdpReserved < bufLen) (hsize : bufNum * bufLen < 2 ^ 64)
    (hs : Started prof mmap bufNum bufLen s₀) (test : τ) :
    (State.start test s₀).Carried ⟨bufNum, bufLen⟩
      ((MmapArea.chunkVec (T := Unit) bufNum bufLen).chunkSet bufLen) := by
  refine ⟨fun p => Sys.Sound.start hlen (hs.start hlen hsize p), fun p => ?_⟩
  rw [State.start, (hs.start hlen hsize p).hist]
  exact .start _ _

/-- Take any run of a test, in either build, whose calls do to the data path what an application can
do, in which the veth delivers at offsets up to `AF_XDP_RESERVED` packets whose lengths are
`AF_XDP_RESERVED` less than those of the chunks at most. What `try_recv` pushed on an end is some of
what `try_send` popped on the other one, in this order and byte for byte. So is what is on its way
to `try_recv` behind it. -/
theorem run_veth {prof : Profile} {mmap : Nat → Nat → Bool} {bufNum bufLen : Nat} {test₀ : τ}
    {s₀ : Pos → PortSys} {as : List (Act ρ)} {outs : List Unit} (hT : T.Lawful)
    (hlen : afXdpReserved < bufLen) (hsize : bufNum * bufLen < 2 ^ 64)
    (hs : Started prof mmap bufNum bufLen s₀) (hlaw : ∀ a ∈ as, a.Lawful ⟨bufNum, bufLen⟩)
    (hrun : run (step pr T) (.start test₀ s₀) as = some (t, outs)) (p : Pos) :
    (((t.worker p).sys.hist ()).pushed ++ ((t.worker p).sys.link ()).rx.entries.map fun e =>
      some (Mem.readAt (t.worker p).sys.mem e.addr e.len)).Sublist
        ((t.worker p.other).sys.hist ()).sent := by
  have ht := run_invariant (I := State.Carried ⟨bufNum, bufLen⟩ _) (Q := Act.Lawful _)
    (fun _ _ _ _ ha hi hstep => hi.step hT hlen ha hstep) (State.Carried.start hlen hsize hs test₀)
    hlaw hrun
  rw [← ((ht.sound p).carries ()).recv]
  exact (ht.delivers p).sublist

end

theorem run_veth_moveOneRun :
    ∃ t outs, run (step .release moveOne) (.start () (moveOneSys 9)) moveOneRun = some (t, outs) ∧
      (((t.worker .second).sys.hist ()).pushed ++
        ((t.worker .second).sys.link ()).rx.entries.map fun e =>
          some (Mem.readAt (t.worker .second).sys.mem e.addr e.len)).Sublist
            ((t.worker .first).sys.hist ()).sent := by
  obtain ⟨t, outs, hrun⟩ := moveOneRun_some
  refine ⟨t, outs, hrun, run_veth moveOne_lawful (by decide) (by decide) moveOne_started ?_ hrun
    .second⟩
  simp [moveOneRun, Act.Lawful, afXdpReserved]

end Afxdp.Traffic
