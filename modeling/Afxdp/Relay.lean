import Afxdp.Channels
import Afxdp.SwapOnce
import Afxdp.TwoLink

/-!
# The forwarders relay

A forwarder over two links sends what it received on a link out of the other one, in the order it
was received and as it was received: what `try_recv` pushed for a link is what `try_send` popped
for the other one, followed by what is pending (`Forwarder.Relays`). Together with the channels of
the data path, which are right for packets at the places that `Act.Lawful` allows, this relates the
two ends. The kernel reads for the `c`-th Tx descriptor of a link the bytes it published as the
`c`-th packet of the worker's other link, and a packet that was published and not sent yet is
pending or in the Rx ring (`run_relay`).
-/

namespace Afxdp

open Run (run run_invariant Leads)
open Mem (readAt)

section
variable {ι ν δ T : Type}

/-- A kernel step changes neither what was sent nor what was received. -/
theorem kernelStep_hist {bufLen : Nat} {mem mem' : Nat → UInt8} {l l' : Link} {h h' : Hist}
    {k : KAct} (hk : kernelStep bufLen mem l h k = some (mem', l', h')) :
    h'.sent = h.sent ∧ h'.pushed = h.pushed := by
  cases k with
  | takeFill => obtain ⟨-, hr⟩ := kernelStep_takeFill hk; cases hr; exact ⟨rfl, rfl⟩
  | write => obtain ⟨_, _, _, hr⟩ := kernelStep_write hk; cases hr; exact ⟨rfl, rfl⟩
  | publish => obtain ⟨_, _, _, _, _, hr⟩ := kernelStep_publish hk; cases hr; exact ⟨rfl, rfl⟩
  | takeTx => obtain ⟨-, hr⟩ := kernelStep_takeTx hk; cases hr; exact ⟨rfl, rfl⟩
  | readTx => obtain ⟨_, _, _, hr⟩ := kernelStep_readTx hk; cases hr; exact ⟨rfl, rfl⟩
  | complete => obtain ⟨_, _, _, _, hr⟩ := kernelStep_complete hk; cases hr; exact ⟨rfl, rfl⟩
  | setWake => have hr := kernelStep_setWake hk; cases hr; exact ⟨rfl, rfl⟩

variable [DecidableEq ι] [DecidableEq ν] [DecidableEq δ] [Inhabited T] {s s' : Sys ι ν δ T}
  {area : MmapArea} {lo : Nat} {S : Finset Nat} {out : Out}

/-- The kernel writes to no buffer that the application holds. -/
theorem step_kernel_packet {i : ι} {k : KAct} (hf : s.Framed area lo) (hc : Conserved area S s)
    (h : step s (.kernel i k) = some (s', out)) {c : Coll ν δ} {b : BufMmap T} (hb : b ∈ s.coll c) :
    b.packet s'.mem = b.packet s.mem := by
  obtain ⟨mem, l, hi, hk, rfl⟩ := step_kernel_inv h
  have hframed := hf.held c b hb
  rw [hframed.packet_eq, hframed.packet_eq]
  refine congrArg some ?_
  rcases kernelStep_mem hk with rfl | ⟨a, x, byte, ha, hx, rfl⟩
  · rfl
  · refine hframed.1.readAt_update (fun heq => ?_) s.mem byte
    -- the chunk that is written to is with the kernel, the one of the buffer with the application
    have hmem : b.addr / s.area.bufLen ∈ s.chunks (.coll c) :=
      Multiset.mem_coe.2 (List.mem_map_of_mem (List.mem_map_of_mem hb))
    have hkernel : ∃ q, a / s.area.bufLen ∈ s.chunks (.link i q) := by
      rcases ha with ha | ha
      · exact ⟨.fill, Multiset.mem_coe.2 (List.mem_map_of_mem ha)⟩
      · exact ⟨.krx, Multiset.mem_coe.2 (List.mem_map_of_mem ha)⟩
    obtain ⟨q, hq⟩ := hkernel
    rw [← hc.areaEq, hx] at heq
    rw [heq] at hq
    cases hc.custody.excl _ _ _ hmem hq

end

/-! ## The data path under a program -/

section
variable {ι ν δ T : Type}

/-- The chunks are conserved, everything is framed, and every link carries its packets. -/
structure Sys.Sound (area : MmapArea) (S : Finset Nat) (s : Sys ι ν δ T) : Prop where
  conserved : Conserved area S s
  framed : s.Framed area 0
  carries : s.Carries

variable [DecidableEq ι] [DecidableEq ν] [DecidableEq δ] [Inhabited T] {s s' : Sys ι ν δ T}
  {area : MmapArea} {S : Finset Nat} {out : Out}

/-- Lawful steps keep that. -/
theorem Sys.Sound.step {a : Act ι ν δ T} (hlen : afXdpReserved < area.bufLen) (ha : a.Lawful area 0)
    (hs : s.Sound area S) (h : Afxdp.step s a = some (s', out)) : s'.Sound area S :=
  ⟨hs.conserved.step hlen h, hs.framed.step (Nat.le_of_lt hlen) ha h,
    hs.carries.step hlen hs.framed hs.conserved h⟩

omit [DecidableEq ι] [DecidableEq ν] [DecidableEq δ] in
/-- The buffers of a new area are a sound start. -/
theorem Sys.Sound.start {bufNum bufLen : Nat} {v₀ : ν} (hlen : afXdpReserved < bufLen)
    (h : s.Start ⟨bufNum, bufLen⟩ v₀ (MmapArea.chunkVec bufNum bufLen)) :
    s.Sound ⟨bufNum, bufLen⟩ ((MmapArea.chunkVec (T := T) bufNum bufLen).chunkSet bufLen) := by
  refine ⟨Conserved.start hlen (List.Subperm.refl _) h,
    Sys.Framed.start hlen (Nat.zero_le _) (List.Subperm.refl _) h, ?_⟩
  intro i
  rw [h.hist i]
  exact (h.link i).carries s.mem

end

/-! ## The invariant -/

section
variable {W ν T : Type}

/-- What was received on a link was sent on the other one or is pending. -/
def Sys.Relays (s : Sys (W × Pos) ν (W × Pos) T) : Prop := ∀ w pos, (s.hist (w, pos)).pushed =
  (s.hist (w, pos.other)).sent ++ (s.deques (w, pos)).list.map (BufMmap.packet · s.mem)

variable [DecidableEq W] [DecidableEq ν] {s s' : Sys (W × Pos) ν (W × Pos) T} {w : W} {pos : Pos}
  {n : Nat}

omit [DecidableEq ν] in
/-- `try_recv` appends what it received to the pending packets. -/
theorem Sys.Relays.afterRecv (hs : s.Relays) (user : T) (hused : n ≤ (s.link (w, pos)).rx.used)
    (hroom : (s.deques (w, pos)).len + n ≤ (s.deques (w, pos)).capacity) :
    (s.afterRecv (w, pos) (w, pos) user n).Relays := by
  have hblen : (s.recvBufs (w, pos) user n).length = n := by
    rw [recvBufs_length, Nat.min_eq_left hused]
  obtain ⟨hlist, -⟩ := (s.deques (w, pos)).pushAll_eq (s.recvBufs (w, pos) user n)
    (by rwa [hblen])
  intro v p
  have hsent : ((s.afterRecv (w, pos) (w, pos) user n).hist (v, p.other)).sent =
      (s.hist (v, p.other)).sent := by
    simp only [Sys.afterRecv, Function.update_apply]
    split
    · next heq => rw [heq]
    · rfl
  rw [hsent]
  rcases eq_or_ne (v, p) (w, pos) with heq | hne
  · cases heq
    simp only [Sys.afterRecv, Function.update_self]
    rw [hlist, List.map_append, ← List.append_assoc, ← hs w pos]
  · simp only [Sys.afterRecv, Function.update_of_ne hne]
    exact hs v p

omit [DecidableEq ν] in
/-- `try_send` takes the packets it sends from the front of the pending ones. -/
theorem Sys.Relays.afterSend (hs : s.Relays) :
    (s.afterSend (w, pos.other) (w, pos) n).Relays := by
  intro v p
  have hpushed : ((s.afterSend (w, pos.other) (w, pos) n).hist (v, p)).pushed =
      (s.hist (v, p)).pushed := by
    simp only [Sys.afterSend, Function.update_apply]
    split
    · next heq => rw [heq]
    · rfl
  rw [hpushed, hs v p]
  rcases eq_or_ne (v, p) (w, pos) with heq | hne
  · cases heq
    simp only [Sys.afterSend, Function.update_self, ArrayDeque.drop]
    rw [List.append_assoc, ← List.map_append, List.take_append_drop]
  · -- the other ends are different, too
    have hother : (v, p.other) ≠ (w, pos.other) := by
      intro heq
      obtain ⟨hv, hp⟩ := Prod.mk.inj heq
      refine hne (Prod.ext hv ?_)
      rw [← p.other_other, hp, pos.other_other]
    simp only [Sys.afterSend, Function.update_of_ne hne, Function.update_of_ne hother]

variable [Inhabited T] {area : MmapArea} {lo : Nat} {S : Finset Nat} {out : Out}

/-- The kernel changes none of it. -/
theorem Sys.Relays.kernel {k : KAct} (hs : s.Relays) (hf : s.Framed area lo)
    (hc : Conserved area S s) (h : Afxdp.step s (.kernel (w, pos) k) = some (s', out)) :
    s'.Relays := by
  have hpackets : ∀ d, ∀ b ∈ (s.deques d).list, b.packet s'.mem = b.packet s.mem :=
    fun d b hb => step_kernel_packet hf hc h (c := .deque d) hb
  obtain ⟨mem, l, hi, hk, rfl⟩ := step_kernel_inv h
  obtain ⟨hsent, hpushed⟩ := kernelStep_hist hk
  have hhist : ∀ i, (Function.update s.hist (w, pos) hi i).sent = (s.hist i).sent ∧
      (Function.update s.hist (w, pos) hi i).pushed = (s.hist i).pushed := by
    intro i
    rcases eq_or_ne i (w, pos) with rfl | hne
    · rw [Function.update_self]
      exact ⟨hsent, hpushed⟩
    · rw [Function.update_of_ne hne]
      exact ⟨rfl, rfl⟩
  intro v p
  show (Function.update s.hist (w, pos) hi (v, p)).pushed =
    (Function.update s.hist (w, pos) hi (v, p.other)).sent ++
      (s.deques (v, p)).list.map (BufMmap.packet · mem)
  rw [(hhist _).2, (hhist _).1, hs v p]
  exact congrArg _ (List.map_congr_left fun b hb => (hpackets _ b hb).symm)

end

section
variable {W : Type} [DecidableEq W] {pr : Profile} {opt : FwdOpt} {area : MmapArea} {lo : Nat}
  {S : Finset Nat} {f f' : Forwarder W}

/-- Every step of a forwarder keeps the relation between what was received and what was sent. -/
theorem fwdStep_relays {a : FwdAct W} {u : Unit} (hlen : afXdpReserved ≤ area.bufLen)
    (hc : Conserved area S f.sys) (hframed : f.sys.Framed area lo) (hf : f.sys.Relays)
    (h : fwdStep pr opt f a = some (f', u)) : f'.sys.Relays := by
  have hlen' : afXdpReserved ≤ f.sys.area.bufLen := by rwa [hc.areaEq]
  cases a with
  | getBufs w =>
    obtain ⟨-, num, n, -, -, rfl⟩ := fwdStep_getBufs_inv h
    exact hf
  | initialFill w granted =>
    obtain ⟨pos, s, out, -, hs, -, rfl⟩ := fwdStep_initialFill_inv h
    obtain ⟨rfl, -⟩ := step_fill_inv hs
    exact hf
  | command w cmd =>
    obtain ⟨-, rfl⟩ := fwdStep_command_inv h
    exact hf
  | service w grant =>
    obtain ⟨pos, s, out, -, hs, rfl⟩ := fwdStep_service_inv h
    obtain ⟨rfl, -⟩ := step_service_inv hlen' hs
    exact hf
  | tryRecv w grant =>
    obtain ⟨pos, s, out, -, hs, rfl⟩ := fwdStep_tryRecv_inv h
    obtain ⟨rfl, hret, -⟩ := step_tryRecv_inv hlen' hs
    obtain ⟨hused, hroom⟩ := recvCount_le f.sys (w, pos) (w, pos) socketBatchSize grant
    exact hf.afterRecv () (hret ▸ hused) (hret ▸ hroom)
  | forward w granted send =>
    obtain ⟨pos, -, rfl | ⟨s, out, hs, rfl⟩⟩ := fwdStep_forward_inv h
    · exact hf
    · obtain ⟨rfl, -⟩ := step_trySend_inv hs
      exact hf.afterSend
  | fill w granted =>
    obtain ⟨pos, -, ⟨-, rfl⟩ | ⟨-, s, out, hs, -, rfl⟩⟩ := fwdStep_fill_inv h
    · exact hf
    · obtain ⟨rfl, -⟩ := step_fill_inv hs
      exact hf
  | kernel w pos k =>
    obtain ⟨s, out, hs, rfl⟩ := fwdStep_kernel_inv h
    exact hf.kernel hframed hc hs

/-! ## Runs -/

omit [DecidableEq W] in
/-- The steps of a run in which the kernel leaves room for the reserved bytes are lawful. -/
theorem FwdAct.lawful_of_publish {bufNum bufLen : Nat} {as : List (FwdAct W)}
    (h : ∀ w pos j o len opts, .kernel w pos (.publish j o len opts) ∈ as →
      o ≤ afXdpReserved ∧ len + afXdpReserved ≤ bufLen) :
    ∀ a ∈ as, a.Allowed (Act.Lawful ⟨bufNum, bufLen⟩ 0) := by
  intro a ha
  unfold FwdAct.Allowed
  split
  · next w pos k =>
      cases k with
      | publish j o len opts => exact ⟨Nat.zero_le _, h w pos j o len opts ha⟩
      | _ => trivial
  · trivial

omit [DecidableEq W] in
theorem Act.lawful_of_ne_kernel {ι ν δ T : Type} {area : MmapArea} {a : Act ι ν δ T}
    (h : ∀ i k, a ≠ .kernel i k) : a.Lawful area 0 := by
  cases a with
  | kernel i k => exact absurd rfl (h i k)
  | _ => trivial

/-- Take any run of the workers of a forwarder, in either build, over an area that `new` made,
interleaved in any way with the kernel, which publishes packets at offsets up to `AF_XDP_RESERVED`,
with lengths that are `AF_XDP_RESERVED` less than those of the chunks at most. Then the packets that
the kernel published on a link of a worker are, in this order and byte for byte, those that were
sent on the worker's other link, those that are pending and those in the Rx ring. And what the
kernel read for the `c`-th Tx descriptor of the other link is the `c`-th packet it published. -/
theorem run_relay {p : Profile} {mmap : Nat → Nat → Bool} {bufNum bufLen : Nat}
    {options : MmapAreaOptions} {area : MmapArea} {b : Vec (BufMmap Unit)} {s₀ : FwdSys W}
    {v₀ : Option W} {as : List (FwdAct W)} {outs : List Unit} (hlen : afXdpReserved < bufLen)
    (hsize : bufNum * bufLen < 2 ^ 64)
    (hnew : MmapArea.new p mmap bufNum bufLen options = .ok (.ok (area, b)))
    (hs : s₀.Start area v₀ b)
    (hlaw : ∀ w pos j o len opts, .kernel w pos (.publish j o len opts) ∈ as →
      o ≤ afXdpReserved ∧ len + afXdpReserved ≤ bufLen)
    (hrun : run (fwdStep pr opt) (.start opt s₀) as = some (f, outs)) (w : W) (pos : Pos) :
    (f.sys.hist (w, pos)).published.map some = (f.sys.hist (w, pos.other)).sent ++
      (f.sys.deques (w, pos)).list.map (BufMmap.packet · f.sys.mem) ++
      (f.sys.link (w, pos)).rx.entries.map (fun e => some (readAt f.sys.mem e.addr e.len)) ∧
    ∀ c bytes, (c, bytes) ∈ (f.sys.hist (w, pos.other)).read →
      (f.sys.hist (w, pos)).published[c]? = some bytes := by
  obtain ⟨rfl, rfl⟩ := MmapArea.new_inv hsize (Nat.le_of_lt hlen) hnew
  have hrelays₀ : s₀.Relays := by
    intro w pos
    rw [hs.hist, hs.hist, hs.deques]
    rfl
  obtain ⟨hsound, hrelays⟩ := (fwdStep_over fun _ => Act.lawful_of_ne_kernel).invariant_and
    (I := Sys.Sound ⟨bufNum, bufLen⟩ _) (J := fun f : Forwarder W => f.sys.Relays)
    (fun _ _ _ _ ha hi hstep => hi.step hlen ha hstep)
    (fun _ _ _ _ _ hi hj hstep =>
      fwdStep_relays (Nat.le_of_lt hlen) hi.conserved hi.framed hj hstep)
    (Sys.Sound.start hlen hs) hrelays₀ (FwdAct.lawful_of_publish hlaw) hrun
  have heq : (f.sys.hist (w, pos)).published.map some = (f.sys.hist (w, pos.other)).sent ++
      (f.sys.deques (w, pos)).list.map (BufMmap.packet · f.sys.mem) ++
      (f.sys.link (w, pos)).rx.entries.map fun e => some (readAt f.sys.mem e.addr e.len) := by
    rw [(hsound.carries (w, pos)).recv, hrelays w pos]
  refine ⟨heq, ?_⟩
  intro c bytes hread
  have hsent := (hsound.carries (w, pos.other)).read _ hread
  have hmap : ((f.sys.hist (w, pos)).published.map some)[c]? = some (some bytes) := by
    rw [heq, List.append_assoc, List.getElem?_append_left (List.getElem?_eq_some_iff.1 hsent).1]
    exact hsent
  rw [List.getElem?_map, Option.map_eq_some_iff] at hmap
  obtain ⟨x, hx, hxb⟩ := hmap
  rw [hx, Option.some.inj hxb]

end

theorem run_relay_relayRun :
    ∃ f outs, run (fwdStep .release (l2fwd2link 2))
        (.start (l2fwd2link 2) (Sys.init ⟨2, 2048⟩ (some ()) (MmapArea.chunkVec 2 2048) 4))
        relayRun = some (f, outs) ∧
      (f.sys.hist ((), .first)).published.map some = (f.sys.hist ((), .second)).sent ++
        (f.sys.deques ((), .first)).list.map (BufMmap.packet · f.sys.mem) ++
        (f.sys.link ((), .first)).rx.entries.map
          (fun e => some (readAt f.sys.mem e.addr e.len)) ∧
      ∀ c bytes, (c, bytes) ∈ (f.sys.hist ((), .second)).read →
        (f.sys.hist ((), .first)).published[c]? = some bytes := by
  have hnew : MmapArea.new (T := Unit) .release (fun _ _ => true) 2 2048 {} =
      .ok (.ok (⟨2, 2048⟩, MmapArea.chunkVec 2 2048)) :=
    MmapArea.new_ok (by decide) (by decide) rfl
  obtain ⟨⟨f, outs⟩, hrun⟩ := Option.isSome_iff_exists.1 relayRun_isSome
  refine ⟨f, outs, hrun, run_relay (by decide) (by decide) hnew (Sys.init_start _ _ _ _) ?_ hrun
    () .first⟩
  intro w pos j o len opts hmem
  simp [relayRun] at hmem
  obtain ⟨-, -, rfl, rfl, -⟩ := hmem
  decide

end Afxdp
