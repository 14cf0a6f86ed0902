import Afxdp.Conservation
import Afxdp.L2fwd
import Mathlib.Data.List.Forall2

/-!
# How often the forwarder swaps a packet

`swap_macs` runs over the whole deque whenever something was received. A packet that a full Tx ring
left behind is swapped again with the packets received after it. In every run a packet is sent with
the bytes it was received with, swapped once for each such pass (`run_swaps`): its bytes are in a
chunk of its own, which neither the kernel nor the swaps of other packets write to. So if every
`try_recv` that receives something finds the deque empty, every packet is sent swapped exactly once
(`run_swaps_once`).
-/

namespace Afxdp

open Mem (Window readAt writeAt)
open Run (run run_invariant EveryStep checkSteps everyStep_of_checkSteps)

/-! ## One pass -/

/-- A packet that has room for two MAC addresses and ends in its chunk. -/
structure InChunk (n addr len : Nat) : Prop where
  long : 12 ≤ len
  fits : addr % n + len ≤ n

theorem InChunk.inside {n addr len : Nat} (h : InChunk n addr len) :
    (Window.mk addr len).Inside (addr / n * n) ((addr / n + 1) * n) := by
  have hdiv := Nat.div_add_mod addr n
  have hfits := h.fits
  rw [Nat.mul_comm] at hdiv
  constructor
  · show addr / n * n ≤ addr
    omega
  · show addr + len ≤ (addr / n + 1) * n
    rw [Nat.succ_mul]
    omega

/-- Packets in different chunks do not overlap. -/
theorem InChunk.disjoint {n addr len addr' len' : Nat} (h : InChunk n addr len)
    (h' : InChunk n addr' len') (hne : addr / n ≠ addr' / n) :
    (Window.mk addr len).Disjoint ⟨addr', len'⟩ :=
  h.inside.disjoint_grid h'.inside hne

section
variable {mem mem' : Nat → UInt8} {n : Nat}

/-- The two fields are stored in each other's place. -/
theorem swapMac_inv {w : Window} (h : swapMac mem w = .ok mem') :
    mem' = writeAt (writeAt mem w.start (readAt mem (w.start + 6) 6)) (w.start + 6)
      (readAt mem w.start 6) := by
  unfold swapMac at h
  split at h
  · cases h
    rw [Mem.readAt_drop, Mem.readAt_take _ _ (by decide)]
  · cases h

/-- The body of the loop swaps the packet at the start of the slice. -/
theorem swapMac_self {w : Window} {len : Nat} (h : swapMac mem w = .ok mem') (hlen : 12 ≤ len) :
    readAt mem' w.start len = swapBytes (readAt mem w.start len) := by
  obtain ⟨k, rfl⟩ : ∃ k, len = 6 + (6 + k) := ⟨len - 12, by omega⟩
  have hdst : readAt mem' w.start 6 = readAt mem (w.start + 6) 6 := by
    rw [swapMac_inv h, Mem.readAt_writeAt_of_disjoint,
      Mem.readAt_writeAt_self (Mem.readAt_length _ _ _)]
    exact Window.disjoint_of_le (Nat.le_refl (w.start + 6))
  have hsrc : readAt mem' (w.start + 6) 6 = readAt mem w.start 6 := by
    rw [swapMac_inv h, Mem.readAt_writeAt_self (Mem.readAt_length _ _ _)]
  have hrest : readAt mem' (w.start + 6 + 6) k = readAt mem (w.start + 6 + 6) k := by
    have hafter : ∀ a, a ≤ w.start + 6 →
        (Window.mk (w.start + 6 + 6) k).Disjoint ⟨a, 6⟩ := fun a ha =>
      (Window.disjoint_of_le (Nat.add_le_add_right ha 6)).symm
    rw [swapMac_inv h, Mem.readAt_writeAt_of_disjoint, Mem.readAt_writeAt_of_disjoint]
    · rw [Mem.readAt_length]
      exact hafter _ (Nat.le_add_right _ _)
    · rw [Mem.readAt_length]
      exact hafter _ (Nat.le_refl _)
  rw [Mem.readAt_append mem', Mem.readAt_append mem', hdst, hsrc, hrest, swapBytes,
    Mem.readAt_take _ _ (Nat.le_add_right _ _), Mem.readAt_drop, Mem.readAt_drop,
    Mem.readAt_take _ _ (by omega), List.append_assoc]
  congr 3
  omega

/-- It writes to the first twelve bytes only. -/
theorem swapMac_frame {w : Window} {a len : Nat} (h : swapMac mem w = .ok mem')
    (hd : (Window.mk a len).Disjoint ⟨w.start, 12⟩) : readAt mem' a len = readAt mem a len := by
  rw [swapMac_inv h, Mem.readAt_writeAt_of_disjoint, Mem.readAt_writeAt_of_disjoint]
  · refine hd.mono_right ?_
    rw [Mem.readAt_length]
    exact ⟨Nat.le_refl _, Nat.le_add_right (w.start + 6) 6⟩
  · refine hd.mono_right ?_
    rw [Mem.readAt_length]
    exact ⟨Nat.le_add_right _ _, Nat.le_of_eq (Nat.add_assoc _ _ _)⟩

/-- A buffer whose slice starts with its packet, in its chunk. -/
structure InPlace (n : Nat) (b : BufMmap Unit) : Prop where
  chunk : InChunk n b.addr b.len.toNat
  data : b.data.start = b.addr

variable {bs : List (BufMmap Unit)}

theorem swapMacs_cons {b : BufMmap Unit} (h : swapMacs mem (b :: bs) = .ok mem') :
    ∃ m, swapMac mem b.data = .ok m ∧ swapMacs m bs = .ok mem' := by
  unfold swapMacs at h
  cases hm : swapMac mem b.data with
  | error e =>
    rw [hm] at h
    cases h
  | ok m =>
    rw [hm] at h
    exact ⟨m, rfl, h⟩

/-- The swap of one packet leaves a packet in another chunk alone. -/
theorem InPlace.swapMac_frame {b : BufMmap Unit} (hb : InPlace n b)
    (h : swapMac mem b.data = .ok mem') {addr len : Nat} (ha : InChunk n addr len)
    (hne : b.addr / n ≠ addr / n) : readAt mem' addr len = readAt mem addr len := by
  refine Afxdp.swapMac_frame h ?_
  rw [hb.data]
  exact (ha.disjoint hb.chunk hne.symm).mono_right
    ⟨Nat.le_refl _, Nat.add_le_add_left hb.chunk.long _⟩

/-- A pass over some packets leaves a packet in another chunk alone. -/
theorem swapMacs_frame (h : swapMacs mem bs = .ok mem') (hbs : ∀ b ∈ bs, InPlace n b)
    {addr len : Nat} (ha : InChunk n addr len) (hne : ∀ b ∈ bs, b.addr / n ≠ addr / n) :
    readAt mem' addr len = readAt mem addr len := by
  induction bs generalizing mem with
  | nil =>
      cases h
      rfl
  | cons b bs ih =>
      obtain ⟨m, h1, h2⟩ := swapMacs_cons h
      rw [ih h2 (fun x hx => hbs x (List.mem_cons_of_mem _ hx))
        fun x hx => hne x (List.mem_cons_of_mem _ hx)]
      exact (hbs b List.mem_cons_self).swapMac_frame h1 ha (hne b List.mem_cons_self)

/-- A pass over packets in different chunks swaps each of them. -/
theorem swapMacs_self (h : swapMacs mem bs = .ok mem') (hbs : ∀ b ∈ bs, InPlace n b)
    (hnodup : (bs.map fun b => b.addr / n).Nodup) :
    ∀ b ∈ bs, wireBytes mem' b = swapBytes (wireBytes mem b) := by
  induction bs generalizing mem with
  | nil => exact fun b hb => absurd hb List.not_mem_nil
  | cons b bs ih =>
      obtain ⟨m, h1, h2⟩ := swapMacs_cons h
      rw [List.map_cons, List.nodup_cons] at hnodup
      have hb := hbs b List.mem_cons_self
      have htail : ∀ x ∈ bs, InPlace n x := fun x hx => hbs x (List.mem_cons_of_mem _ hx)
      have hne : ∀ x ∈ bs, x.addr / n ≠ b.addr / n := fun x hx heq =>
        hnodup.1 (heq ▸ List.mem_map_of_mem hx)
      intro x hx
      rcases List.mem_cons.1 hx with rfl | hx
      · -- the packets behind it are elsewhere
        rw [wireBytes, swapMacs_frame h2 htail hb.chunk hne, ← hb.data,
          swapMac_self h1 hb.chunk.long, hb.data, wireBytes]
      · rw [ih h2 htail hnodup.2 x hx, wireBytes, wireBytes,
          hb.swapMac_frame h1 (htail x hx).chunk (hne x hx).symm]

end

/-! ## What the steps keep -/

/-- A received frame holds two MAC addresses at least. -/
def KAct.Long : KAct → Prop
  | .publish _ _ len _ => 12 ≤ len
  | _ => True

instance : DecidablePred KAct.Long
  | .publish _ _ len _ => inferInstanceAs (Decidable (12 ≤ len))
  | .takeFill | .write _ _ _ | .takeTx | .readTx _ | .complete _ | .setWake _ => .isTrue trivial

/-- A pending packet has the bytes it was received with, swapped as often as `swap_macs` ran over
it. -/
structure Held (n : Nat) (mem : Nat → UInt8) (b : BufMmap Unit) (o : Origin) : Prop where
  place : InPlace n b
  bytes : wireBytes mem b = swapBytes^[o.swaps] o.bytes

/-- The chunks are conserved, received packets are in theirs, and the pending packets and the ones
that were sent have the bytes they were received with, swapped as often as `swap_macs` ran over
them. -/
structure L2fwd.Tracked (area : MmapArea) (S : Finset Nat) (f : L2fwd) : Prop where
  conserved : Conserved area S f.sys
  rx : ∀ e ∈ (f.sys.link ()).rx.entries, InChunk area.bufLen e.addr e.len
  pending : List.Forall₂ (Held area.bufLen f.sys.mem) f.bufs f.pending
  sent : ∀ p ∈ f.sent, p.2 = swapBytes^[p.1.swaps] p.1.bytes

section
variable {bufLen : Nat} {mem mem' : Nat → UInt8} {l l' : Link} {h h' : Hist} {k : KAct}

/-- The kernel receives into chunks. -/
theorem kernelStep_rx (hk : kernelStep bufLen mem l h k = some (mem', l', h')) (hlong : k.Long)
    (hrx : ∀ e ∈ l.rx.entries, InChunk bufLen e.addr e.len) :
    ∀ e ∈ l'.rx.entries, InChunk bufLen e.addr e.len := by
  cases k with
  | publish j o len options =>
    obtain ⟨a, -, ho, hlen, hf, hr⟩ := kernelStep_publish hk
    cases hr
    intro e he
    rw [Spsc.RingBuf.push_entries _ hf, List.mem_append, List.mem_singleton] at he
    rcases he with he | rfl
    · exact hrx e he
    · refine ⟨hlong, ?_⟩
      rw [Mem.offset_of_cell ho]
      exact hlen
  | takeFill => obtain ⟨-, hr⟩ := kernelStep_takeFill hk; cases hr; exact hrx
  | write => obtain ⟨_, _, _, hr⟩ := kernelStep_write hk; cases hr; exact hrx
  | takeTx => obtain ⟨-, hr⟩ := kernelStep_takeTx hk; cases hr; exact hrx
  | readTx => obtain ⟨_, _, _, hr⟩ := kernelStep_readTx hk; cases hr; exact hrx
  | complete => obtain ⟨_, _, _, _, hr⟩ := kernelStep_complete hk; cases hr; exact hrx
  | setWake => have hr := kernelStep_setWake hk; cases hr; exact hrx

/-- The kernel writes nothing, or one byte of a chunk it may receive into. -/
theorem kernelStep_mem (hk : kernelStep bufLen mem l h k = some (mem', l', h')) :
    mem' = mem ∨ ∃ a x byte, (a ∈ l.addrs .fill ∨ a ∈ l.addrs .krx) ∧ x / bufLen = a / bufLen ∧
      mem' = Function.update mem x byte := by
  cases k with
  | write j off byte =>
    obtain ⟨a, ha, ho, hr⟩ := kernelStep_write hk
    cases hr
    exact .inr ⟨a, _, byte, List.mem_append.1 ha, Mem.cell_of_offset ho, rfl⟩
  | takeFill => obtain ⟨-, hr⟩ := kernelStep_takeFill hk; cases hr; exact .inl rfl
  | publish => obtain ⟨_, _, _, _, _, hr⟩ := kernelStep_publish hk; cases hr; exact .inl rfl
  | takeTx => obtain ⟨-, hr⟩ := kernelStep_takeTx hk; cases hr; exact .inl rfl
  | readTx => obtain ⟨_, _, _, hr⟩ := kernelStep_readTx hk; cases hr; exact .inl rfl
  | complete => obtain ⟨_, _, _, _, hr⟩ := kernelStep_complete hk; cases hr; exact .inl rfl
  | setWake => have hr := kernelStep_setWake hk; cases hr; exact .inl rfl

end

section
variable {opt : Opt} {area : MmapArea} {S : Finset Nat} {f f' : L2fwd}
  {s : Sys Unit Unit Unit Unit} {out : Out}

/-- A packet whose bytes are as they were is held as it was. -/
theorem Held.frame {n : Nat} {mem mem' : Nat → UInt8} {b : BufMmap Unit} {o : Origin}
    (h : Held n mem b o) (hm : wireBytes mem' b = wireBytes mem b) : Held n mem' b o :=
  ⟨h.place, hm.trans h.bytes⟩

/-- The pending packets are in their chunks. -/
theorem L2fwd.Tracked.inPlace (hf : f.Tracked area S) : ∀ b ∈ f.bufs, InPlace area.bufLen b := by
  intro b hb
  obtain ⟨i, hi, rfl⟩ := List.getElem_of_mem hb
  exact (hf.pending.get hi (hf.pending.length_eq ▸ hi)).place

/-- A step that leaves the memory and the deque alone keeps the pending packets. -/
theorem L2fwd.Tracked.keep (hf : f.Tracked area S) (hc : Conserved area S f'.sys)
    (hrx : ∀ e ∈ (f'.sys.link ()).rx.entries, InChunk area.bufLen e.addr e.len)
    (hmem : ∀ b ∈ f.bufs, wireBytes f'.sys.mem b = wireBytes f.sys.mem b)
    (hbufs : f'.bufs = f.bufs) (hpending : f'.pending = f.pending) (hsent : f'.sent = f.sent) :
    f'.Tracked area S := by
  refine ⟨hc, hrx, ?_, hsent ▸ hf.sent⟩
  rw [hbufs, hpending]
  have hmem := (List.forall₂_and_left _ _).2 ⟨hmem, hf.pending⟩
  exact hmem.imp fun b o h => h.2.frame h.1

variable (hlen : afXdpReserved < area.bufLen) (hf : f.Tracked area S)
include hlen hf

theorem L2fwd.Tracked.kernel {k : KAct} (hlong : k.Long)
    (h : step f.sys (.kernel () k) = some (s, out)) : Tracked area S { f with sys := s } := by
  have hc := hf.conserved.step hlen h
  obtain ⟨mem, l, hi, hk, rfl⟩ := step_kernel_inv h
  refine hf.keep hc ?_ ?_ rfl rfl rfl
  · show ∀ e ∈ (Function.update f.sys.link () l ()).rx.entries, _
    rw [Function.update_self, ← hf.conserved.areaEq]
    refine kernelStep_rx hk hlong ?_
    rw [hf.conserved.areaEq]
    exact hf.rx
  · intro b hb
    rcases kernelStep_mem hk with rfl | ⟨a, x, byte, ha, hx, rfl⟩
    · rfl
    · -- the chunk that the kernel writes to is not the one of a pending packet
      have hbc : b.addr / f.sys.area.bufLen ∈ f.sys.chunks (.coll (.deque ())) :=
        Multiset.mem_coe.2 (List.mem_map_of_mem (List.mem_map_of_mem hb))
      have hac : ∃ q, a / f.sys.area.bufLen ∈ f.sys.chunks (.link () q) := by
        rcases ha with ha | ha
        · exact ⟨.fill, Multiset.mem_coe.2 (List.mem_map_of_mem ha)⟩
        · exact ⟨.krx, Multiset.mem_coe.2 (List.mem_map_of_mem ha)⟩
      obtain ⟨q, hac⟩ := hac
      refine Mem.readAt_update fun hhas => ?_
      have hin := (hf.inPlace b hb).chunk.inside
      have hxb : x / area.bufLen = b.addr / area.bufLen :=
        Nat.div_eq_of_lt_le (Nat.le_trans hin.1 hhas.1) (Nat.lt_of_lt_of_le hhas.2 hin.2)
      rw [hf.conserved.areaEq] at hx hac hbc
      rw [← hx, hxb] at hac
      cases hf.conserved.custody.excl _ _ _ hbc hac

theorem L2fwd.Tracked.fillCall {batchSize : Nat} {granted : Bool} (pc : Pc) (deficit : Nat)
    (h : step f.sys (.fill () () batchSize granted) = some (s, out)) :
    Tracked area S { f with sys := s, pc := pc, fqDeficit := deficit } := by
  have hc := hf.conserved.step hlen h
  obtain ⟨rfl, -⟩ := step_fill_inv h
  refine hf.keep hc ?_ (fun _ _ => rfl) rfl rfl rfl
  simpa [Sys.afterFill] using hf.rx

theorem L2fwd.Tracked.serviceCall {batchSize grant : Nat} (pc : Pc)
    (h : step f.sys (.service () () batchSize grant) = some (s, out)) :
    Tracked area S { f with sys := s, pc := pc } := by
  have hc := hf.conserved.step hlen h
  obtain ⟨rfl, -⟩ := step_service_inv (by rw [hf.conserved.areaEq]; exact Nat.le_of_lt hlen) h
  refine hf.keep hc ?_ (fun _ _ => rfl) rfl rfl rfl
  simpa [Sys.afterService] using hf.rx

/-- What `try_recv` appended to the deque. -/
theorem L2fwd.Tracked.recv_list {batchSize grant : Nat}
    (h : step f.sys (.tryRecv () () batchSize () grant) = some (s, out)) :
    (s.deques ()).list = f.bufs ++ f.sys.recvBufs () () out.ret ∧
      out.ret = recvCount f.sys () () batchSize grant := by
  obtain ⟨rfl, hret, -⟩ :=
    step_tryRecv_inv (by rw [hf.conserved.areaEq]; exact Nat.le_of_lt hlen) h
  obtain ⟨hused, hroom⟩ := recvCount_le f.sys () () batchSize grant
  have hcoll := afterRecv_coll () () (hret ▸ hused) (hret ▸ hroom)
  refine ⟨?_, hret⟩
  have hself := congrFun hcoll (.deque ())
  rwa [Function.update_self] at hself

theorem L2fwd.Tracked.recvCall {batchSize grant : Nat} (pc : Pc)
    (h : step f.sys (.tryRecv () () batchSize () grant) = some (s, out)) :
    Tracked area S { f with
      sys := s, pc := pc
      pending := f.pending ++ ((s.deques ()).list.drop f.bufs.length).map fun b =>
        ⟨wireBytes s.mem b, 0⟩ } := by
  have hc := hf.conserved.step hlen h
  obtain ⟨hlist, hret⟩ := hf.recv_list hlen h
  obtain ⟨rfl, -, hfits⟩ :=
    step_tryRecv_inv (by rw [hf.conserved.areaEq]; exact Nat.le_of_lt hlen) h
  have hused := (recvCount_le f.sys () () batchSize grant).1
  rw [← hret] at hused
  refine ⟨hc, ?_, ?_, hf.sent⟩
  · intro e he
    have hrx : ((f.sys.afterRecv () () () out.ret).link ()).rx =
        (f.sys.link ()).rx.release out.ret := by
      simp [Sys.afterRecv]
    rw [hrx, Spsc.RingBuf.release_entries _ hused] at he
    exact hf.rx e (List.mem_of_mem_drop he)
  · show List.Forall₂ _ ((f.sys.afterRecv () () () out.ret).deques ()).list _
    rw [hlist, List.drop_left]
    refine List.rel_append hf.pending (List.forall₂_map_right_iff.2 (List.forall₂_same.2 ?_))
    intro b hb
    obtain ⟨e, he, rfl⟩ := List.mem_map.1 hb
    -- the buffer has the address and the length of its descriptor
    have hlen16 : (UInt16.ofNat e.len).toNat = e.len := by
      simpa using Nat.mod_eq_of_lt (hfits e he)
    refine ⟨⟨?_, rfl⟩, rfl⟩
    have hin := hf.rx e (List.mem_of_mem_take he)
    rwa [← hlen16] at hin

omit hlen in
theorem L2fwd.Tracked.pass {mem : Nat → UInt8} (pc : Pc) (deficit : Nat)
    (h : swapMacs f.sys.mem f.bufs = .ok mem) :
    Tracked area S { f with
      sys := { f.sys with mem := mem }, pc := pc, fqDeficit := deficit
      pending := f.pending.map fun o => { o with swaps := o.swaps + 1 } } := by
  have hnodup : (f.bufs.map fun b => b.addr / area.bufLen).Nodup := by
    have hn := hf.conserved.custody.nodup (.coll (.deque ()))
    rw [← hf.conserved.areaEq]
    have hmap : f.sys.chunks (.coll (.deque ())) =
        (f.bufs.map fun b => b.addr / f.sys.area.bufLen : List Nat) := by
      simp [Sys.chunks, chunksOf, Sys.coll, L2fwd.bufs, Function.comp_def]
    rw [hmap] at hn
    exact Multiset.coe_nodup.1 hn
  have hself := swapMacs_self h hf.inPlace hnodup
  refine ⟨⟨hf.conserved.areaEq, hf.conserved.custody, hf.conserved.present⟩, hf.rx, ?_, hf.sent⟩
  refine List.forall₂_map_right_iff.2 ?_
  have hboth := (List.forall₂_and_left _ _).2 ⟨hself, hf.pending⟩
  refine hboth.imp fun b o hbo => ⟨hbo.2.place, ?_⟩
  show wireBytes mem b = swapBytes^[o.swaps + 1] o.bytes
  rw [hbo.1, hbo.2.bytes, Function.iterate_succ_apply']

theorem L2fwd.Tracked.sendCall {batchSize : Nat} {granted : Bool} {send : Sendto} (pc : Pc)
    (h : step f.sys (.trySend () () batchSize granted send) = some (s, out)) :
    Tracked area S { f with
      sys := s, pc := pc
      pending := f.pending.drop out.ret
      sent := f.sent ++
        (f.pending.take out.ret).zip ((f.bufs.take out.ret).map (wireBytes f.sys.mem)) } := by
  have hc := hf.conserved.step hlen h
  obtain ⟨rfl, -⟩ := step_trySend_inv h
  have hdeque : ((f.sys.afterSend () () out.ret).deques ()).list = f.bufs.drop out.ret := by
    have hself := congrFun (afterSend_coll (s := f.sys) (i := ()) () out.ret) (.deque ())
    rwa [Function.update_self] at hself
  refine ⟨hc, ?_, ?_, ?_⟩
  · simpa [Sys.afterSend] using hf.rx
  · show List.Forall₂ _ ((f.sys.afterSend () () out.ret).deques ()).list _
    rw [hdeque]
    exact List.forall₂_drop out.ret hf.pending
  · intro p hp
    rcases List.mem_append.1 hp with hp | hp
    · exact hf.sent p hp
    · have hbytes : List.Forall₂ (fun o w => w = swapBytes^[o.swaps] o.bytes)
          (f.pending.take out.ret) ((f.bufs.take out.ret).map (wireBytes f.sys.mem)) :=
        List.forall₂_map_right_iff.2
          (List.forall₂_take out.ret (hf.pending.imp fun _ _ hbo => hbo.bytes).flip)
      exact List.forall₂_zip hbytes hp

end

/-- A frame that the step receives holds two MAC addresses at least. -/
def L2Act.Long : L2Act → Prop
  | .kernel k => k.Long
  | _ => True

instance : DecidablePred L2Act.Long
  | .kernel k => inferInstanceAs (Decidable k.Long)
  | .initialFill _ | .service _ | .tryRecv _ | .swapMacs | .forward _ _ | .fill _ => .isTrue trivial

section
variable {opt : Opt} {area : MmapArea} {S : Finset Nat} {f f' : L2fwd} {u : Unit}

/-- Every step keeps track of the packets. -/
theorem l2step_tracked {a : L2Act} (hlen : afXdpReserved < area.bufLen) (ha : a.Long)
    (hf : f.Tracked area S) (h : l2step opt f a = some (f', u)) : f'.Tracked area S := by
  cases a with
  | initialFill granted =>
    obtain ⟨s, out, -, hstep, rfl⟩ := l2step_initialFill_inv h
    exact hf.fillCall hlen .service f.fqDeficit hstep
  | service grant =>
    obtain ⟨s, out, -, hstep, rfl⟩ := l2step_service_inv h
    exact hf.serviceCall hlen .tryRecv hstep
  | tryRecv grant =>
    obtain ⟨s, out, -, hstep, rfl⟩ := l2step_tryRecv_inv h
    exact hf.recvCall hlen _ hstep
  | swapMacs =>
    obtain ⟨n, mem, -, hmem, rfl⟩ := l2step_swapMacs_inv h
    exact hf.pass .forward (f.fqDeficit + n) hmem
  | forward granted send =>
    obtain ⟨-, rfl | ⟨s, out, hstep, rfl⟩⟩ := l2step_forward_inv h
    · exact ⟨hf.conserved, hf.rx, hf.pending, hf.sent⟩
    · exact hf.sendCall hlen .fill hstep
  | fill granted =>
    obtain ⟨-, rfl | ⟨s, out, hstep, rfl⟩⟩ := l2step_fill_inv h
    · exact ⟨hf.conserved, hf.rx, hf.pending, hf.sent⟩
    · exact hf.fillCall hlen .service _ hstep
  | kernel k =>
    obtain ⟨s, out, hstep, rfl⟩ := l2step_kernel_inv h
    exact hf.kernel hlen ha hstep

/-- In every run each packet is sent with the bytes it was received with, swapped once for each
pass of `swap_macs` since. -/
theorem run_swaps {as : List L2Act} {us : List Unit} (hlen : afXdpReserved < area.bufLen)
    (hlong : ∀ a ∈ as, a.Long) (hf : f.Tracked area S) (h : run (l2step opt) f as = some (f', us)) :
    f'.Tracked area S :=
  run_invariant (fun _ _ _ _ ha hI hstep => l2step_tracked hlen ha hI hstep) hf hlong h

end

/-! ## Swapped once -/

/-- A `try_recv` that receives something finds nothing pending, and a frame that is received holds
two MAC addresses at least. -/
def Orderly (opt : Opt) (f : L2fwd) : L2Act → Prop
  | .tryRecv grant => f.bufs = [] ∨ recvCount f.sys () () opt.batchSize grant = 0
  | a => a.Long

instance (opt : Opt) (f : L2fwd) : DecidablePred (Orderly opt f)
  | .tryRecv _ => inferInstanceAs (Decidable (_ ∨ _))
  | .kernel k => inferInstanceAs (Decidable k.Long)
  | .initialFill _ | .service _ | .swapMacs | .forward _ _ | .fill _ => .isTrue trivial

/-- How often `swap_macs` has run over the pending packets, if no packet is left behind. -/
def Pc.passes : Pc → Nat
  | .swapMacs _ => 0
  | _ => 1

/-- The pending packets are swapped once, or are about to be, and the ones that were sent were
swapped once. -/
structure L2fwd.Settled (f : L2fwd) : Prop where
  pending : ∀ o ∈ f.pending, o.swaps = f.pc.passes
  sent : ∀ p ∈ f.sent, p.1.swaps = 1

section
variable {opt : Opt} {area : MmapArea} {S : Finset Nat} {f f' : L2fwd} {u : Unit}

theorem Orderly.long {a : L2Act} (h : Orderly opt f a) : a.Long := by
  cases a with
  | tryRecv => trivial
  | _ => exact h

theorem L2fwd.Settled.pending_at {pc : Pc} (hs : f.Settled) (hpc : f.pc = pc) :
    ∀ o ∈ f.pending, o.swaps = pc.passes := hpc ▸ hs.pending

/-- An orderly step leaves no packet behind to be swapped again. -/
theorem l2step_settled {a : L2Act} (hlen : afXdpReserved < area.bufLen) (ha : Orderly opt f a)
    (hf : f.Tracked area S) (hs : f.Settled) (h : l2step opt f a = some (f', u)) :
    f'.Settled := by
  cases a with
  | initialFill granted =>
    obtain ⟨s, out, hpc, -, rfl⟩ := l2step_initialFill_inv h
    have hpending := hs.pending_at hpc
    exact ⟨hpending, hs.sent⟩
  | service grant =>
    obtain ⟨s, out, hpc, -, rfl⟩ := l2step_service_inv h
    have hpending := hs.pending_at hpc
    exact ⟨hpending, hs.sent⟩
  | tryRecv grant =>
    obtain ⟨s, out, hpc, hstep, rfl⟩ := l2step_tryRecv_inv h
    obtain ⟨hlist, hret⟩ := hf.recv_list hlen hstep
    have hpending := hs.pending_at hpc
    refine ⟨?_, hs.sent⟩
    show ∀ o ∈ f.pending ++ ((s.deques ()).list.drop f.bufs.length).map _,
      o.swaps = (if out.ret > 0 then Pc.swapMacs out.ret else .forward).passes
    rw [hlist, List.drop_left]
    rcases Nat.eq_zero_or_pos out.ret with hzero | hpos
    · -- nothing was received
      rw [hzero, if_neg (Nat.lt_irrefl 0), Sys.recvBufs, List.take_zero, List.map_nil,
        List.map_nil, List.append_nil]
      exact hpending
    · -- all pending packets were received just now
      have hempty : f.bufs = [] := ha.resolve_right fun h0 => by omega
      have hnone : f.pending = [] := List.forall₂_nil_left_iff.1 (hempty ▸ hf.pending)
      rw [hnone, List.nil_append, if_pos hpos]
      intro o ho
      obtain ⟨b, -, rfl⟩ := List.mem_map.1 ho
      rfl
  | swapMacs =>
    obtain ⟨n, mem, hpc, -, rfl⟩ := l2step_swapMacs_inv h
    refine ⟨?_, hs.sent⟩
    intro o ho
    obtain ⟨o', ho', rfl⟩ := List.mem_map.1 ho
    show o'.swaps + 1 = 1
    rw [hs.pending_at hpc o' ho']
    rfl
  | forward granted send =>
    obtain ⟨hpc, rfl | ⟨s, out, -, rfl⟩⟩ := l2step_forward_inv h
    · have hpending := hs.pending_at hpc
      exact ⟨hpending, hs.sent⟩
    · have hpending := hs.pending_at hpc
      refine ⟨fun o ho => hpending o (List.mem_of_mem_drop ho), ?_⟩
      intro p hp
      rcases List.mem_append.1 hp with hp | hp
      · exact hs.sent p hp
      · exact hpending p.1 (List.mem_of_mem_take (List.of_mem_zip hp).1)
  | fill granted =>
    obtain ⟨hpc, rfl | ⟨s, out, -, rfl⟩⟩ := l2step_fill_inv h
    · have hpending := hs.pending_at hpc
      exact ⟨hpending, hs.sent⟩
    · have hpending := hs.pending_at hpc
      exact ⟨hpending, hs.sent⟩
  | kernel k =>
    obtain ⟨s, out, -, rfl⟩ := l2step_kernel_inv h
    exact ⟨hs.pending, hs.sent⟩

/-- The program starts with its buffers in the vector, and no packet anywhere. -/
theorem L2fwd.tracked_start {bufNum bufLen : Nat} {w : Vec (BufMmap Unit)}
    {s : Sys Unit Unit Unit Unit} (hlen : afXdpReserved < bufLen)
    (hw : w.list.Subperm (MmapArea.chunkVec bufNum bufLen).list)
    (hs : s.Start ⟨bufNum, bufLen⟩ () w) :
    (L2fwd.start s).Tracked ⟨bufNum, bufLen⟩ (w.chunkSet bufLen) := by
  refine ⟨Conserved.start hlen hw hs, ?_, ?_, ?_⟩
  · intro e he
    rw [start, (s.link ()).rx.entries_eq_nil (hs.link ()).rx] at he
    exact absurd he List.not_mem_nil
  · show List.Forall₂ _ (s.deques ()).list []
    rw [hs.deques]
    exact .nil
  · exact fun q hq => absurd hq List.not_mem_nil

theorem L2fwd.settled_start (s : Sys Unit Unit Unit Unit) : (L2fwd.start s).Settled :=
  ⟨fun _ ho => absurd ho List.not_mem_nil, fun _ hq => absurd hq List.not_mem_nil⟩

/-- Take an area that `new` made and any run of the program over it, with any batch size and any
rings, interleaved with the kernel. If whenever `try_recv` receives something nothing is pending,
and received frames hold two MAC addresses, then every packet that was sent was swapped exactly
once: it was sent with the first two fields of six bytes of what was received exchanged, and every
other byte unchanged. -/
theorem run_swaps_once {p : Profile} {mmap : Nat → Nat → Bool} {options : MmapAreaOptions}
    {w : Vec (BufMmap Unit)} {s₀ : Sys Unit Unit Unit Unit} {as : List L2Act} {us : List Unit}
    (hlen : afXdpReserved < opt.bufsize) (hsize : opt.bufnum * opt.bufsize < 2 ^ 64)
    (hnew : MmapArea.new p mmap opt.bufnum opt.bufsize options = .ok (.ok (area, w)))
    (hs : s₀.Start area () w)
    (horderly : EveryStep (l2step opt) (fun f a _ _ => Orderly opt f a) (.start s₀) as)
    (hrun : run (l2step opt) (.start s₀) as = some (f, us)) :
    ∀ q ∈ f.sent, q.1.swaps = 1 ∧ q.2 = swapBytes q.1.bytes := by
  obtain ⟨rfl, rfl⟩ := MmapArea.new_inv hsize (Nat.le_of_lt hlen) hnew
  have hinv := EveryStep.invariant (P := fun f a _ _ => Orderly opt f a)
    (I := fun f => f.Tracked ⟨opt.bufnum, opt.bufsize⟩
      ((MmapArea.chunkVec (T := Unit) opt.bufnum opt.bufsize).chunkSet opt.bufsize) ∧ f.Settled) ?_
    ⟨L2fwd.tracked_start hlen (List.Subperm.refl _) hs, L2fwd.settled_start s₀⟩ horderly hrun
  · intro q hq
    have hone := hinv.2.sent q hq
    have hbytes := hinv.1.sent q hq
    rw [hone] at hbytes
    exact ⟨hone, hbytes⟩
  · intro g a g' b ha hI hstep
    exact ⟨l2step_tracked hlen ha.long hI.1 hstep, l2step_settled hlen ha hI.1 hI.2 hstep⟩

end

/-- The options of the run. -/
def oneByOne : Opt := { bufsize := 2048, bufnum := 3, batchSize := 1 }

/-- The kernel receives a frame of 14 bytes into the chunk of its oldest fill entry. -/
def receiveFrame : List L2Act :=
  [.kernel (.write 0 256 1), .kernel (.write 0 262 2), .kernel .takeFill,
    .kernel (.publish 0 256 14 0)]

/-- The calls of the loop that come before `forward`, with a frame to receive. -/
def reception : List L2Act := receiveFrame ++ [.service 0, .tryRecv 1, .swapMacs]

/-- The loop once, with a frame to receive. -/
def iteration : List L2Act := reception ++ [.forward true .sent, .fill true]

/-- The run of a first packet. -/
theorem run_swaps_once_iteration :
    ∃ f us, run (l2step oneByOne) (.start (Sys.init ⟨3, 2048⟩ () (MmapArea.chunkVec 3 2048) 2))
        (.initialFill true :: iteration) = some (f, us) ∧
      ∀ q ∈ f.sent, q.1.swaps = 1 ∧ q.2 = swapBytes q.1.bytes := by
  have hnew : MmapArea.new (T := Unit) .release (fun _ _ => true) 3 2048 {} =
      .ok (.ok (⟨3, 2048⟩, MmapArea.chunkVec 3 2048)) :=
    MmapArea.new_ok (by decide) (by decide) rfl
  have hsome : (run (l2step oneByOne)
      (.start (Sys.init ⟨3, 2048⟩ () (MmapArea.chunkVec 3 2048) 2))
      (.initialFill true :: iteration)).isSome := by
    decide +kernel
  have hcheck : checkSteps (l2step oneByOne) (fun f a => decide (Orderly oneByOne f a))
      (.start (Sys.init ⟨3, 2048⟩ () (MmapArea.chunkVec 3 2048) 2))
      (.initialFill true :: iteration) = true := by
    decide +kernel
  have horderly : EveryStep (l2step oneByOne) (fun f a _ _ => Orderly oneByOne f a)
      (.start (Sys.init ⟨3, 2048⟩ () (MmapArea.chunkVec 3 2048) 2))
      (.initialFill true :: iteration) := by
    simpa using everyStep_of_checkSteps hcheck
  obtain ⟨⟨f, us⟩, hrun⟩ := Option.isSome_iff_exists.1 hsome
  exact ⟨f, us, hrun,
    run_swaps_once (by decide) (by decide) hnew (Sys.init_start _ _ _ _) horderly hrun⟩

end Afxdp
