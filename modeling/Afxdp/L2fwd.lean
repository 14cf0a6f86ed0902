import Afxdp.System
import Mathlib.Logic.Function.Iterate

/-!
# The forwarder `l2fwd-1link`

The example program that sends every received packet back out of its link with the MAC addresses
exchanged. Its state is the data path with one umem and socket, one vector of free buffers and one
deque of pending packets (`L2fwd`). A step is one call of the main loop, in the order of the loop,
or one thing the kernel does; `l2step` has no successor where the program panics. The statistics,
their thread and the `poll` of an idle receive socket are left out: they read and change nothing of
this state.

`pending` and `sent` are bookkeeping that no step reads: for each packet in the deque, and for each
one that was sent, with which bytes it was received and how often `swap_macs` ran over it since.
-/

namespace Afxdp

open Mem (Window readAt writeAt)

/-! ## `swap_macs` -/

/-- The body of the loop of `swap_macs`, which panics if the slice has fewer than 12 bytes. -/
def swapMac (mem : Nat → UInt8) (data : Window) : Except Panic (Nat → UInt8) :=
  if 12 ≤ data.len then
    let tmp1 := readAt mem data.start 12
    let mem := writeAt mem data.start (tmp1.drop 6)
    .ok (writeAt mem (data.start + 6) (tmp1.take 6))
  else .error (.msg s!"range end index 12 out of range for slice of length {data.len}")

/-- `swap_macs`: it runs over all buffers of the deque. -/
def swapMacs {T : Type} (mem : Nat → UInt8) : List (BufMmap T) → Except Panic (Nat → UInt8)
  | [] => .ok mem
  | buf :: bufs => do
    let mem ← swapMac mem buf.data
    swapMacs mem bufs

/-- A packet with its first two fields of six bytes exchanged. -/
def swapBytes (packet : List UInt8) : List UInt8 :=
  (packet.drop 6).take 6 ++ packet.take 6 ++ packet.drop 12

/-! ## States -/

/-- The options that the main loop depends on. -/
structure Opt where
  bufsize : Nat := 2048
  bufnum : Nat := 65536
  batchSize : Nat := 64

/-- `XSK_RING_PROD__DEFAULT_NUM_DESCS`, which limits the initial fill. -/
def xskRingProdDefaultNumDescs : Nat := 2048

/-- How many buffers the initial fill hands to the kernel. -/
def Opt.initialFill (opt : Opt) : Nat := min xskRingProdDefaultNumDescs opt.bufnum

/-- Where the program is: before the initial fill, or before one of the calls of its loop. -/
inductive Pc
  | initialFill
  | service
  | tryRecv
  /-- `try_recv` returned this number, which is not 0. -/
  | swapMacs (n : Nat)
  | forward
  | fill
deriving DecidableEq, Repr

/-- How a packet was received, and how often `swap_macs` ran over it. -/
structure Origin where
  bytes : List UInt8
  swaps : Nat
deriving DecidableEq, Repr

/-- The state of the program. -/
structure L2fwd where
  sys : Sys Unit Unit Unit Unit
  pc : Pc
  fqDeficit : Nat
  pending : List Origin
  sent : List (Origin × List UInt8)

/-- The bytes of a buffer's packet: what the descriptor that is made of it points to. -/
def wireBytes (mem : Nat → UInt8) (b : BufMmap Unit) : List UInt8 := readAt mem b.addr b.len.toNat

/-- The pending packets. -/
def L2fwd.bufs (f : L2fwd) : List (BufMmap Unit) := (f.sys.deques ()).list

/-! ## Steps -/

/-- A step, with what libbpf and the kernel decide in it. -/
inductive L2Act
  | initialFill (granted : Bool)
  | service (grant : Nat)
  | tryRecv (grant : Nat)
  | swapMacs
  | forward (granted : Bool) (send : Sendto)
  | fill (granted : Bool)
  | kernel (k : KAct)
deriving DecidableEq

/-- One step of the program or of the kernel. -/
def l2step (opt : Opt) (f : L2fwd) : L2Act → Option (L2fwd × Unit)
  | .initialFill granted =>
    if f.pc = .initialFill then
      (step f.sys (.fill () () opt.initialFill granted)).bind fun r =>
        -- the program panics if the fill is incomplete
        if r.2.ret = opt.initialFill then some ({ f with sys := r.1, pc := .service }, ())
        else none
    else none
  | .service grant =>
    if f.pc = .service then
      (step f.sys (.service () () opt.batchSize grant)).map fun r =>
        ({ f with sys := r.1, pc := .tryRecv }, ())
    else none
  | .tryRecv grant =>
    if f.pc = .tryRecv then
      (step f.sys (.tryRecv () () opt.batchSize () grant)).map fun r =>
        ({ f with
            sys := r.1
            pc := if r.2.ret > 0 then .swapMacs r.2.ret else .forward
            -- the packets behind the ones that were pending before
            pending := f.pending ++ ((r.1.deques ()).list.drop f.bufs.length).map fun b =>
              ⟨wireBytes r.1.mem b, 0⟩ }, ())
    else none
  | .swapMacs =>
    match f.pc with
    | .swapMacs n =>
      match swapMacs f.sys.mem f.bufs with
      | .ok mem =>
        some ({ f with
          sys := { f.sys with mem }
          pc := .forward
          fqDeficit := f.fqDeficit + n
          pending := f.pending.map fun o => { o with swaps := o.swaps + 1 } }, ())
      | .error _ => none
    | _ => none
  | .forward granted send =>
    if f.pc = .forward then
      if f.bufs = [] then some ({ f with pc := .fill }, ())
      else
        (step f.sys (.trySend () () opt.batchSize granted send)).map fun r =>
          ({ f with
              sys := r.1
              pc := .fill
              pending := f.pending.drop r.2.ret
              sent := f.sent ++
                (f.pending.take r.2.ret).zip ((f.bufs.take r.2.ret).map (wireBytes f.sys.mem)) },
            ())
    else none
  | .fill granted =>
    if f.pc = .fill then
      if f.fqDeficit > 0 then
        (step f.sys (.fill () () f.fqDeficit granted)).map fun r =>
          ({ f with sys := r.1, pc := .service, fqDeficit := f.fqDeficit - r.2.ret }, ())
      else some ({ f with pc := .service }, ())
    else none
  | .kernel k => (step f.sys (.kernel () k)).map fun r => ({ f with sys := r.1 }, ())

/-- The program before its initial fill. -/
def L2fwd.start (s : Sys Unit Unit Unit Unit) : L2fwd := ⟨s, .initialFill, 0, [], []⟩

/-! ## What a step did -/

section
variable {opt : Opt} {f f' : L2fwd} {u : Unit}

theorem l2step_initialFill_inv {granted : Bool}
    (h : l2step opt f (.initialFill granted) = some (f', u)) :
    ∃ s out, f.pc = .initialFill ∧
      step f.sys (.fill () () opt.initialFill granted) = some (s, out) ∧
      f' = { f with sys := s, pc := .service } := by
  simp only [l2step] at h
  split at h
  · next hpc =>
      obtain ⟨r, hr, h⟩ := Option.bind_eq_some_iff.1 h
      split at h
      · cases h
        exact ⟨r.1, r.2, hpc, hr, rfl⟩
      · cases h
  · cases h

theorem l2step_service_inv {grant : Nat} (h : l2step opt f (.service grant) = some (f', u)) :
    ∃ s out, f.pc = .service ∧
      step f.sys (.service () () opt.batchSize grant) = some (s, out) ∧
      f' = { f with sys := s, pc := .tryRecv } := by
  simp only [l2step] at h
  split at h
  · next hpc =>
      obtain ⟨r, hr, h⟩ := Option.map_eq_some_iff.1 h
      cases h
      exact ⟨r.1, r.2, hpc, hr, rfl⟩
  · cases h

theorem l2step_tryRecv_inv {grant : Nat} (h : l2step opt f (.tryRecv grant) = some (f', u)) :
    ∃ s out, f.pc = .tryRecv ∧
      step f.sys (.tryRecv () () opt.batchSize () grant) = some (s, out) ∧
      f' = { f with
        sys := s
        pc := if out.ret > 0 then .swapMacs out.ret else .forward
        pending := f.pending ++ ((s.deques ()).list.drop f.bufs.length).map fun b =>
          ⟨wireBytes s.mem b, 0⟩ } := by
  simp only [l2step] at h
  split at h
  · next hpc =>
      obtain ⟨r, hr, h⟩ := Option.map_eq_some_iff.1 h
      cases h
      exact ⟨r.1, r.2, hpc, hr, rfl⟩
  · cases h

theorem l2step_swapMacs_inv (h : l2step opt f .swapMacs = some (f', u)) :
    ∃ n mem, f.pc = .swapMacs n ∧ swapMacs f.sys.mem f.bufs = .ok mem ∧
      f' = { f with
        sys := { f.sys with mem }
        pc := .forward
        fqDeficit := f.fqDeficit + n
        pending := f.pending.map fun o => { o with swaps := o.swaps + 1 } } := by
  simp only [l2step] at h
  split at h
  · next n hpc =>
      split at h
      · next mem hmem =>
          cases h
          exact ⟨n, mem, hpc, hmem, rfl⟩
      · cases h
  · cases h

/-- With nothing pending nothing is sent. -/
theorem l2step_forward_inv {granted : Bool} {send : Sendto}
    (h : l2step opt f (.forward granted send) = some (f', u)) :
    f.pc = .forward ∧ (f' = { f with pc := .fill } ∨ ∃ s out,
      step f.sys (.trySend () () opt.batchSize granted send) = some (s, out) ∧
      f' = { f with
        sys := s
        pc := .fill
        pending := f.pending.drop out.ret
        sent := f.sent ++
          (f.pending.take out.ret).zip ((f.bufs.take out.ret).map (wireBytes f.sys.mem)) }) := by
  simp only [l2step] at h
  split at h
  · next hpc =>
      split at h
      · cases h
        exact ⟨hpc, .inl rfl⟩
      · obtain ⟨r, hr, h⟩ := Option.map_eq_some_iff.1 h
        cases h
        exact ⟨hpc, .inr ⟨r.1, r.2, hr, rfl⟩⟩
  · cases h

/-- Without a deficit nothing is filled. -/
theorem l2step_fill_inv {granted : Bool} (h : l2step opt f (.fill granted) = some (f', u)) :
    f.pc = .fill ∧ (f' = { f with pc := .service } ∨ ∃ s out,
      step f.sys (.fill () () f.fqDeficit granted) = some (s, out) ∧
      f' = { f with sys := s, pc := .service, fqDeficit := f.fqDeficit - out.ret }) := by
  simp only [l2step] at h
  split at h
  · next hpc =>
      split at h
      · obtain ⟨r, hr, h⟩ := Option.map_eq_some_iff.1 h
        cases h
        exact ⟨hpc, .inr ⟨r.1, r.2, hr, rfl⟩⟩
      · cases h
        exact ⟨hpc, .inl rfl⟩
  · cases h

theorem l2step_kernel_inv {k : KAct} (h : l2step opt f (.kernel k) = some (f', u)) :
    ∃ s out, step f.sys (.kernel () k) = some (s, out) ∧ f' = { f with sys := s } := by
  simp only [l2step] at h
  obtain ⟨r, hr, h⟩ := Option.map_eq_some_iff.1 h
  cases h
  exact ⟨r.1, r.2, hr, rfl⟩

end

end Afxdp
