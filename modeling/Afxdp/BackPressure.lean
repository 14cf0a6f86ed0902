import Afxdp.SwapOnce

/-!
# The forwarder under back pressure

While the kernel takes nothing out of the Tx ring, each packet that is sent fills a slot of it. The
packet that finds the ring full stays in the deque, and the pass over the next one swaps it again.
So for all sizes the program can be brought to send a packet as it was received: the run
`backPressure` fills the ring, leaves a packet behind and then has the kernel make room
(`run_backPressure`). `L2fwd.Stage` is what is known of the state between two calls of such a run.
-/

namespace Afxdp

open Spsc (RingBuf)
open Mem (readAt)
open Run (run Leads)

/-! ## Two swaps -/

/-- The fields that are exchanged. -/
theorem swapBytes_append {dst src rest : List UInt8} (hdst : dst.length = 6)
    (hsrc : src.length = 6) : swapBytes (dst ++ src ++ rest) = src ++ dst ++ rest := by
  have hhead : (dst ++ src).length = 12 := by rw [List.length_append, hdst, hsrc]
  have hdrop : (dst ++ src ++ rest).drop 6 = src ++ rest := by
    rw [List.append_assoc, ← hdst, List.drop_left]
  have htake : (dst ++ src ++ rest).take 6 = dst := by
    rw [List.append_assoc, ← hdst, List.take_left]
  rw [swapBytes, hdrop, htake, ← hhead, List.drop_left, ← hsrc, List.take_left]

/-- A second swap undoes the first one. -/
theorem swapBytes_swapBytes {packet : List UInt8} (h : 12 ≤ packet.length) :
    swapBytes (swapBytes packet) = packet := by
  have hdst : (packet.take 6).length = 6 := List.length_take_of_le (by omega)
  have hsrc : ((packet.drop 6).take 6).length = 6 := by
    rw [List.length_take, List.length_drop]
    omega
  have hrest : packet.drop 12 = (packet.drop 6).drop 6 := by rw [List.drop_drop]
  rw [swapBytes.eq_def packet, swapBytes_append hsrc hdst, List.append_assoc, hrest,
    List.take_append_drop, List.take_append_drop]

/-- A packet whose first and seventh bytes differ is not the same after a swap. -/
theorem swapBytes_ne {packet : List UInt8} (h : 6 < packet.length)
    (hne : packet[0]? ≠ packet[6]?) : swapBytes packet ≠ packet := by
  intro heq
  have hfirst : (swapBytes packet)[0]? = packet[6]? := by
    rw [swapBytes, List.append_assoc, List.getElem?_append_left (by simp; omega),
      List.getElem?_take_of_lt (by decide), List.getElem?_drop]
  rw [heq] at hfirst
  exact hne hfirst

/-! ## Links -/

/-- A link whose kernel side holds no buffer to receive into and has received nothing, and can
receive a frame once `due` buffers are refilled. Of the `size` slots of its Tx ring `used` are
taken. -/
structure Link.Stage (due size used : Nat) (l : Link) : Prop where
  filled : 1 ≤ l.fq.used + due
  free : due ≤ l.fq.free
  krx : l.krx = []
  rx : l.rx.used = 0
  tx : l.tx.used = used
  size : l.tx.size = size
  wake : l.wake = false

section
variable {l : Link} {due size used : Nat}

theorem Link.Stage.rx_free (h : l.Stage due size used) : 1 ≤ l.rx.free := by
  have hsum := l.rx.used_add_free
  rw [h.rx, Nat.zero_add] at hsum
  exact hsum ▸ l.rx.size_pos

/-- The kernel takes a fill entry and publishes a descriptor, which `try_recv` takes. -/
theorem Link.Stage.receive {desc : XdpDesc} (h : l.Stage 0 size used) :
    Link.Stage 1 size used
      { l with fq := l.fq.release 1, rx := (l.rx.push desc).release 1 } := by
  have hpush := l.rx.push_prod (x := desc) h.rx_free
  have hrx := h.rx
  refine ⟨Nat.le_add_left _ _, ?_, h.krx, ?_, h.tx, h.size, h.wake⟩
  · show 1 ≤ (l.fq.release 1).free
    rw [RingBuf.release_free _ h.filled]
    exact Nat.le_add_left 1 _
  · show ((l.rx.push desc).release 1).used = 0
    rw [RingBuf.used] at hrx
    rw [RingBuf.release_used, RingBuf.used, hpush, RingBuf.push_cons]
    omega

/-- A `try_send` publishes some descriptors. -/
theorem Link.Stage.send {fs : List (XdpDesc → XdpDesc)} (h : l.Stage due size used)
    (hfs : fs.length ≤ l.tx.free) :
    Link.Stage due size (used + fs.length) { l with tx := l.tx.publish fs } := by
  refine ⟨h.filled, h.free, h.krx, h.rx, ?_, (RingBuf.publish_size _ _).trans h.size, h.wake⟩
  show (l.tx.publish fs).used = used + fs.length
  rw [RingBuf.publish_used _ _ hfs, h.tx]

/-- A `fill` publishes an address at least, and all that are due. -/
theorem Link.Stage.refill {fs : List (Nat → Nat)} (h : l.Stage due size used) (hfs : fs ≠ [])
    (hfree : fs.length ≤ l.fq.free) :
    Link.Stage 0 size used { l with fq := l.fq.publish fs } := by
  refine ⟨?_, Nat.zero_le _, h.krx, h.rx, h.tx, h.size, h.wake⟩
  have hpos := List.length_pos_of_ne_nil hfs
  show 1 ≤ (l.fq.publish fs).used + 0
  rw [RingBuf.publish_used _ _ hfree]
  omega

theorem Link.Stage.takeTx (h : l.Stage due size (used + 1)) :
    Link.Stage due size used { l with
      tx := l.tx.release 1, ktx := l.ktx ++ [(l.tx.cons, l.tx.entry l.tx.cons)] } := by
  refine ⟨h.filled, h.free, h.krx, h.rx, ?_, h.size, h.wake⟩
  show (l.tx.release 1).used = used
  rw [RingBuf.release_used, h.tx, Nat.add_sub_cancel]

end

/-! ## Steps that are possible -/

/-- The state with what a kernel step may change replaced. -/
def L2fwd.withKernel (f : L2fwd) (mem : Nat → UInt8) (l : Link) (h : Hist) : L2fwd :=
  { f with sys := { f.sys with mem := mem, link := fun _ => l, hist := fun _ => h } }

theorem L2fwd.withKernel_self {f : L2fwd} {l : Link} (hl : f.sys.link () = l) :
    f.withKernel f.sys.mem l (f.sys.hist ()) = f := by
  rw [← hl]
  rfl

section
variable (opt : Opt) {f : L2fwd}

theorem l2step_kernel {k : KAct} {mem mem' : Nat → UInt8} {l l' : Link} {h h' : Hist}
    (hk : kernelStep f.sys.area.bufLen mem l h k = some (mem', l', h')) :
    l2step opt (f.withKernel mem l h) (.kernel k) = some (f.withKernel mem' l' h', ()) := by
  simp only [l2step, step, stepIn, L2fwd.withKernel, hk, Option.map_some,
    Function.update_eq_const_of_subsingleton]
  rfl

/-- The kernel can receive the frame into the oldest fill entry. -/
theorem leads_receiveFrame {l : Link} (hl : f.sys.link () = l) (hlen : 270 ≤ f.sys.area.bufLen)
    (hfq : 1 ≤ l.fq.used) (hkrx : l.krx = []) (hrx : 1 ≤ l.rx.free) :
    ∃ s addr, Leads (l2step opt) f receiveFrame { f with sys := s } ∧
      s.area = f.sys.area ∧ s.vecs = f.sys.vecs ∧ s.deques = f.sys.deques ∧
      s.link () = { l with fq := l.fq.release 1, rx := l.rx.push ⟨addr, 14, 0⟩ } ∧
      s.mem addr = 1 ∧ s.mem (addr + 6) = 2 := by
  obtain ⟨a, ha⟩ : ∃ a, l.fq.entry l.fq.cons = a := ⟨_, rfl⟩
  obtain ⟨c, hc⟩ : ∃ c, a / f.sys.area.bufLen * f.sys.area.bufLen = c := ⟨_, rfl⟩
  have hwrite : ∀ mem h off byte, off < f.sys.area.bufLen →
      kernelStep f.sys.area.bufLen mem l h (.write 0 off byte) =
        some (Function.update mem (c + off) byte, l, h) := by
    intro mem h off byte hoff
    simp [kernelStep, l.fq.entries_eq_cons hfq, ha, hc, hoff]
  have htake : ∀ mem h, kernelStep f.sys.area.bufLen mem l h .takeFill =
      some (mem, { l with fq := l.fq.release 1, krx := [a] }, h) := by
    intro mem h
    simp [kernelStep, hfq, hkrx, ha]
  have hpublish : ∀ mem h, kernelStep f.sys.area.bufLen mem
      { l with fq := l.fq.release 1, krx := [a] } h (.publish 0 256 14 0) =
        some (mem, { l with fq := l.fq.release 1, rx := l.rx.push ⟨c + 256, 14, 0⟩ },
          { h with published := h.published ++ [readAt mem (c + 256) 14] }) := by
    intro mem h
    simp only [kernelStep, List.getElem?_cons_zero, hc, List.eraseIdx_cons_zero, ← hkrx]
    rw [if_pos ⟨by omega, by omega, hrx⟩]
  have hfirst := l2step_kernel opt (hwrite f.sys.mem (f.sys.hist ()) 256 1 (by omega))
  rw [L2fwd.withKernel_self hl] at hfirst
  have hseventh := l2step_kernel opt (hwrite (Function.update f.sys.mem (c + 256) 1)
    (f.sys.hist ()) 262 2 (by omega))
  obtain ⟨mem, hmem⟩ :
    ∃ mem, Function.update (Function.update f.sys.mem (c + 256) 1) (c + 262) 2 = mem := ⟨_, rfl⟩
  rw [hmem] at hseventh
  refine ⟨_, c + 256, .cons hfirst (.cons hseventh (.cons (l2step_kernel opt (htake mem _))
    (.single (l2step_kernel opt (hpublish mem _))))), rfl, rfl, rfl, rfl, ?_, ?_⟩
  · simp [← hmem]
  · simp [← hmem]

theorem l2step_service_zero (hpc : f.pc = .service) (hlen : 270 ≤ f.sys.area.bufLen) :
    ∃ s, l2step opt f (.service 0) = some ({ f with sys := s, pc := .tryRecv }, ()) ∧
      s.area = f.sys.area ∧ s.mem = f.sys.mem ∧ s.deques = f.sys.deques ∧
      s.link () = f.sys.link () ∧ (s.vecs ()).len = (f.sys.vecs ()).len := by
  have hreserved : afXdpReserved ≤ f.sys.area.bufLen := by
    rw [afXdpReserved]
    omega
  obtain ⟨tr, hstep⟩ := step_service f.sys () () opt.batchSize 0 hreserved
  have hzero : peekCount (f.sys.link ()).cq 0 (serviceRequest (f.sys.vecs ()) opt.batchSize) = 0 :=
    Nat.zero_min _
  rw [hzero] at hstep
  refine ⟨f.sys.afterService () () 0, ?_, rfl, rfl, rfl, ?_, ?_⟩
  · simp only [l2step, hpc, if_true, hstep, Option.map_some]
  · simp [Sys.afterService]
  · simp [Sys.afterService]

/-- The bytes of a buffer made of a descriptor. -/
theorem wireBytes_rxBufOf (mem : Nat → UInt8) (avail : Nat) (desc : XdpDesc)
    (h : desc.len < 2 ^ 16) :
    wireBytes mem (rxBufOf avail () desc) = readAt mem desc.addr desc.len := by
  rw [wireBytes, rxBufOf]
  simp only [UInt16.toNat_ofNat', Nat.mod_eq_of_lt h]

theorem l2step_tryRecv_one {addr : Nat} (hpc : f.pc = .tryRecv) (hlen : 270 ≤ f.sys.area.bufLen)
    (hrx : (f.sys.link ()).rx.entries = [⟨addr, 14, 0⟩])
    (hroom : f.bufs.length < (f.sys.deques ()).capacity) (hbatch : 1 ≤ opt.batchSize) :
    ∃ s b, l2step opt f (.tryRecv 1) = some ({ f with
        sys := s, pc := .swapMacs 1
        pending := f.pending ++ [⟨readAt f.sys.mem addr 14, 0⟩] }, ()) ∧
      s.area = f.sys.area ∧ s.mem = f.sys.mem ∧ s.vecs = f.sys.vecs ∧
      s.link () = { f.sys.link () with rx := (f.sys.link ()).rx.release 1 } ∧
      (s.deques ()).list = f.bufs ++ [b] ∧ (s.deques ()).capacity = (f.sys.deques ()).capacity ∧
      b.data.len = f.sys.area.bufLen - afXdpReserved := by
  have hreserved : afXdpReserved ≤ f.sys.area.bufLen := by
    rw [afXdpReserved]
    omega
  have hused : (f.sys.link ()).rx.used = 1 := by
    rw [← RingBuf.entries_length, hrx, List.length_singleton]
  have hone : recvCount f.sys () () opt.batchSize 1 = 1 := by
    have hlen : (f.sys.deques ()).len < (f.sys.deques ()).capacity := hroom
    rw [recvCount, peekCount, recvRequest, hused]
    omega
  have hbufs : f.sys.recvBufs () () 1 =
      [rxBufOf (f.sys.area.bufLen - afXdpReserved) () ⟨addr, 14, 0⟩] := by
    rw [Sys.recvBufs, hrx]
    rfl
  obtain ⟨tr, hstep⟩ := step_tryRecv f.sys () () opt.batchSize () 1 hreserved (by simp [hone, hrx])
  rw [hone] at hstep
  obtain ⟨hlist, hcapacity⟩ := (f.sys.deques ()).pushAll_eq (f.sys.recvBufs () () 1)
    (by rw [hbufs]; exact hroom)
  have hdeque : (f.sys.afterRecv () () () 1).deques () =
      (f.sys.deques ()).pushAll (f.sys.recvBufs () () 1) := by
    simp [Sys.afterRecv]
  rw [← hdeque] at hlist hcapacity
  refine ⟨f.sys.afterRecv () () () 1, rxBufOf (f.sys.area.bufLen - afXdpReserved) () ⟨addr, 14, 0⟩,
    ?_, rfl, rfl, rfl, by simp [Sys.afterRecv], hbufs ▸ hlist, hcapacity, rfl⟩
  have hwire := wireBytes_rxBufOf f.sys.mem (f.sys.area.bufLen - afXdpReserved) ⟨addr, 14, 0⟩
    (by simp)
  simp only [l2step, hpc, if_true, hstep, Option.map_some, L2fwd.bufs, hlist, List.drop_left, hbufs,
    List.map_singleton]
  rw [← hwire]
  rfl

theorem swapMacs_ok {T : Type} {bs : List (BufMmap T)} (mem : Nat → UInt8)
    (h : ∀ b ∈ bs, 12 ≤ b.data.len) : ∃ mem', swapMacs mem bs = .ok mem' := by
  induction bs generalizing mem with
  | nil => exact ⟨mem, rfl⟩
  | cons b bs ih =>
      obtain ⟨m, hm⟩ : ∃ m, swapMac mem b.data = .ok m :=
        ⟨_, if_pos (h b List.mem_cons_self)⟩
      obtain ⟨mem', hmem'⟩ := ih m fun x hx => h x (List.mem_cons_of_mem _ hx)
      refine ⟨mem', ?_⟩
      rw [swapMacs, hm]
      exact hmem'

/-- A pass runs over the packet. -/
def Origin.again (o : Origin) : Origin := { o with swaps := o.swaps + 1 }

theorem l2step_swapMacs_ok {n : Nat} (hpc : f.pc = .swapMacs n)
    (h : ∀ b ∈ f.bufs, 12 ≤ b.data.len) :
    ∃ mem, l2step opt f .swapMacs = some ({ f with
      sys := { f.sys with mem := mem }, pc := .forward, fqDeficit := f.fqDeficit + n
      pending := f.pending.map Origin.again }, ()) := by
  obtain ⟨mem, hmem⟩ := swapMacs_ok f.sys.mem h
  refine ⟨mem, ?_⟩
  simp only [l2step, hpc, hmem]
  rfl

end

/-! ## Stages of the loop -/

/-- The program before the call `pc`, with `due` buffers to refill, and `spare` free buffers or
more. -/
structure L2fwd.Stage (pc : Pc) (due size used spare : Nat) (f : L2fwd) : Prop where
  at_pc : f.pc = pc
  deficit : f.fqDeficit = due
  room : 270 ≤ f.sys.area.bufLen
  link : (f.sys.link ()).Stage due size used
  vec : spare ≤ (f.sys.vecs ()).len
  capacity : (f.sys.deques ()).capacity = pendingLen
  long : ∀ b ∈ f.bufs, 12 ≤ b.data.len

section
variable (opt : Opt) {f : L2fwd} {size used spare : Nat}

/-- A frame is received while `service` finds nothing. -/
theorem L2fwd.Stage.arrive (hf : f.Stage .service 0 size used spare) :
    ∃ s addr, Leads (l2step opt) f (receiveFrame ++ [.service 0])
        { f with sys := s, pc := .tryRecv } ∧
      s.area = f.sys.area ∧ (s.vecs ()).len = (f.sys.vecs ()).len ∧ s.deques = f.sys.deques ∧
      s.link () = { f.sys.link () with
        fq := (f.sys.link ()).fq.release 1, rx := (f.sys.link ()).rx.push ⟨addr, 14, 0⟩ } ∧
      (s.link ()).rx.entries = [⟨addr, 14, 0⟩] ∧ s.mem addr = 1 ∧ s.mem (addr + 6) = 2 := by
  obtain ⟨l, hl⟩ : ∃ l, f.sys.link () = l := ⟨_, rfl⟩
  have hstage := hf.link
  rw [hl] at hstage ⊢
  obtain ⟨s₁, addr, hframe, harea₁, hvecs₁, hdeques₁, hlink₁, hfirst, hseventh⟩ :=
    leads_receiveFrame opt hl hf.room hstage.filled hstage.krx hstage.rx_free
  obtain ⟨s₂, hservice, harea₂, hmem₂, hdeques₂, hlink₂, hvecs₂⟩ :=
    l2step_service_zero opt (f := { f with sys := s₁ }) hf.at_pc (harea₁ ▸ hf.room)
  have hlink : s₂.link () = { l with
      fq := l.fq.release 1, rx := l.rx.push ⟨addr, 14, 0⟩ } := hlink₂.trans hlink₁
  have hentries : (s₂.link ()).rx.entries = [⟨addr, 14, 0⟩] := by
    have hnone : l.rx.entries = [] :=
      List.length_eq_zero_iff.1 (l.rx.entries_length.trans hstage.rx)
    rw [hlink, l.rx.push_entries hstage.rx_free, hnone, List.nil_append]
  refine ⟨s₂, addr, hframe.append (.single hservice), harea₂.trans harea₁, ?_,
    hdeques₂.trans hdeques₁, hlink, hentries, ?_, ?_⟩
  · rw [hvecs₂, hvecs₁]
  · rw [hmem₂, hfirst]
  · rw [hmem₂, hseventh]

/-- The frame is received, and a pass runs over it and over what was pending before. -/
theorem L2fwd.Stage.receive (hf : f.Stage .service 0 size used spare)
    (hroom : f.bufs.length < pendingLen) (hbatch : 1 ≤ opt.batchSize) :
    ∃ f' bytes, Leads (l2step opt) f reception f' ∧ f'.Stage .forward 1 size used spare ∧
      f'.bufs.length = f.bufs.length + 1 ∧
      f'.pending = (f.pending ++ [(⟨bytes, 0⟩ : Origin)]).map Origin.again ∧
      bytes.length = 14 ∧ swapBytes bytes ≠ bytes := by
  obtain ⟨s₁, addr, harrive, harea₁, hvecs₁, hdeques₁, hlink₁, hentries, hfirst, hseventh⟩ :=
    hf.arrive opt
  have hroom₁ : (s₁.deques ()).list.length < (s₁.deques ()).capacity := by
    rw [hdeques₁, hf.capacity]
    exact hroom
  obtain ⟨s₂, b, hrecv, harea₂, hmem₂, hvecs₂, hlink₂, hlist, hcapacity, hdata⟩ :=
    l2step_tryRecv_one opt (f := { f with sys := s₁, pc := .tryRecv }) rfl (harea₁ ▸ hf.room)
      hentries hroom₁ hbatch
  have harea : s₂.area = f.sys.area := harea₂.trans harea₁
  have hbufs : (s₂.deques ()).list = f.bufs ++ [b] := by
    rw [hlist]
    exact congrArg (fun d => (d ()).list ++ [b]) hdeques₁
  have hlong : ∀ x ∈ (s₂.deques ()).list, 12 ≤ x.data.len := by
    intro x hx
    rw [hbufs, List.mem_append, List.mem_singleton] at hx
    rcases hx with hx | rfl
    · exact hf.long x hx
    · rw [hdata, ← harea₂, harea, afXdpReserved]
      exact Nat.le_sub_of_add_le (Nat.le_trans (by decide) hf.room)
  obtain ⟨mem, hpass⟩ := l2step_swapMacs_ok opt (n := 1)
    (f := { f with
      sys := s₂, pc := .swapMacs 1, pending := f.pending ++ [⟨readAt s₁.mem addr 14, 0⟩] })
    rfl hlong
  have hlink : (s₂.link ()).Stage 1 size used := by
    rw [hlink₂, hlink₁]
    exact hf.link.receive
  refine ⟨_, readAt s₁.mem addr 14, harrive.append (.cons hrecv (.single hpass)),
    ⟨rfl, congrArg (· + 1) hf.deficit, harea ▸ hf.room, hlink, ?_, ?_, hlong⟩, ?_, rfl,
    Mem.readAt_length _ _ _, ?_⟩
  · show spare ≤ (s₂.vecs ()).len
    rw [hvecs₂, hvecs₁]
    exact hf.vec
  · show (s₂.deques ()).capacity = pendingLen
    rw [hcapacity, hdeques₁]
    exact hf.capacity
  · show (s₂.deques ()).list.length = f.bufs.length + 1
    rw [hbufs, List.length_append, List.length_singleton]
  · refine swapBytes_ne (by simp) ?_
    simp [readAt, hfirst, hseventh]

/-- The pending packets are sent if the Tx ring has room for them, and stay otherwise. -/
theorem L2fwd.Stage.forward {request : Nat} (hf : f.Stage .forward 1 size used spare)
    (hne : f.bufs ≠ []) (hrequest : min f.bufs.length opt.batchSize = request) :
    ∃ f' n, (if used + request ≤ size then request else 0) = n ∧
      Leads (l2step opt) f [.forward true .sent] f' ∧ f'.Stage .fill 1 size (used + n) spare ∧
      f'.bufs = f.bufs.drop n ∧ f'.pending = f.pending.drop n ∧
      f'.sent = f.sent ++ (f.pending.take n).zip ((f.bufs.take n).map (wireBytes f.sys.mem)) := by
  have hasleep : (f.sys.link ()).wake ≠ true := by
    rw [hf.link.wake]
    decide
  obtain ⟨tr, hstep, -⟩ := step_trySend f.sys () () opt.batchSize true .sent
    fun _ hwake => absurd hwake hasleep
  obtain ⟨n, hn⟩ : ∃ n, (if used + request ≤ size then request else 0) = n := ⟨_, rfl⟩
  have hlen : (f.sys.deques ()).len = f.bufs.length := rfl
  have hcount : sendCount f.sys () () opt.batchSize true = n := by
    rw [sendCount, hlen, hrequest, grantCount_true, hf.link.tx, hf.link.size, hn]
  have hle : n ≤ f.bufs.length ∧ n ≤ (f.sys.link ()).tx.free := by
    have hgrant := grantCount_le (f.sys.link ()).tx true request
    rw [← hcount, sendCount, hlen, hrequest]
    exact ⟨Nat.le_trans hgrant.1 (hrequest ▸ Nat.min_le_left _ _), hgrant.2⟩
  rw [hcount] at hstep
  have hforward : l2step opt f (.forward true .sent) = some ({ f with
      sys := f.sys.afterSend () () n, pc := .fill
      pending := f.pending.drop n
      sent := f.sent ++ (f.pending.take n).zip ((f.bufs.take n).map (wireBytes f.sys.mem)) },
      ()) := by
    simp only [l2step, hf.at_pc, if_true, if_neg hne, hstep, Option.map_some]
  have hlink : ((f.sys.afterSend () () n).link ()).Stage 1 size (used + n) := by
    have htaken : (((f.sys.deques ()).list.take n).map storeDesc).length = n := by
      rw [List.length_map, List.length_take]
      exact Nat.min_eq_left hle.1
    have hsend := hf.link.send (Nat.le_trans (Nat.le_of_eq htaken) hle.2)
    rw [htaken] at hsend
    simpa [Sys.afterSend] using hsend
  have hdeque : (f.sys.afterSend () () n).deques () = (f.sys.deques ()).drop n := by
    simp [Sys.afterSend]
  have hbufs : ((f.sys.afterSend () () n).deques ()).list = f.bufs.drop n := by
    rw [hdeque]
    rfl
  refine ⟨_, n, hn, .single hforward, ⟨rfl, hf.deficit, hf.room, hlink, hf.vec, ?_, ?_⟩, hbufs,
    rfl, rfl⟩
  · show ((f.sys.afterSend () () n).deques ()).capacity = pendingLen
    rw [hdeque]
    exact hf.capacity
  · show ∀ b ∈ ((f.sys.afterSend () () n).deques ()).list, 12 ≤ b.data.len
    rw [hbufs]
    exact fun b hb => hf.long b (List.mem_of_mem_drop hb)

/-- A `fill` that takes buffers from the vector. -/
theorem Link.Stage.afterFill {s : Sys Unit Unit Unit Unit} {due n : Nat}
    (h : (s.link ()).Stage due size used) (hpos : 1 ≤ n) (hvec : n ≤ (s.vecs ()).len)
    (hfree : n ≤ (s.link ()).fq.free) : ((s.afterFill () () n).link ()).Stage 0 size used := by
  have htaken : ((((s.vecs ()).list.reverse.take n).map BufMmap.addr).map
      fun a (_ : Nat) => a).length = n := by
    rw [List.length_map, List.length_map, List.length_take, List.length_reverse]
    exact Nat.min_eq_left hvec
  have hrefill := h.refill (List.ne_nil_of_length_pos (Nat.lt_of_lt_of_eq hpos htaken.symm))
    (Nat.le_trans (Nat.le_of_eq htaken) hfree)
  simpa [Sys.afterFill] using hrefill

theorem afterFill_vec (s : Sys Unit Unit Unit Unit) (n : Nat) :
    ((s.afterFill () () n).vecs ()).len = (s.vecs ()).len - n := by
  simp only [Sys.afterFill, Function.update_self, Vec.dropLast, Vec.len, List.length_take]
  omega

/-- One buffer is refilled. -/
theorem L2fwd.Stage.fill (hf : f.Stage .fill 1 size used (spare + 1)) :
    ∃ f', Leads (l2step opt) f [.fill true] f' ∧ f'.Stage .service 0 size used spare ∧
      f'.bufs = f.bufs ∧ f'.pending = f.pending := by
  have hvec : 1 ≤ (f.sys.vecs ()).len := Nat.le_trans (Nat.le_add_left 1 spare) hf.vec
  obtain ⟨tr, hstep⟩ := step_fill f.sys () () f.fqDeficit true
  have hcount : grantCount (f.sys.link ()).fq true (min (f.sys.vecs ()).len f.fqDeficit) = 1 := by
    have hfree := hf.link.free
    have hsum := (f.sys.link ()).fq.used_add_free
    rw [hf.deficit, Nat.min_eq_right hvec, grantCount_true, if_pos (by omega)]
  rw [hcount] at hstep
  have hpos : f.fqDeficit > 0 := by
    rw [hf.deficit]
    decide
  have hfill : l2step opt f (.fill true) = some ({ f with
      sys := f.sys.afterFill () () 1, pc := .service, fqDeficit := f.fqDeficit - 1 }, ()) := by
    simp only [l2step, hf.at_pc, if_true, if_pos hpos, hstep, Option.map_some]
  refine ⟨_, .single hfill, ⟨rfl, congrArg (· - 1) hf.deficit, hf.room,
    hf.link.afterFill (Nat.le_refl 1) hvec hf.link.free, ?_, hf.capacity, hf.long⟩, rfl, rfl⟩
  show spare ≤ ((f.sys.afterFill () () 1).vecs ()).len
  rw [afterFill_vec]
  exact Nat.le_sub_of_add_le hf.vec

/-- The kernel takes a packet out of the Tx ring. -/
theorem L2fwd.Stage.takeTx {pc : Pc} {due : Nat} (hf : f.Stage pc due size (used + 1) spare) :
    ∃ f', Leads (l2step opt) f [.kernel .takeTx] f' ∧ f'.Stage pc due size used spare ∧
      f'.bufs = f.bufs ∧ f'.pending = f.pending := by
  obtain ⟨l, hl⟩ : ∃ l, f.sys.link () = l := ⟨_, rfl⟩
  have hlink := hf.link
  rw [hl] at hlink
  have htake : ∀ mem h, kernelStep f.sys.area.bufLen mem l h .takeTx = some (mem, { l with
      tx := l.tx.release 1, ktx := l.ktx ++ [(l.tx.cons, l.tx.entry l.tx.cons)] }, h) :=
    fun _ _ => if_pos (hlink.tx ▸ Nat.le_add_left 1 used)
  have hstep := l2step_kernel opt (htake f.sys.mem (f.sys.hist ()))
  rw [L2fwd.withKernel_self hl] at hstep
  exact ⟨_, .single hstep, ⟨hf.at_pc, hf.deficit, hf.room, hlink.takeTx, hf.vec, hf.capacity,
    hf.long⟩, rfl, rfl⟩

/-- The initial fill. -/
theorem L2fwd.Stage.start {e : Fin 32} (hsize : 270 ≤ opt.bufsize) (hnum : 1 ≤ opt.bufnum)
    (hfits : opt.initialFill ≤ 2 ^ e.val) :
    ∃ f, Leads (l2step opt) (.start (Sys.init ⟨opt.bufnum, opt.bufsize⟩ ()
        (MmapArea.chunkVec opt.bufnum opt.bufsize) e)) [.initialFill true] f ∧
      f.Stage .service 0 (2 ^ e.val) 0 (opt.bufnum - opt.initialFill) ∧ f.bufs = [] ∧
      f.pending = [] := by
  obtain ⟨s, hs⟩ : ∃ s : Sys Unit Unit Unit Unit, Sys.init ⟨opt.bufnum, opt.bufsize⟩ ()
      (MmapArea.chunkVec opt.bufnum opt.bufsize) e = s := ⟨_, rfl⟩
  have harea : s.area.bufLen = opt.bufsize := by
    rw [← hs]
    rfl
  have hvec : (s.vecs ()).len = opt.bufnum := by
    simp [← hs, Sys.init, MmapArea.chunkVec, Vec.len]
  have hdeque : s.deques () = ⟨[], pendingLen, Nat.zero_le _⟩ := by
    rw [← hs]
    rfl
  have hlink : s.link () = Link.init e := by
    rw [← hs]
    rfl
  have hfree : (s.link ()).fq.free = 2 ^ e.val := by
    rw [hlink]
    exact Nat.zero_add _
  -- nothing is filled yet, so as many buffers are due as are filled now
  have hstage : (s.link ()).Stage 1 (2 ^ e.val) 0 := by
    rw [hlink]
    exact ⟨Nat.le_refl 1, hlink ▸ hfree ▸ Nat.one_le_two_pow, rfl, rfl, rfl, rfl, rfl⟩
  have hle : opt.initialFill ≤ opt.bufnum := Nat.min_le_right _ _
  have hpos : 1 ≤ opt.initialFill := by
    rw [Opt.initialFill, xskRingProdDefaultNumDescs]
    omega
  obtain ⟨tr, hstep⟩ := step_fill s () () opt.initialFill true
  have hcount : grantCount (s.link ()).fq true (min (s.vecs ()).len opt.initialFill) =
      opt.initialFill := by
    rw [hvec, Nat.min_eq_right hle, grantCount_true, if_pos]
    rw [hlink]
    exact Nat.le_trans (Nat.le_of_eq (Nat.zero_add _)) hfits
  rw [hcount] at hstep
  have hinitial : l2step opt (.start s) (.initialFill true) = some ({ L2fwd.start s with
      sys := s.afterFill () () opt.initialFill, pc := .service }, ()) := by
    simp only [l2step, L2fwd.start, if_true, hstep, Option.bind_some]
  have hnone : (s.deques ()).list = [] := congrArg ArrayDeque.list hdeque
  rw [hs]
  refine ⟨_, .single hinitial, ⟨rfl, rfl, harea ▸ hsize, ?_, ?_,
    congrArg ArrayDeque.capacity hdeque, ?_⟩, hnone, rfl⟩
  · exact hstage.afterFill hpos (hvec ▸ hle) (hfree ▸ hfits)
  · show opt.bufnum - opt.initialFill ≤ ((s.afterFill () () opt.initialFill).vecs ()).len
    rw [afterFill_vec, hvec]
  · show ∀ b ∈ (s.deques ()).list, 12 ≤ b.data.len
    rw [hnone]
    exact fun b hb => absurd hb List.not_mem_nil

/-- While the Tx ring has room, an iteration sends the packet it receives. -/
theorem L2fwd.Stage.iteration_sent (hf : f.Stage .service 0 size used (spare + 1))
    (hbufs : f.bufs = []) (hpending : f.pending = []) (hused : used < size)
    (hbatch : 1 ≤ opt.batchSize) :
    ∃ f', Leads (l2step opt) f iteration f' ∧ f'.Stage .service 0 size (used + 1) spare ∧
      f'.bufs = [] ∧ f'.pending = [] := by
  obtain ⟨f₁, bytes, hrecv, hf₁, hlen, hpending₁, -, -⟩ :=
    hf.receive opt (by rw [hbufs]; decide) hbatch
  rw [hbufs, List.length_nil] at hlen
  rw [hpending] at hpending₁
  obtain ⟨f₂, n, hn, hsend, hf₂, hbufs₂, hpending₂, -⟩ :=
    hf₁.forward opt (List.ne_nil_of_length_pos (by omega)) rfl
  rw [hlen, Nat.zero_add, Nat.min_eq_left hbatch, if_pos (Nat.succ_le_of_lt hused)] at hn
  subst hn
  obtain ⟨f₃, hfill, hf₃, hbufs₃, hpending₃⟩ := hf₂.fill opt
  refine ⟨f₃, hrecv.append (hsend.append hfill), hf₃, ?_, ?_⟩
  · rw [hbufs₃, hbufs₂]
    exact List.drop_of_length_le (Nat.le_of_eq hlen)
  · rw [hpending₃, hpending₂, hpending₁]
    rfl

/-- The Tx ring can be filled. -/
theorem L2fwd.Stage.fillTx (hf : f.Stage .service 0 size 0 (spare + size)) (hbufs : f.bufs = [])
    (hpending : f.pending = []) (hbatch : 1 ≤ opt.batchSize) :
    ∃ f', Leads (l2step opt) f (List.replicate size iteration).flatten f' ∧
      f'.Stage .service 0 size size spare ∧ f'.bufs = [] ∧ f'.pending = [] := by
  have hiteration : ∀ k g, k < size →
      g.Stage .service 0 size k (spare + (size - k)) ∧ g.bufs = [] ∧ g.pending = [] →
      ∃ g', Leads (l2step opt) g iteration g' ∧
        g'.Stage .service 0 size (k + 1) (spare + (size - (k + 1))) ∧ g'.bufs = [] ∧
        g'.pending = [] := by
    rintro k g hk ⟨hg, hgbufs, hgpending⟩
    have hspare : spare + (size - k) = spare + (size - (k + 1)) + 1 := by omega
    rw [hspare] at hg
    exact hg.iteration_sent opt hgbufs hgpending hk hbatch
  obtain ⟨f', hrun, hf', hclear⟩ := Leads.replicate
    (I := fun k (g : L2fwd) =>
      g.Stage .service 0 size k (spare + (size - k)) ∧ g.bufs = [] ∧ g.pending = [])
    hiteration ⟨hf, hbufs, hpending⟩
  rw [Nat.sub_self] at hf'
  exact ⟨f', hrun, hf', hclear⟩

/-- A packet that finds the Tx ring full is swapped with the next one again, and sent. -/
theorem L2fwd.Stage.leftBehind {m : Nat} (hf : f.Stage .service 0 (m + 2) (m + 2) (spare + 1))
    (hbufs : f.bufs = []) (hpending : f.pending = []) (hbatch : 1 ≤ opt.batchSize) :
    ∃ f' bytes w, Leads (l2step opt) f
        (iteration ++ reception ++ [.kernel .takeTx, .kernel .takeTx, .forward true .sent]) f' ∧
      ((⟨bytes, 2⟩ : Origin), w) ∈ f'.sent ∧ bytes.length = 14 ∧ swapBytes bytes ≠ bytes := by
  obtain ⟨f₁, bytes, hrecv, hf₁, hlen₁, hpending₁, hbytes, hne⟩ :=
    hf.receive opt (by rw [hbufs]; decide) hbatch
  rw [hbufs, List.length_nil] at hlen₁
  rw [hpending] at hpending₁
  obtain ⟨f₂, n, hn, hsend, hf₂, hbufs₂, hpending₂, -⟩ :=
    hf₁.forward opt (List.ne_nil_of_length_pos (by omega)) rfl
  rw [hlen₁, Nat.zero_add, Nat.min_eq_left hbatch, if_neg (by omega)] at hn
  subst hn
  obtain ⟨f₃, hfill, hf₃, hbufs₃, hpending₃⟩ := hf₂.fill opt
  -- the packet is still pending
  have hlen₃ : f₃.bufs.length = 1 := by
    rw [hbufs₃, hbufs₂]
    exact hlen₁
  have hpending₃' : f₃.pending = [⟨bytes, 1⟩] := by
    rw [hpending₃, hpending₂, hpending₁]
    rfl
  obtain ⟨f₄, bytes', hrecv', hf₄, hlen₄, hpending₄, -, -⟩ :=
    hf₃.receive opt (by rw [hlen₃]; decide) hbatch
  rw [hpending₃'] at hpending₄
  rw [hlen₃] at hlen₄
  obtain ⟨f₅, htake, hf₅, hbufs₅, hpending₅⟩ := hf₄.takeTx opt
  obtain ⟨f₆, htake', hf₆, hbufs₆, hpending₆⟩ := hf₅.takeTx opt
  have hlen₆ : f₆.bufs.length = 2 := by
    rw [hbufs₆, hbufs₅]
    exact hlen₄
  obtain ⟨f₇, n, hn, hsend', -, -, -, hsent⟩ :=
    hf₆.forward opt (List.ne_nil_of_length_pos (by omega)) rfl
  rw [hlen₆, if_pos (by omega)] at hn
  obtain ⟨k, hk⟩ : ∃ k, n = k + 1 := ⟨n - 1, by omega⟩
  obtain ⟨b, bs, hbs⟩ := List.exists_cons_of_length_pos (l := f₆.bufs) (by omega)
  refine ⟨f₇, bytes, wireBytes f₆.sys.mem b, ?_, ?_, hbytes, hne⟩
  · exact (hrecv.append (hsend.append hfill)).append hrecv' |>.append
      (htake.append (htake'.append hsend'))
  · rw [hsent, hpending₆, hpending₅, hpending₄, hk, hbs]
    exact List.mem_append_right _ List.mem_cons_self

end

/-! ## The run -/

/-- With frames that arrive one by one, the kernel takes nothing out of the Tx ring until a packet
was left behind. -/
def backPressure (slots : Nat) : List L2Act :=
  .initialFill true :: (List.replicate slots iteration).flatten ++
    (iteration ++ reception ++ [.kernel .takeTx, .kernel .takeTx, .forward true .sent])

theorem backPressure_long (slots : Nat) : ∀ a ∈ backPressure slots, a.Long := by
  intro a ha
  have hiteration : ∀ a ∈ iteration, a.Long := by decide
  have hlast : ∀ a ∈ iteration ++ reception ++
      [.kernel .takeTx, .kernel .takeTx, .forward true .sent], a.Long := by decide
  rcases List.mem_append.1 ha with ha | ha
  · rcases List.mem_cons.1 ha with rfl | ha
    · trivial
    · obtain ⟨as, has, ha⟩ := List.mem_flatten.1 ha
      exact hiteration a (List.eq_of_mem_replicate has ▸ ha)
  · exact hlast a ha

/-- Take any options with room for a frame in a buffer, rings of any size from 2 on, and buffers
enough to fill the fill ring and the Tx ring. In the run a packet is swapped twice, and sent as it
was received. -/
theorem run_backPressure {opt : Opt} {e : Fin 32} (hsize : 270 ≤ opt.bufsize)
    (hbatch : 1 ≤ opt.batchSize) (he : 1 ≤ e.val) (hfits : opt.initialFill ≤ 2 ^ e.val)
    (hnum : opt.initialFill + 2 ^ e.val < opt.bufnum) :
    ∃ f us, run (l2step opt) (.start (Sys.init ⟨opt.bufnum, opt.bufsize⟩ ()
        (MmapArea.chunkVec opt.bufnum opt.bufsize) e)) (backPressure (2 ^ e.val)) = some (f, us) ∧
      ∃ q ∈ f.sent, q.1.swaps = 2 ∧ q.2 = q.1.bytes ∧ q.2 ≠ swapBytes q.1.bytes := by
  obtain ⟨m, hm⟩ : ∃ m, 2 ^ e.val = m + 2 := by
    have hle : 2 ^ 1 ≤ 2 ^ e.val := Nat.pow_le_pow_right (by decide) he
    exact ⟨2 ^ e.val - 2, by omega⟩
  obtain ⟨k, hk⟩ : ∃ k, opt.bufnum - opt.initialFill = k + 1 + (m + 2) :=
    ⟨opt.bufnum - opt.initialFill - (m + 2) - 1, by omega⟩
  obtain ⟨f₁, hinitial, hf₁, hbufs₁, hpending₁⟩ :=
    L2fwd.Stage.start opt hsize (Nat.le_of_lt_add_one (by omega)) hfits
  rw [hm, hk] at hf₁
  obtain ⟨f₂, hfilled, hf₂, hbufs₂, hpending₂⟩ := hf₁.fillTx opt hbufs₁ hpending₁ hbatch
  obtain ⟨f, bytes, w, hlast, hsent, hlen, hne⟩ := hf₂.leftBehind opt hbufs₂ hpending₂ hbatch
  obtain ⟨us, hrun⟩ := (hinitial.append hfilled).append hlast
  rw [hm]
  refine ⟨f, us, hrun, _, hsent, rfl, ?_⟩
  have hreserved : afXdpReserved < opt.bufsize := Nat.lt_of_lt_of_le (by decide) hsize
  have hstart := L2fwd.tracked_start hreserved (List.Subperm.refl _)
    (Sys.init_start ⟨opt.bufnum, opt.bufsize⟩ () (MmapArea.chunkVec opt.bufnum opt.bufsize) e)
  have htracked := run_swaps (by exact hreserved) (backPressure_long (m + 2)) hstart hrun
  have hw : w = swapBytes (swapBytes bytes) := htracked.sent _ hsent
  rw [swapBytes_swapBytes (by omega)] at hw
  exact ⟨hw, hw ▸ hne.symm⟩

/-- The run with the options and the ring size that the program has by default. -/
theorem leftover_sent_unswapped :
    ∃ f us, run (l2step {}) (.start (Sys.init ⟨65536, 2048⟩ () (MmapArea.chunkVec 65536 2048) 11))
        (backPressure 2048) = some (f, us) ∧
      ∃ q ∈ f.sent, q.1.swaps = 2 ∧ q.2 = q.1.bytes ∧ q.2 ≠ swapBytes q.1.bytes :=
  run_backPressure (by decide) (by decide) (by decide) (by decide) (by decide)

end Afxdp
