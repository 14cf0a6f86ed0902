import Afxdp.Conservation
import Afxdp.Framing

/-!
# The data path refines copying channels

From outside a socket is two FIFO channels that copy bytes: what the application sends comes to the
kernel, and what the kernel receives comes to the application (`Hist.Fifo`). The crate copies
nothing. A packet under way is a descriptor in a ring; its bytes stay in the area, and others write
to the area meanwhile. `Link.Carries` is the relation between the two: the bytes at the descriptors
under way are the packets that the channels took in and did not deliver yet.

A write keeps the relation because it goes to a chunk in a place where someone may write
(`Place.Writable`), and a chunk is in one place only (`Sys.Carries.write`). This needs slices that
end in their chunks, so the result is about runs of lawful steps (`run_channels`). Where a packet
head was moved beyond `AF_XDP_RESERVED` the slice reaches into the next chunk, and the application
changes a packet under way (`crossRun_not_fifo`).
-/

namespace Afxdp

open Spsc (RingBuf)
open Mem (readAt)
open Run (run run_invariant)

/-! ## The channels -/

/-- What was read for the first descriptors, at whatever moment, is a prefix of what was sent, and
what was received is a prefix of what was published. -/
structure Hist.Fifo (h : Hist) : Prop where
  tx : ∀ rs : List (List UInt8), (∀ j (hj : j < rs.length), (j, rs[j]) ∈ h.read) →
    rs.map some <+: h.sent
  rx : h.pushed <+: h.published.map some

/-- The bytes at the descriptors under way are the packets that were taken in and not delivered. -/
structure Link.Carries (mem : Nat → UInt8) (l : Link) (h : Hist) : Prop where
  sent_length : h.sent.length = l.tx.prod
  flight : ∀ q ∈ l.inFlight, h.sent[q.1]? = some (some (readAt mem q.2.addr q.2.len))
  read : ∀ q ∈ h.read, h.sent[q.1]? = some (some q.2)
  recv : h.published.map some =
    h.pushed ++ l.rx.entries.map fun e => some (readAt mem e.addr e.len)

theorem Link.Carries.fifo {mem : Nat → UInt8} {l : Link} {h : Hist} (hc : l.Carries mem h) :
    h.Fifo where
  tx rs hrs := by
    rw [List.prefix_iff_getElem?]
    intro j hj
    rw [List.length_map] at hj
    rw [List.getElem_map]
    exact hc.read _ (hrs j hj)
  rx := ⟨_, hc.recv.symm⟩

/-! ## Writes -/

/-- A write to another chunk is not seen in a framed packet. -/
theorem Framed.readAt_update {area : MmapArea} {lo addr len x : Nat} (h : Framed area lo addr len)
    (hx : x / area.bufLen ≠ addr / area.bufLen) (mem : Nat → UInt8) (byte : UInt8) :
    readAt (Function.update mem x byte) addr len = readAt mem addr len := by
  refine Mem.readAt_update fun hhas => hx ?_
  obtain ⟨h1, h2⟩ := h.inside
  exact Nat.div_eq_of_lt_le (Nat.le_trans h1 hhas.1) (Nat.lt_of_lt_of_le hhas.2 h2)

section
variable {ι ν δ T : Type}

/-- The places whose buffers someone may write to: the application, or the kernel when it
receives. -/
def Place.Writable : Place ι ν δ → Prop
  | .coll _ | .link _ .fill | .link _ .krx => True
  | .link _ .rx | .link _ .tx | .link _ .ktx | .link _ .comp => False

/-- Every link carries its packets. -/
def Sys.Carries (s : Sys ι ν δ T) : Prop := ∀ i, (s.link i).Carries s.mem (s.hist i)

variable {s s' : Sys ι ν δ T} {area : MmapArea} {lo : Nat} {S : Finset Nat}

/-- A chunk with a packet under way is in no place where someone may write. -/
theorem Conserved.not_writable (hc : Conserved area S s) {p : Place ι ν δ} (hp : p.Writable)
    {x a : Nat} (hx : x / area.bufLen ∈ s.chunks p) {i : ι} {q : Side}
    (hq : ¬ (Place.link i q : Place ι ν δ).Writable) (ha : a ∈ (s.link i).addrs q) :
    x / area.bufLen ≠ a / area.bufLen := by
  intro heq
  have hmem : a / area.bufLen ∈ s.chunks (.link i q) := by
    rw [← hc.areaEq]
    exact Multiset.mem_coe.2 (List.mem_map_of_mem ha)
  obtain rfl := hc.custody.excl _ _ _ hx (heq ▸ hmem)
  exact hq hp

/-- A write in a place where someone may write keeps all packets under way. -/
theorem Sys.Carries.write (hs : s.Carries) (hf : s.Framed area lo) (hc : Conserved area S s)
    {p : Place ι ν δ} (hp : p.Writable) {x : Nat} (hx : x / area.bufLen ∈ s.chunks p)
    (byte : UInt8) : Sys.Carries { s with mem := Function.update s.mem x byte } := by
  intro i
  refine ⟨(hs i).sent_length, ?_, (hs i).read, ?_⟩
  · intro q hq
    have hne : x / area.bufLen ≠ q.2.addr / area.bufLen := by
      rcases Link.mem_inFlight.1 hq with hk | ⟨c, h1, h2, rfl⟩
      · exact hc.not_writable hp hx (i := i) (q := .ktx) id (List.mem_map_of_mem hk)
      · exact hc.not_writable hp hx (i := i) (q := .tx) id
          (List.mem_map_of_mem ((s.link i).tx.mem_entries.2 ⟨c, h1, h2, rfl⟩))
    rw [(hs i).flight q hq, ((hf.link i).tx q hq).1.readAt_update hne]
  · rw [(hs i).recv]
    refine congrArg _ (List.map_congr_left ?_)
    intro e he
    have hne := hc.not_writable hp hx (i := i) (q := .rx) id (List.mem_map_of_mem he)
    rw [((hf.link i).rx e he).readAt_update hne]

/-- A link that was never used carries nothing. -/
theorem Link.Fresh.carries {l : Link} (hl : l.Fresh) (mem : Nat → UInt8) :
    l.Carries mem ⟨[], [], [], []⟩ := by
  refine ⟨hl.tx.symm, ?_, fun q hq => absurd hq List.not_mem_nil, ?_⟩
  · intro q hq
    have hused := l.tx.cons_le
    rw [hl.tx] at hused
    rcases Link.mem_inFlight.1 hq with hk | ⟨c, h1, h2, -⟩
    · rw [hl.ktx] at hk
      cases hk
    · rw [hl.tx] at h2
      omega
  · rw [l.rx.entries_eq_nil hl.rx]
    rfl

/-! ## Steps of the kernel -/

/-- The steps of the kernel that write no byte keep what a link carries. -/
theorem Link.Carries.kernelStep {bufLen : Nat} {mem mem' : Nat → UInt8} {l l' : Link}
    {h h' : Hist} {k : KAct} (hc : l.Carries mem h) (hw : ∀ j off byte, k ≠ .write j off byte)
    (hk : Afxdp.kernelStep bufLen mem l h k = some (mem', l', h')) :
    mem' = mem ∧ l'.Carries mem h' := by
  cases k with
  | takeFill =>
    obtain ⟨-, hr⟩ := kernelStep_takeFill hk
    cases hr
    exact ⟨rfl, hc.sent_length, hc.flight, hc.read, hc.recv⟩
  | write j off byte => exact absurd rfl (hw j off byte)
  | publish j o len options =>
    obtain ⟨a, -, -, -, hf, hr⟩ := kernelStep_publish hk
    cases hr
    refine ⟨rfl, hc.sent_length, hc.flight, hc.read, ?_⟩
    rw [RingBuf.push_entries _ hf, List.map_append, List.map_append, hc.recv, List.append_assoc]
    rfl
  | takeTx =>
    obtain ⟨hu, hr⟩ := kernelStep_takeTx hk
    cases hr
    exact ⟨rfl, hc.sent_length, fun q hq => hc.flight q (Link.inFlight_takeTx hu hq), hc.read,
      hc.recv⟩
  | readTx j =>
    obtain ⟨c, d, hd, hr⟩ := kernelStep_readTx hk
    cases hr
    refine ⟨rfl, hc.sent_length, hc.flight, ?_, hc.recv⟩
    intro q hq
    rcases List.mem_append.1 hq with hq | hq
    · exact hc.read q hq
    · rw [List.mem_singleton] at hq
      rw [hq]
      exact hc.flight _ hd
  | complete j =>
    obtain ⟨c, d, hd, -, hr⟩ := kernelStep_complete hk
    cases hr
    exact ⟨rfl, hc.sent_length, fun q hq => hc.flight q (Link.inFlight_complete hq), hc.read,
      hc.recv⟩
  | setWake b =>
    have hr := kernelStep_setWake hk
    cases hr
    exact ⟨rfl, hc.sent_length, hc.flight, hc.read, hc.recv⟩

/-! ## Steps of the calls -/

variable [DecidableEq ι] {i : ι}

/-- Every link carries its packets if the changed one does. -/
theorem Sys.Carries.link_update (hs : s.Carries) {l : Link} {h : Hist}
    (hl : l.Carries s.mem h) (j : ι) :
    (Function.update s.link i l j).Carries s.mem (Function.update s.hist i h j) := by
  rcases eq_or_ne j i with rfl | hj
  · rw [Function.update_self, Function.update_self]
    exact hl
  · rw [Function.update_of_ne hj, Function.update_of_ne hj]
    exact hs j

/-- The same where the history stays. -/
theorem Sys.Carries.link_update_same (hs : s.Carries) {l : Link}
    (hl : l.Carries s.mem (s.hist i)) (j : ι) :
    (Function.update s.link i l j).Carries s.mem (s.hist j) := by
  have h := hs.link_update (i := i) hl j
  rwa [Function.update_eq_self] at h

variable [DecidableEq δ]

/-- `try_send` takes packets into the Tx channel: the descriptors it publishes are read as what
the buffers held. -/
theorem Sys.Carries.afterSend (hs : s.Carries) (hf : s.Framed area lo) {d : δ} {n : Nat}
    (hn : n ≤ (s.deques d).len) (hfree : n ≤ (s.link i).tx.free) :
    (s.afterSend i d n).Carries := by
  have hc := hs i
  have hlen : ((s.deques d).list.take n).length = n := by
    rw [List.length_take]
    exact Nat.min_eq_left hn
  have hfs : (((s.deques d).list.take n).map storeDesc).length ≤ (s.link i).tx.free := by
    rwa [List.length_map, hlen]
  refine hs.link_update ⟨?_, ?_, ?_, hc.recv⟩
  · show List.length (_ ++ _) = ((s.link i).tx.publish _).prod
    rw [RingBuf.publish_prod _ _ hfs, List.length_append, List.length_map, List.length_map,
      hc.sent_length]
  · intro q hq
    rcases Link.inFlight_publish hfs hq with hq | ⟨k, hk, rfl⟩
    · have hold := hc.flight q hq
      exact (List.getElem?_append_left (List.getElem?_eq_some_iff.1 hold).1).trans hold
    · rw [List.length_map] at hk
      have hb := List.mem_of_mem_take (List.getElem_mem hk)
      have hsent := hc.sent_length
      rw [List.getElem?_append_right (by omega), hsent, Nat.add_sub_cancel_left,
        List.getElem?_map, List.getElem?_eq_getElem hk, Option.map_some, List.getElem_map]
      exact congrArg some ((hf.held (.deque d) _ hb).packet_eq s.mem)
  · intro q hq
    have hold := hc.read q hq
    exact (List.getElem?_append_left (List.getElem?_eq_some_iff.1 hold).1).trans hold

/-- `try_recv` delivers packets of the Rx channel: the oldest that were not delivered. -/
theorem Sys.Carries.afterRecv (hs : s.Carries) (hf : s.Framed area lo) {d : δ} {user : T}
    {n : Nat} (hn : n ≤ (s.link i).rx.used)
    (hdesc : ∀ e ∈ (s.link i).rx.entries.take n, e.len < 2 ^ 16) :
    (s.afterRecv i d user n).Carries := by
  have hc := hs i
  refine hs.link_update ⟨hc.sent_length, hc.flight, hc.read, ?_⟩
  have hpush : (s.recvBufs i user n).map (BufMmap.packet · s.mem) =
      ((s.link i).rx.entries.take n).map fun e => some (readAt s.mem e.addr e.len) := by
    rw [Sys.recvBufs, List.map_map]
    refine List.map_congr_left ?_
    intro e he
    have hlen : (UInt16.ofNat e.len).toNat = e.len := Nat.mod_eq_of_lt (hdesc e he)
    have hb := rxBufOf_framed user ((hf.link i).rx e (List.mem_of_mem_take he)) (hdesc e he)
    rw [Function.comp_apply, hf.areaEq, hb.packet_eq]
    show some (readAt s.mem e.addr (UInt16.ofNat e.len).toNat) = _
    rw [hlen]
  show (s.hist i).published.map some = _ ++ ((s.link i).rx.release n).entries.map _
  rw [hpush, RingBuf.release_entries _ hn, hc.recv, List.append_assoc, ← List.map_append,
    List.take_append_drop]

/-! ## Runs -/

variable [DecidableEq ν] [Inhabited T]

/-- A step over framed buffers in sole custody keeps what every link carries. -/
theorem Sys.Carries.step {a : Act ι ν δ T} {out : Out} (hlen : afXdpReserved < area.bufLen)
    (hs : s.Carries) (hf : s.Framed area lo) (hc : Conserved area S s)
    (h : Afxdp.step s a = some (s', out)) : s'.Carries := by
  have hlen' : afXdpReserved ≤ s.area.bufLen := by
    rw [hf.areaEq]
    exact Nat.le_of_lt hlen
  cases a with
  | fill i v batchSize granted =>
    obtain ⟨rfl, -⟩ := step_fill_inv h
    have hl := hs i
    exact hs.link_update_same ⟨hl.sent_length, hl.flight, hl.read, hl.recv⟩
  | tryRecv i d batchSize user grant =>
    obtain ⟨rfl, hret, hdesc⟩ := step_tryRecv_inv hlen' h
    obtain ⟨h1, -⟩ := recvCount_le s i d batchSize grant
    exact hs.afterRecv hf (by omega) hdesc
  | trySend i d batchSize granted send =>
    obtain ⟨rfl, hret, -⟩ := step_trySend_inv h
    obtain ⟨h1, h2⟩ := grantCount_le (s.link i).tx granted (min (s.deques d).len batchSize)
    rw [← sendCount, ← hret] at h1 h2
    exact hs.afterSend hf (by omega) h2
  | service i v batchSize grant =>
    obtain ⟨rfl, -⟩ := step_service_inv hlen' h
    have hl := hs i
    exact hs.link_update_same ⟨hl.sent_length, hl.flight, hl.read, hl.recv⟩
  | move c j c' k spare =>
    obtain ⟨-, -, -, -, hm, hl, hh⟩ := step_move_inv h
    intro i
    rw [hm, hl, hh]
    exact hs i
  | setLen c j len =>
    obtain ⟨-, -, -, -, -, -, rfl, -⟩ := step_modify_inv (.inl ⟨len, rfl⟩) h
    intro i
    rw [Sys.setColl_mem, Sys.setColl_link, Sys.setColl_hist]
    exact hs i
  | setUser c j user =>
    obtain ⟨-, -, -, -, -, -, rfl, -⟩ := step_modify_inv (.inr ⟨user, rfl⟩) h
    intro i
    rw [Sys.setColl_mem, Sys.setColl_link, Sys.setColl_hist]
    exact hs i
  | write c j off byte =>
    obtain ⟨b, hb, ho, rfl⟩ := step_write_inv h
    have hb' := List.mem_of_getElem? hb
    refine hs.write hf hc (p := .coll c) trivial ?_ byte
    -- the slice ends in the chunk of the buffer
    obtain ⟨h1, h2⟩ := (hf.held c b hb').inside
    have hchunk : (b.data.start + off) / area.bufLen = b.addr / area.bufLen :=
      Nat.div_eq_of_lt_le (by omega) (by omega)
    rw [hchunk, ← hc.areaEq]
    exact Multiset.mem_coe.2 (List.mem_map_of_mem (List.mem_map_of_mem hb'))
  | kernel i k =>
    obtain ⟨mem, l, hi, hk, rfl⟩ := step_kernel_inv h
    by_cases hw : ∃ j off byte, k = .write j off byte
    · obtain ⟨j, off, byte, rfl⟩ := hw
      obtain ⟨a, ha, ho, hr⟩ := kernelStep_write hk
      cases hr
      rw [hc.areaEq] at ho ⊢
      have hchunk : (a / area.bufLen * area.bufLen + off) / area.bufLen = a / area.bufLen :=
        Mem.cell_of_offset ho
      have hwrite : ∀ p : Place ι ν δ, p.Writable → a / area.bufLen ∈ s.chunks p →
          Sys.Carries { s with
            mem := Function.update s.mem (a / area.bufLen * area.bufLen + off) byte } := by
        intro p hp hx
        exact hs.write hf hc hp (by rwa [hchunk]) byte
      simp only [Function.update_eq_self]
      rcases List.mem_append.1 ha with ha | ha
      · exact hwrite (.link i .fill) trivial
          (by rw [← hc.areaEq]; exact Multiset.mem_coe.2 (List.mem_map_of_mem ha))
      · exact hwrite (.link i .krx) trivial
          (by rw [← hc.areaEq]; exact Multiset.mem_coe.2 (List.mem_map_of_mem ha))
    · obtain ⟨rfl, hl⟩ := (hs i).kernelStep (fun j off byte hkw => hw ⟨j, off, byte, hkw⟩) hk
      exact hs.link_update hl

/-- `try_recv` appends to its deque, leaves what was in it and every other deque alone, and what it
appends are the packets it delivers. -/
theorem step_tryRecv_appends {d : δ} {batchSize grant : Nat} {user : T} {out : Out}
    (hlen : afXdpReserved ≤ s.area.bufLen)
    (h : Afxdp.step s (.tryRecv i d batchSize user grant) = some (s', out)) :
    ∃ bs, bs.length = out.ret ∧ (s'.deques d).list = (s.deques d).list ++ bs ∧
      (∀ e, e ≠ d → s'.deques e = s.deques e) ∧
      (s'.hist i).pushed = (s.hist i).pushed ++ bs.map (BufMmap.packet · s.mem) := by
  obtain ⟨rfl, hret, -⟩ := step_tryRecv_inv hlen h
  obtain ⟨h1, h2⟩ := recvCount_le s i d batchSize grant
  rw [← hret] at h1 h2
  refine ⟨s.recvBufs i user out.ret, ?_, ?_, fun e he => Function.update_of_ne he _ _, ?_⟩
  · rw [recvBufs_length, Nat.min_eq_left h1]
  · have hcoll := congrFun (afterRecv_coll d user h1 h2) (.deque d)
    rw [Function.update_self] at hcoll
    exact hcoll
  · show (Function.update s.hist i _ i).pushed = _
    rw [Function.update_self]

/-- Take an area that `new` made and any run over it in which the kernel publishes packets at
offsets of at most `AF_XDP_RESERVED` that leave as much room in the chunk. Then every link is a
pair of FIFO channels: the byte strings the kernel read for the first descriptors, each at any
moment while the descriptor was in flight, are a prefix of the packets that were sent, and the
packets that were received are a prefix of those the kernel published. And no `try_recv` evicts or
reorders what is in its deque. -/
theorem run_channels {p : Profile} {mmap : Nat → Nat → Bool} {bufNum bufLen : Nat}
    {options : MmapAreaOptions} {w : Vec (BufMmap T)} {s₀ : Sys ι ν δ T} {v₀ : ν}
    {as : List (Act ι ν δ T)} {outs : List Out} (hlen : afXdpReserved < bufLen)
    (hsize : bufNum * bufLen < 2 ^ 64)
    (hnew : MmapArea.new p mmap bufNum bufLen options = .ok (.ok (area, w)))
    (hs : s₀.Start area v₀ w)
    (hlaw : ∀ i j o len opts, .kernel i (.publish j o len opts) ∈ as →
      o ≤ afXdpReserved ∧ len + afXdpReserved ≤ bufLen)
    (hrun : Run.run Afxdp.step s₀ as = some (s, outs)) :
    (∀ i, (s.hist i).Fifo) ∧
    ∀ i d batchSize user grant s' out,
      Afxdp.step s (.tryRecv i d batchSize user grant) = some (s', out) →
        ∃ bs, bs.length = out.ret ∧ (s'.deques d).list = (s.deques d).list ++ bs ∧
          (∀ e, e ≠ d → s'.deques e = s.deques e) ∧
          (s'.hist i).pushed = (s.hist i).pushed ++ bs.map (BufMmap.packet · s.mem) := by
  obtain ⟨rfl, rfl⟩ := MmapArea.new_inv hsize (Nat.le_of_lt hlen) hnew
  have hlawful : ∀ a ∈ as, a.Lawful ⟨bufNum, bufLen⟩ 0 := by
    intro a ha
    unfold Act.Lawful
    split
    · next i j o len opts => exact ⟨Nat.zero_le _, hlaw i j o len opts ha⟩
    · trivial
  have hcarries₀ : s₀.Carries := by
    intro i
    rw [hs.hist i]
    exact (hs.link i).carries s₀.mem
  obtain ⟨S, hc₀⟩ : ∃ S, Conserved ⟨bufNum, bufLen⟩ S s₀ :=
    ⟨_, Conserved.start hlen (List.Subperm.refl _) hs⟩
  have hf₀ : s₀.Framed ⟨bufNum, bufLen⟩ 0 :=
    Sys.Framed.start hlen (Nat.zero_le _) (List.Subperm.refl _) hs
  have hinv : Conserved ⟨bufNum, bufLen⟩ S s ∧ s.Framed ⟨bufNum, bufLen⟩ 0 ∧ s.Carries := by
    refine run_invariant (I := fun s => Conserved ⟨bufNum, bufLen⟩ S s ∧
      s.Framed ⟨bufNum, bufLen⟩ 0 ∧ s.Carries) (Q := Act.Lawful ⟨bufNum, bufLen⟩ 0) ?_
      ⟨hc₀, hf₀, hcarries₀⟩ hlawful hrun
    rintro t a t' out ha ⟨hc, hf, hcar⟩ hstep
    exact ⟨hc.step hlen hstep, hf.step (Nat.le_of_lt hlen) ha hstep, hcar.step hlen hf hc hstep⟩
  obtain ⟨hc, -, hcar⟩ := hinv
  refine ⟨fun i => (hcar i).fifo, ?_⟩
  intro i d batchSize user grant s' out hstep
  refine step_tryRecv_appends ?_ hstep
  rw [hc.areaEq]
  exact Nat.le_of_lt hlen

end

/-- A packet received at the offset `o` into one buffer while the packet `[0]` of the other one is
sent; the application then stores a byte to the received buffer, and the kernel reads the packet
it was sent. -/
def crossRun (o off : Nat) : List (Act Unit Unit Unit Unit) :=
  [.move (.vec ()) 1 (.deque ()) 0 0, .setLen (.deque ()) 0 1, .fill () () 1 true,
    .kernel () .takeFill, .kernel () (.publish 0 o 1 0), .trySend () () 8 true .sent,
    .tryRecv () () 8 () 1, .write (.deque ()) 0 off 7, .kernel () (.readTx 0)]

theorem run_channels_crossRun :
    ∃ s outs, run step (Sys.init ⟨2, 2048⟩ () (MmapArea.chunkVec 2 2048) 4) (crossRun 256 1280) =
        some (s, outs) ∧
      (∀ i, (s.hist i).Fifo) ∧
      ∀ i d batchSize user grant s' out,
        step s (.tryRecv i d batchSize user grant) = some (s', out) →
          ∃ bs, bs.length = out.ret ∧ (s'.deques d).list = (s.deques d).list ++ bs ∧
            (∀ e, e ≠ d → s'.deques e = s.deques e) ∧
            (s'.hist i).pushed = (s.hist i).pushed ++ bs.map (BufMmap.packet · s.mem) := by
  have hnew : MmapArea.new (T := Unit) .release (fun _ _ => true) 2 2048 {} =
      .ok (.ok (⟨2, 2048⟩, MmapArea.chunkVec 2 2048)) :=
    MmapArea.new_ok (by decide) (by decide) rfl
  have hsome : (run step (Sys.init ⟨2, 2048⟩ () (MmapArea.chunkVec 2 2048) 4)
      (crossRun 256 1280)).isSome := by
    decide +kernel
  obtain ⟨⟨s, outs⟩, hrun⟩ := Option.isSome_iff_exists.1 hsome
  refine ⟨s, outs, hrun, run_channels (by decide) (by decide) hnew (Sys.init_start _ _ _ _) ?_ hrun⟩
  intro i j o len opts hmem
  simp [crossRun] at hmem
  obtain ⟨-, rfl, rfl, -⟩ := hmem
  decide

/-- With the packet head moved to the offset 1024 the slice of the received buffer reaches into the
next chunk, and the byte is stored over the packet that is under way. -/
theorem crossRun_not_fifo :
    ∃ s outs, run step (Sys.init ⟨2, 2048⟩ () (MmapArea.chunkVec 2 2048) 4) (crossRun 1024 1280) =
        some (s, outs) ∧ ¬ (s.hist ()).Fifo := by
  have hsome : ((run step (Sys.init ⟨2, 2048⟩ () (MmapArea.chunkVec 2 2048) 4)
      (crossRun 1024 1280)).map fun q => ((q.1.hist ()).sent, (q.1.hist ()).read)) =
      some ([some [0]], [(0, [7])]) := by
    decide +kernel
  obtain ⟨⟨s, outs⟩, hrun, hhist⟩ := Option.map_eq_some_iff.1 hsome
  obtain ⟨hsent, hread⟩ := Prod.mk.inj hhist
  refine ⟨s, outs, hrun, ?_⟩
  intro hfifo
  have hpre := hfifo.tx [[7]] fun j hj => by
    obtain rfl : j = 0 := by simpa using hj
    rw [hread]
    exact List.mem_singleton.2 rfl
  rw [hsent] at hpre
  exact absurd hpre (by decide)

end Afxdp
