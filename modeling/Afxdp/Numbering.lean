import Afxdp.BiDirHash

/-!
# Numbered packets

The sender of `BiDirHash` numbers the packets that it hands to its data path and keeps a hash of
each (`PortState.Sent`). The receiver takes the packets that come out of its data path, the first of
them so far (`PortState.Received`). If what comes out is some of what the other sender handed in, in
order, no check of the receiver fails, because the numbers ascend in it too
(`PortState.Received.step`).
-/

namespace Afxdp.Traffic

/-! ## Packets of a data path -/

/-- The packets of a deque. -/
def packets (s : PortSys) (d : Dir) : List (Option (List UInt8)) :=
  (s.deques d).list.map (BufMmap.packet · s.mem)

/-- The packets that were handed to the data path: those that were sent and those that are
pending. -/
def handed (s : PortSys) : List (Option (List UInt8)) := (s.hist ()).sent ++ packets s .send

/-- The number of a packet. -/
def packetSeq : Option (List UInt8) → Nat
  | some bytes => fromNeBytes (bytes.take 8)
  | none => 0

/-- The packets are the same, those that were handed in and those that came out. -/
structure SamePackets (s s' : PortSys) : Prop where
  handed : handed s' = handed s
  pushed : (s'.hist ()).pushed = (s.hist ()).pushed
  pending : packets s' .receive = packets s .receive

section
variable {s s' : PortSys} {area : MmapArea} {S : Finset Nat} {out : Out}

/-- The kernel changes no packet that the application holds. -/
theorem samePackets_kernel {k : KAct} (hs : s.Sound area S)
    (h : Afxdp.step s (.kernel () k) = some (s', out)) : SamePackets s s' := by
  have hmem : ∀ d, packets s' d = packets s d := by
    intro d
    have hpacket : ∀ b ∈ s.coll (.deque d), b.packet s'.mem = b.packet s.mem :=
      fun b hb => step_kernel_packet hs.framed hs.conserved h hb
    obtain ⟨mem, l, hi, hk, rfl⟩ := Afxdp.step_kernel_inv h
    exact List.map_congr_left hpacket
  obtain ⟨mem, l, hi, hk, rfl⟩ := Afxdp.step_kernel_inv h
  obtain ⟨hsent, hpushed⟩ := kernelStep_hist hk
  refine ⟨?_, ?_, hmem .receive⟩
  · rw [Traffic.handed, hmem]
    simp only [Function.update_self, hsent]
    rfl
  · simp only [Function.update_self, hpushed]

/-- `try_send` hands nothing in: it sends what is pending. -/
theorem samePackets_trySend {batchSize : Nat} {granted : Bool} {send : Sendto}
    (h : Afxdp.step s (.trySend () .send batchSize granted send) = some (s', out)) :
    SamePackets s s' := by
  obtain ⟨rfl, -⟩ := Afxdp.step_trySend_inv h
  refine ⟨?_, ?_, ?_⟩
  · simp only [Traffic.handed, packets, Sys.afterSend, Function.update_self, ArrayDeque.drop]
    rw [List.append_assoc, ← List.map_append, List.take_append_drop]
  · simp only [Sys.afterSend, Function.update_self]
  · simp only [packets, Sys.afterSend, Function.update_of_ne (show Dir.receive ≠ .send by decide)]

/-- `try_recv` makes the packets that it pushes pending. -/
theorem tryRecv_packets {batchSize grant : Nat} (hlen : afXdpReserved ≤ s.area.bufLen)
    (h : Afxdp.step s (.tryRecv () .receive batchSize () grant) = some (s', out)) :
    handed s' = handed s ∧ ∃ xs, (s'.hist ()).pushed = (s.hist ()).pushed ++ xs ∧
      packets s' .receive = packets s .receive ++ xs := by
  obtain ⟨bs, -, hlist, hother, hpushed⟩ := step_tryRecv_appends hlen h
  obtain ⟨rfl, -⟩ := Afxdp.step_tryRecv_inv hlen h
  refine ⟨?_, _, hpushed, ?_⟩
  · simp only [handed, packets, hother .send (by decide)]
    rfl
  · rw [packets, hlist, List.map_append]
    rfl

end

/-! ## The sender -/

/-- The packets `xs` are what the port sent: they are numbered from 2 on, and the map has the hash
of each at its number, and nothing at greater ones. -/
structure PortState.Sent (hash : List UInt8 → UInt64) (port : PortState)
    (xs : List (Option (List UInt8))) : Prop where
  seq : port.seq = xs.length + 1
  packet : ∀ i x, xs[i]? = some x → packetSeq x = i + 2 ∧ ∃ bytes, x = some bytes ∧
    8 ≤ bytes.length ∧ port.hashes (i + 2) = some ⟨false, hash bytes⟩
  fresh : ∀ n, port.seq < n → port.hashes n = none

section
variable {pr : Profile} {hash : List UInt8 → UInt64} {port port' : PortState} {s s' : PortSys}
  {area : MmapArea}
  {S : Finset Nat} {r : Random} {xs : List (Option (List UInt8))}

theorem PortState.Sent.new (hash : List UInt8 → UInt64) (now : Nat) :
    (PortState.new now).Sent hash [] where
  seq := rfl
  packet i x h := by cases h
  fresh _ _ := rfl

/-- The numbers ascend. -/
theorem PortState.Sent.ascending (h : port.Sent hash xs) :
    xs.Pairwise fun x y => packetSeq x < packetSeq y := by
  rw [List.pairwise_iff_getElem]
  intro i j hi hj hij
  rw [(h.packet i _ (List.getElem?_eq_getElem hi)).1,
    (h.packet j _ (List.getElem?_eq_getElem hj)).1]
  omega

/-- Buffers in different collections do not meet. -/
theorem sound_disjoint (hs : s.Sound area S) {c c' : Coll Unit Dir} (hne : c ≠ c')
    {b b' : BufMmap Unit} (hb : b ∈ s.coll c) (hb' : b' ∈ s.coll c') :
    b.data.Disjoint b'.data := by
  refine (hs.framed.held c b hb).inside.disjoint_grid (hs.framed.held c' b' hb').inside ?_
  have hmem : ∀ {c : Coll Unit Dir} {b}, b ∈ s.coll c →
      b.addr / area.bufLen ∈ s.chunks (.coll c) := by
    intro c b hb
    rw [← hs.conserved.areaEq]
    exact Multiset.mem_coe.2 (List.mem_map_of_mem (List.mem_map_of_mem hb))
  intro heq
  cases hs.conserved.custody.excl _ _ _ (hmem hb) (heq ▸ hmem hb')
  exact hne rfl

/-- A packet that is filled is seen in no deque. -/
theorem packet_afterSend (hs : s.Sound area S) {b : BufMmap Unit}
    (hpop : (s.vecs ()).pop.1 = some b) (h8 : 8 ≤ b.data.len) {d : Dir} {c : BufMmap Unit}
    (hc : c ∈ (s.deques d).list) :
    c.packet (r.afterSend port b s).mem = c.packet s.mem := by
  have hb : b ∈ s.coll (.vec ()) := List.mem_of_getLast? hpop
  have hne : (.deque d : Coll Unit Dir) ≠ .vec () := nofun
  have hdisjoint := sound_disjoint hs hne hc hb
  have hdata : c.getData (r.afterSend port b s).mem = c.getData s.mem :=
    Mem.readAt_writeAt_of_disjoint (by rw [r.data_length h8]; exact hdisjoint)
  rw [BufMmap.packet, BufMmap.packet, hdata]

/-- One more packet is handed in, and nothing else changes. -/
theorem handed_sendPacket (hs : s.Sound area S)
    (h : sendPacket pr hash r port s = some (port', s')) :
    ∃ b, 8 ≤ (r.packet port b).length ∧ port' = port.afterSend hash r b ∧
      handed s' = handed s ++ [some (r.packet port b)] ∧ s'.hist = s.hist ∧
      packets s' .receive = packets s .receive := by
  obtain ⟨b, hpop, hlen, -, -, hroom, rfl, rfl⟩ := sendPacket_inv h
  have h64 := r.packetLen_mem.1
  have h8 : 8 ≤ b.data.len := by omega
  have hframe : ∀ d, (s.deques d).list.map (BufMmap.packet · (r.afterSend port b s).mem) =
      packets s d := fun d => List.map_congr_left fun c hc => packet_afterSend hs hpop h8 hc
  refine ⟨b, ?_, rfl, ?_, rfl, ?_⟩
  · rw [Random.packet, List.length_take, r.data_length h8]
    omega
  · have hdeque : ((r.afterSend port b s).deques .send).list =
        (s.deques .send).list ++ [r.buf b] := by
      simp only [Random.afterSend, Function.update_self, ArrayDeque.pushBack_of_lt hroom]
    rw [handed, packets, hdeque, List.map_append, hframe, handed, List.append_assoc,
      List.map_singleton, r.packet_afterSend hlen]
    rfl
  · rw [packets, ← hframe]
    simp only [Random.afterSend, Function.update_of_ne (show Dir.receive ≠ .send by decide)]

/-- The port has the hash of the packet at its number. -/
theorem PortState.Sent.afterSend (hport : port.Sent hash xs) (hseq : port.seq + 1 < 2 ^ 64)
    {b : BufMmap Unit} (h8 : 8 ≤ (r.packet port b).length) :
    (port.afterSend hash r b).Sent hash (xs ++ [some (r.packet port b)]) := by
  have hnext : port.nextSeq = xs.length + 2 := by
    rw [nextSeq, Nat.mod_eq_of_lt hseq, hport.seq]
  refine ⟨?_, ?_, ?_⟩
  · rw [List.length_append]
    exact hnext
  · intro i x hx
    rcases Nat.lt_or_ge i xs.length with hi | hi
    · rw [List.getElem?_append_left hi] at hx
      obtain ⟨hnum, bytes, rfl, hlen, hhash⟩ := hport.packet i x hx
      refine ⟨hnum, bytes, rfl, hlen, ?_⟩
      rw [← hhash]
      exact Function.update_of_ne (by omega) _ _
    · obtain rfl : i = xs.length := by
        have := (List.getElem?_eq_some_iff.1 hx).1
        simp only [List.length_append, List.length_singleton] at this
        omega
      rw [List.getElem?_concat_length] at hx
      cases hx
      refine ⟨?_, _, rfl, h8, ?_⟩
      · rw [← hnext]
        refine r.data_seq (Nat.mod_lt _ (by decide)) ?_
        have := r.packetLen_mem.1
        omega
      · rw [← hnext]
        exact Function.update_self _ _ _
  · intro n hn
    have hn' : port.nextSeq < n := hn
    have hlt : port.seq < n := by
      have := hport.seq
      omega
    rw [← hport.fresh n hlt]
    exact Function.update_of_ne (by omega) _ _

/-- What an application does with its buffers keeps the data path sound. -/
theorem sound_local (hlen : afXdpReserved < area.bufLen) (hs : s.Sound area S)
    (h : LocalLeads s s') : s'.Sound area S := by
  obtain ⟨as, has, hlead⟩ := h
  refine Program.leads_invariant (Q := Local) (fun _ a _ _ ha hi hstep => ?_) hs has hlead
  refine hi.step hlen ?_ hstep
  cases a with
  | kernel => exact ha.elim
  | _ => trivial

/-- The step lemma carried through the packets of a call. -/
theorem PortState.Sent.sendPackets {random : Nat → Random} {n : Nat}
    (hlen : afXdpReserved < area.bufLen) (hport : port.Sent hash (handed s)) (hs : s.Sound area S)
    (hseq : port.seq + n < 2 ^ 64)
    (h : Traffic.sendPackets pr hash random n port s = some (port', s')) :
    port'.Sent hash (handed s') ∧ port'.seq = port.seq + n ∧
      (∃ seq hashes, port' = { port with seq, hashes }) ∧ s'.Sound area S ∧
      s'.hist = s.hist ∧ packets s' .receive = packets s .receive := by
  induction n generalizing port' s' with
  | zero =>
      cases h
      exact ⟨hport, rfl, ⟨_, _, rfl⟩, hs, rfl, rfl⟩
  | succ n ih =>
      obtain ⟨⟨port₁, s₁⟩, h1, h2⟩ := Option.bind_eq_some_iff.1 h
      obtain ⟨hsent, hseq₁, ⟨seq, hashes, rfl⟩, hs₁, hhist, hpending⟩ := ih (by omega) h1
      obtain ⟨b, h8, rfl, hhanded, hhist', hpending'⟩ := handed_sendPacket hs₁ h2
      have hlt : seq + 1 < 2 ^ 64 := by
        simp only at hseq₁
        omega
      refine ⟨?_, ?_, ⟨_, _, rfl⟩, sound_local hlen hs₁ (leads_sendPacket h2),
        hhist'.trans hhist, hpending'.trans hpending⟩
      · rw [hhanded]
        exact hsent.afterSend hlt h8
      · rw [← Nat.add_assoc, ← hseq₁]
        exact Nat.mod_eq_of_lt hlt

/-- A burst is no larger than what there are buffers and room for, and what is left to send. -/
theorem packetCount_le {test : BiDirHash} {count n : Nat}
    (h : test.packetCount port count = some n) :
    n ≤ count ∧ n ≤ test.totalPackets - port.transmitted := by
  simp only [BiDirHash.packetCount] at h
  split at h
  · next hleft =>
      split at h
      · cases h
      · next hcount =>
          cases h
          exact ⟨Nat.le_of_not_lt hcount, hleft⟩
  · cases h
    exact ⟨Nat.min_le_left _ _, Nat.min_le_right _ _⟩

/-- `transmit` does nothing, or it sends at most as many packets as are left. -/
theorem transmit_inv {test test' : BiDirHash} {now n : Nat} {p : Pos} {random : Nat → Random}
    (h : test.transmit pr hash now p random s = some (n, test', s')) :
    (test' = test ∧ s' = s) ∨ ∃ port', (test.portState p).transmitted + n ≤ test.totalPackets ∧
      sendPackets pr hash random n (test.portState p) s = some (port', s') ∧
      test' = test.setPort p
        { port' with transmitted := port'.transmitted + n, lastTime := now } := by
  simp only [BiDirHash.transmit] at h
  split at h
  · next hcond =>
      split at h
      · cases h
        exact .inl ⟨rfl, rfl⟩
      · next packetCount hcount =>
          obtain ⟨⟨port', s₁⟩, h1, h2⟩ := Option.map_eq_some_iff.1 h
          cases h2
          have hle := (packetCount_le hcount).2
          exact .inr ⟨port', by omega, h1, rfl⟩
  · cases h
    exact .inl ⟨rfl, rfl⟩

/-- A packet is sent if there is a buffer and room for it, and buffers are large enough. -/
theorem sendPacket_returns (hs : s.Sound area S) (hport : port.Sent hash xs)
    (hseq : port.seq + 1 < 2 ^ 64) (hsize : 1500 + afXdpReserved ≤ area.bufLen)
    (hbig : area.bufLen < 2 ^ 16) (hbufs : 0 < (s.vecs ()).len)
    (hroom : (s.deques .send).len < (s.deques .send).capacity) :
    ∃ b, sendPacket pr hash r port s = some (port.afterSend hash r b, r.afterSend port b s) := by
  obtain ⟨b, hb⟩ : ∃ b, (s.vecs ()).pop.1 = some b :=
    Option.isSome_iff_exists.1 (List.getLast?_isSome.2 (List.ne_nil_of_length_pos hbufs))
  have hdata := (hs.framed.held (.vec ()) b (List.mem_of_getLast? hb)).data
  have hlen : b.data.len = area.bufLen - afXdpReserved := by rw [hdata]
  have hpacket := r.packetLen_mem.2
  have hnext : port.nextSeq = port.seq + 1 := Nat.mod_eq_of_lt hseq
  refine ⟨b, sendPacket_of hb (by omega) (by omega) (hport.fresh _ ?_) hroom ?_⟩
  · rw [hnext]
    exact Nat.lt_succ_self _
  · rw [hnext]
    exact pr.add64_ok hseq

/-- So are as many as there are buffers and room for. -/
theorem sendPackets_returns {random : Nat → Random} {n : Nat} (hs : s.Sound area S)
    (hport : port.Sent hash (handed s)) (hseq : port.seq + n < 2 ^ 64)
    (hsize : 1500 + afXdpReserved ≤ area.bufLen) (hbig : area.bufLen < 2 ^ 16)
    (hbufs : n ≤ (s.vecs ()).len)
    (hroom : n ≤ (s.deques .send).capacity - (s.deques .send).len) :
    ∃ port' s', sendPackets pr hash random n port s = some (port', s') ∧
      (s'.vecs ()).len + n = (s.vecs ()).len ∧
      (s'.deques .send).len = (s.deques .send).len + n ∧
      (s'.deques .send).capacity = (s.deques .send).capacity := by
  have hlen : afXdpReserved < area.bufLen := by omega
  induction n with
  | zero => exact ⟨port, s, rfl, rfl, rfl, rfl⟩
  | succ n ih =>
      obtain ⟨port₁, s₁, h1, hvecs, hdeque, hcap⟩ := ih (by omega) (by omega) (by omega)
      obtain ⟨hsent, hseq₁, -, hs₁, -, -⟩ := hport.sendPackets hlen hs (by omega) h1
      have hroom₁ : (s₁.deques .send).len < (s₁.deques .send).capacity := by omega
      obtain ⟨b, h2⟩ := sendPacket_returns (r := random n) hs₁ hsent (by omega) hsize hbig
        (by omega) hroom₁
      refine ⟨port₁.afterSend hash (random n) b, (random n).afterSend port₁ b s₁, ?_, ?_, ?_, ?_⟩
      · rw [Traffic.sendPackets, h1, Option.bind_some, h2]
      · simp only [Random.afterSend, Function.update_self, Vec.len, Vec.pop, List.length_dropLast]
        simp only [Vec.len] at hvecs hbufs
        omega
      · simp only [Random.afterSend, Function.update_self, ArrayDeque.pushBack_of_lt hroom₁]
        simp only [ArrayDeque.len, List.length_append, List.length_singleton] at hdeque ⊢
        omega
      · simp only [Random.afterSend, Function.update_self, ArrayDeque.pushBack_of_lt hroom₁]
        exact hcap

end

/-! ## The receiver -/

/-- The first `k` packets that were pushed were received, the others are pending. The last number is
that of one of them, and no check failed. -/
structure PortState.Received (port : PortState) (k : Nat) (s : PortSys) : Prop where
  le : k ≤ (s.hist ()).pushed.length
  pending : (s.hist ()).pushed.drop k = packets s .receive
  last : port.lastReceivedSeq = 0 ∨
    ∃ x ∈ (s.hist ()).pushed.take k, packetSeq x = port.lastReceivedSeq
  badHash : port.badHash = 0
  outOfOrder : port.outOfOrder = 0
  duplicated : port.duplicated = 0

section
variable {hash : List UInt8 → UInt64} {p : Pos} {test test' : BiDirHash} {s s' : PortSys} {k : Nat}
  {xs : List (Option (List UInt8))}

/-- A packet that the other port sent, with a number above the last one, fails no check. -/
theorem check_eq {bytes : List UInt8}
    (hlast : (test.portState p).lastReceivedSeq < packetSeq (some bytes))
    (hhash : (test.portState p.other).hashes (packetSeq (some bytes)) = some ⟨false, hash bytes⟩) :
    test.check hash p (packetSeq (some bytes)) (some bytes) = some (test.setPort p
      { test.portState p with lastReceivedSeq := packetSeq (some bytes) }) := by
  simp only [BiDirHash.check, if_neg (Nat.not_le_of_lt hlast), hhash, Option.map_some, ne_eq,
    not_true_eq_false, if_false, Bool.false_eq_true]

/-- The number of a packet of at least 8 bytes is the one `receive` reads. -/
theorem bufSeq_eq {b : BufMmap Unit} {mem : Nat → UInt8} {bytes : List UInt8}
    (hpacket : b.packet mem = some bytes) (h8 : 8 ≤ bytes.length) :
    8 ≤ b.data.len ∧ bufSeq b mem = packetSeq (some bytes) := by
  rw [BufMmap.packet] at hpacket
  split at hpacket
  · next hle =>
      cases hpacket
      rw [List.length_take] at h8
      have hdata : (b.getData mem).length = b.data.len := Mem.readAt_length _ _ _
      refine ⟨by omega, ?_⟩
      rw [packetSeq, List.take_take, Nat.min_eq_left (by omega)]
      rfl
  · cases hpacket

/-- A pending packet is received, and it fails no check. -/
theorem PortState.Received.step (hreceived : (test.portState p).Received k s)
    (hsent : (test.portState p.other).Sent hash xs) (hsub : (s.hist ()).pushed.Sublist xs)
    (hpending : packets s .receive ≠ []) :
    ∃ seq s', test.receivePacket hash p s =
        some (test.setPort p { test.portState p with lastReceivedSeq := seq }, s') ∧
      PortState.Received { test.portState p with lastReceivedSeq := seq } (k + 1) s' ∧
      s'.hist = s.hist ∧ handed s' = handed s := by
  obtain ⟨b, bs, hlist⟩ : ∃ b bs, (s.deques .receive).list = b :: bs :=
    List.exists_cons_of_ne_nil fun heq => hpending (by rw [packets, heq, List.map_nil])
  have hdrop : (s.hist ()).pushed.drop k =
      b.packet s.mem :: bs.map (BufMmap.packet · s.mem) := by
    rw [hreceived.pending, packets, hlist, List.map_cons]
  have hk : (s.hist ()).pushed[k]? = some (b.packet s.mem) := by
    rw [← List.head?_drop, hdrop, List.head?_cons]
  have hklt := (List.getElem?_eq_some_iff.1 hk).1
  obtain ⟨i, hi⟩ := List.getElem?_of_mem (hsub.subset (List.mem_of_getElem? hk))
  obtain ⟨hnum, bytes, hpacket, h8, hhash⟩ := hsent.packet i _ hi
  obtain ⟨hlen, hseq⟩ := bufSeq_eq hpacket h8
  rw [hpacket] at hnum hk
  -- the numbers ascend in what was pushed, and those below `k` were received before
  have hlast : (test.portState p).lastReceivedSeq < packetSeq (some bytes) := by
    rcases hreceived.last with h0 | ⟨x, hx, hxseq⟩
    · omega
    · have hpair := hsent.ascending.sublist hsub
      obtain ⟨j, hj⟩ := List.getElem?_of_mem hx
      obtain ⟨hjlen, hjx⟩ := List.getElem?_eq_some_iff.1 hj
      rw [List.length_take] at hjlen
      rw [← hxseq, ← hjx, List.getElem_take]
      have hasc := List.pairwise_iff_getElem.1 hpair j k (by omega) hklt (by omega)
      rwa [(List.getElem?_eq_some_iff.1 hk).2] at hasc
  refine ⟨packetSeq (some bytes), afterReceive s b, receivePacket_eq.2 ⟨b, ?_, hlen, ?_, rfl⟩, ?_,
    rfl, ?_⟩
  · show (s.deques .receive).list.head? = some b
    rw [hlist, List.head?_cons]
  · rw [hseq, hpacket]
    exact check_eq hlast (by rw [hnum]; exact hhash)
  · refine ⟨hklt, ?_, .inr ⟨some bytes, ?_, rfl⟩, hreceived.badHash, hreceived.outOfOrder,
      hreceived.duplicated⟩
    · have hpackets : packets (afterReceive s b) .receive = bs.map (BufMmap.packet · s.mem) := by
        simp only [packets, afterReceive, Function.update_self, ArrayDeque.popFront, hlist,
          List.tail_cons]
      rw [hpackets]
      show (s.hist ()).pushed.drop (k + 1) = _
      rw [← List.drop_drop, hdrop, List.drop_one, List.tail_cons]
    · show some bytes ∈ (s.hist ()).pushed.take (k + 1)
      rw [List.take_add_one, hk]
      exact List.mem_append_right _ (List.mem_singleton.2 rfl)
  · simp only [handed, packets, afterReceive,
      Function.update_of_ne (show Dir.send ≠ .receive by decide)]

/-- The step lemma carried through the packets of a call, of which there are enough. -/
theorem PortState.Received.receivePackets {n : Nat}
    (hreceived : (test.portState p).Received k s) (hsent : (test.portState p.other).Sent hash xs)
    (hsub : (s.hist ()).pushed.Sublist xs) (hn : n ≤ (packets s .receive).length) :
    ∃ seq s', BiDirHash.receivePackets hash p n test s =
        some (test.setPort p { test.portState p with lastReceivedSeq := seq }, s') ∧
      PortState.Received { test.portState p with lastReceivedSeq := seq } (k + n) s' ∧
      s'.hist = s.hist ∧ handed s' = handed s := by
  induction n with
  | zero =>
      refine ⟨(test.portState p).lastReceivedSeq, s, ?_, hreceived, rfl, rfl⟩
      rw [BiDirHash.receivePackets, BiDirHash.setPort, Function.update_eq_self]
  | succ n ih =>
      obtain ⟨seq, s₁, h1, hr, hhist, hhanded⟩ := ih (by omega)
      have hother := test.setPort_of_ne p.other_ne
        { test.portState p with lastReceivedSeq := seq }
      have hne : packets s₁ .receive ≠ [] := by
        intro heq
        have hlen := hr.pending
        have hlen₀ := hreceived.pending
        rw [heq, hhist, List.drop_eq_nil_iff] at hlen
        rw [← hlen₀, List.length_drop] at hn
        omega
      have hr₁ : ((test.setPort p { test.portState p with lastReceivedSeq := seq }).portState
          p).Received (k + n) s₁ := by
        rw [BiDirHash.setPort_self]
        exact hr
      obtain ⟨seq', s', h2, hr', hhist', hhanded'⟩ :=
        hr₁.step (by rw [hother]; exact hsent) (by rw [hhist]; exact hsub) hne
      rw [BiDirHash.setPort_self] at h2 hr'
      refine ⟨seq', s', ?_, hr', hhist'.trans hhist, hhanded'.trans hhanded⟩
      rw [BiDirHash.receivePackets, h1, Option.bind_some, h2]
      simp only [BiDirHash.setPort, Function.update_idem]

/-- So `receive` returns, and it receives all that is pending. -/
theorem PortState.Received.receive (hreceived : (test.portState p).Received k s)
    (hsent : (test.portState p.other).Sent hash xs) (hsub : (s.hist ()).pushed.Sublist xs) :
    ∃ n seq s', test.receive hash p s = some (n, test.setPort p { test.portState p with
        lastReceivedSeq := seq
        received := (test.portState p).received + n }, s') ∧
      PortState.Received { test.portState p with lastReceivedSeq := seq } (k + n) s' ∧
      s'.hist = s.hist ∧ handed s' = handed s := by
  have hn : (s.deques .receive).len ≤ (packets s .receive).length := by
    rw [packets, List.length_map]
    exact Nat.le_refl _
  obtain ⟨seq, s', h1, hr, hhist, hhanded⟩ := hreceived.receivePackets hsent hsub hn
  refine ⟨(s.deques .receive).len, seq, s', ?_, hr, hhist, hhanded⟩
  rw [BiDirHash.receive, h1, Option.map_some]
  simp only [BiDirHash.setPort, Function.update_self, Function.update_idem]

/-- What `try_recv` pushes is pending. -/
theorem PortState.Received.tryRecv {port : PortState} {ys : List (Option (List UInt8))}
    (h : port.Received k s) (hpushed : (s'.hist ()).pushed = (s.hist ()).pushed ++ ys)
    (hpending : packets s' .receive = packets s .receive ++ ys) : port.Received k s' := by
  refine ⟨?_, ?_, ?_, h.badHash, h.outOfOrder, h.duplicated⟩
  · rw [hpushed, List.length_append]
    exact Nat.le_add_right_of_le h.le
  · rw [hpushed, hpending, List.drop_append_of_le_length h.le, h.pending]
  · rw [hpushed, List.take_append_of_le_length h.le]
    exact h.last

end

end Afxdp.Traffic
