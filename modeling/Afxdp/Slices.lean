import Afxdp.Framing

/-!
# The slices of received and completed buffers

`try_recv` and `service` make a slice of the fixed length `buf_len - AF_XDP_RESERVED` at whatever
address they are handed. For a packet at an offset of at most `AF_XDP_RESERVED` in its chunk, whose
length leaves that much room, the slice ends inside the chunk and holds the packet. Any other
address or length that the kernel may hand back makes a slice that reaches into the next chunk, or
behind the mapped area, or that is shorter than the packet (`Exchange.slicesHold_iff`).
-/

namespace Afxdp

open Spsc (cursor)
open Mem (Window)

section
variable {T : Type}

/-! ## Calls that are handed given descriptors -/

/-- libbpf grants a request the entries `xs`, in order, and nothing else. -/
def XskRingCons.Shows {α : Type} (r : XskRingCons α) (request : Nat) (xs : List α) : Prop :=
  ∃ c, r.peek request = (xs.length, cursor c) ∧ xs.length ≤ request ∧
    ∀ (i : Nat) (h : i < xs.length), r.desc (cursor (c + i)) = xs[i]

/-- A `try_recv` that receives the descriptors `es`, and a `service` that is handed their addresses
when they come back as completions. -/
structure Exchange (T : Type) where
  area : MmapArea
  es : List XdpDesc
  rx : XskRingCons XdpDesc
  deque : ArrayDeque (BufMmap T)
  recvBatch : Nat
  user : T
  cq : XskRingCons Nat
  vec : Vec (BufMmap T)
  compBatch : Nat

namespace Exchange

/-- The descriptors and their addresses are what the calls are handed. -/
structure Shown (x : Exchange T) : Prop where
  rx : x.rx.Shows (recvRequest x.deque x.recvBatch) x.es
  cq : x.cq.Shows (serviceRequest x.vec x.compBatch) (x.es.map XdpDesc.addr)

/-- A descriptor the kernel may hand back: it lies inside a chunk of the area, at any offset. -/
def Legal (area : MmapArea) (e : XdpDesc) : Prop :=
  ∃ k o, k < area.bufNum ∧ o < area.bufLen ∧ o + e.len ≤ area.bufLen ∧
    e.addr = k * area.bufLen + o

end Exchange

/-- The slice of a buffer lies inside the chunk of its address and inside the area, and it holds
the packet. -/
structure BufMmap.SliceOk (area : MmapArea) (b : BufMmap T) : Prop where
  chunk : b.data.Inside (b.addr / area.bufLen * area.bufLen)
    ((b.addr / area.bufLen + 1) * area.bufLen)
  mapped : b.data.Inside 0 (area.bufNum * area.bufLen)
  packet : (Window.mk b.addr b.getLen.toNat).Inside b.data.start (b.data.start + b.data.len)
  len_le : b.getLen.toNat ≤ b.data.len

/-- Every slice is as it should be, and slices of buffers in different chunks are disjoint. -/
def SlicesOk (area : MmapArea) (bs : List (BufMmap T)) : Prop :=
  (∀ b ∈ bs, b.SliceOk area) ∧
    ∀ b ∈ bs, ∀ b' ∈ bs, b.addr / area.bufLen ≠ b'.addr / area.bufLen → b.data.Disjoint b'.data

/-- The two calls return, with buffers at the addresses and of the lengths they were handed, whose
slices are as they should be. -/
def Exchange.SlicesHold [Inhabited T] (x : Exchange T) : Prop :=
  ∃ rcvd comp d v tr tr',
    tryRecv .release x.area x.rx x.recvBatch x.user ⟨x.deque, []⟩ =
      .ok (.ok x.es.length) ⟨d, tr⟩ ∧
    service .release x.area x.cq x.compBatch ⟨x.vec, []⟩ = .ok (.ok x.es.length) ⟨v, tr'⟩ ∧
    d.list = x.deque.list ++ rcvd ∧ v.list = x.vec.list ++ comp ∧
    rcvd.map (fun b => (b.addr, b.getLen.toNat)) = x.es.map (fun e => (e.addr, e.len)) ∧
    comp.map BufMmap.addr = x.es.map XdpDesc.addr ∧
    SlicesOk x.area (rcvd ++ comp)

/-! ## What the calls make of them -/

/-- The granted entries, read index by index. -/
theorem map_shown {α β : Type} {r : XskRingCons α} {xs : List α} {c : Nat} (f : α → β)
    (h : ∀ (i : Nat) (h : i < xs.length), r.desc (cursor (c + i)) = xs[i]) :
    (List.range xs.length).map (fun i => f (r.desc (cursor (c + i)))) = xs.map f := by
  refine List.ext_getElem (by simp) ?_
  intro i h1 h2
  simp only [List.length_map, List.length_range] at h1
  simp [h i h1]

theorem tryRecv_shown {area : MmapArea} {rx : XskRingCons XdpDesc} {batchSize : Nat} (user : T)
    {d : ArrayDeque (BufMmap T)} {es : List XdpDesc} (hlen : afXdpReserved ≤ area.bufLen)
    (hne : es ≠ []) (h : rx.Shows (recvRequest d batchSize) es) (hes : ∀ e ∈ es, e.len < 2 ^ 16) :
    ∃ d' tr, tryRecv .release area rx batchSize user ⟨d, []⟩ = .ok (.ok es.length) ⟨d', tr⟩ ∧
      d'.list = d.list ++ es.map (rxBufOf (area.bufLen - afXdpReserved) user) := by
  obtain ⟨c, hpeek, hle, hdesc⟩ := h
  have hdesc' : ∀ i, i < es.length → (rx.desc (cursor (c + i))).len < 2 ^ 16 := by
    intro i hi
    rw [hdesc i hi]
    exact hes _ (List.getElem_mem hi)
  refine ⟨_, _, tryRecv_eq hpeek (List.length_pos_iff.2 hne) hle (.inl rfl) hlen hdesc', ?_⟩
  have hroom := room_of_recvRequest hle
  rw [map_shown _ hdesc]
  exact ((d.pushAll_eq _ (by simpa using hroom))).1

theorem service_shown [Inhabited T] {area : MmapArea} {cq : XskRingCons Nat} {batchSize : Nat}
    {v : Vec (BufMmap T)} {addrs : List Nat} (hlen : afXdpReserved ≤ area.bufLen)
    (hne : addrs ≠ []) (h : cq.Shows (serviceRequest v batchSize) addrs) :
    ∃ v' tr, service .release area cq batchSize ⟨v, []⟩ = .ok (.ok addrs.length) ⟨v', tr⟩ ∧
      v'.list = v.list ++ addrs.map (compBuf (area.bufLen - afXdpReserved)) := by
  obtain ⟨c, hpeek, -, hdesc⟩ := h
  refine ⟨_, _, service_eq hpeek (List.length_pos_iff.2 hne) (.inl rfl) hlen, ?_⟩
  rw [map_shown _ hdesc, Vec.pushAll_list]

/-! ## Which slices are as they should be -/

/-- A framed buffer has a slice as it should be. -/
theorem BufMmap.Framed.sliceOk {area : MmapArea} {lo : Nat} {b : BufMmap T}
    (h : b.Framed area lo) : b.SliceOk area := by
  refine ⟨h.inside, h.inside.mono (Nat.zero_le _) h.packet.chunk_end, ?_, h.len_le⟩
  have hle := h.len_le
  rw [h.data] at hle ⊢
  exact ⟨Nat.le_refl _, Nat.add_le_add_left hle _⟩

/-- Framed buffers in different chunks have disjoint slices. -/
theorem slicesOk_of_framed {area : MmapArea} (lo : Nat) {bs : List (BufMmap T)}
    (h : ∀ b ∈ bs, b.Framed area lo) : SlicesOk area bs :=
  ⟨fun b hb => (h b hb).sliceOk, fun b hb b' hb' hne =>
    (h b hb).inside.disjoint_grid (h b' hb').inside hne⟩

/-- A legal descriptor is framed exactly if its offset and its length leave room for the reserved
bytes. -/
theorem Exchange.Legal.framed {area : MmapArea} {e : XdpDesc} (h : Legal area e)
    (ho : e.addr % area.bufLen ≤ afXdpReserved) (hl : e.len + afXdpReserved ≤ area.bufLen) :
    Framed area 0 e.addr e.len := by
  obtain ⟨k, o, hk, ho', -, haddr⟩ := h
  refine ⟨⟨?_, Nat.zero_le _, ho⟩, hl⟩
  rw [haddr, Mem.cell_of_offset ho']
  exact hk

variable [Inhabited T]

/-- If the slices are as they should be the descriptors leave room for the reserved bytes. -/
theorem Exchange.SlicesHold.room {x : Exchange T} (h : x.SlicesHold)
    (hlen : afXdpReserved ≤ x.area.bufLen) (hne : x.es ≠ []) (hshown : x.Shown) :
    ∀ e ∈ x.es, e.addr % x.area.bufLen ≤ afXdpReserved ∧
      e.len + afXdpReserved ≤ x.area.bufLen ∧ e.len < 2 ^ 16 := by
  obtain ⟨rcvd, comp, d, v, tr, tr', hrecv, -, hd, -, -, -, hok, -⟩ := h
  -- a length that does not fit makes the call panic
  have hfit : ∀ e ∈ x.es, e.len < 2 ^ 16 := by
    intro e he
    by_contra hbad
    obtain ⟨k, hk, rfl⟩ := List.getElem_of_mem he
    obtain ⟨c, hpeek, hle, hdesc⟩ := hshown.rx
    obtain ⟨err, c', hpanic⟩ := tryRecv_panic x.area x.user hpeek hle hk
      (by rw [hdesc k hk]; exact hbad)
    rw [hpanic] at hrecv
    cases hrecv
  obtain ⟨d', tr'', hrecv', hd'⟩ := tryRecv_shown x.user hlen hne hshown.rx hfit
  rw [hrecv'] at hrecv
  cases hrecv
  have hrcvd : rcvd = x.es.map (rxBufOf (x.area.bufLen - afXdpReserved) x.user) :=
    List.append_cancel_left (hd.symm.trans hd')
  intro e he
  have hb := hok _ (List.mem_append_left _ (hrcvd ▸ List.mem_map.2 ⟨e, he, rfl⟩))
  have hlen16 : (UInt16.ofNat e.len).toNat = e.len := Nat.mod_eq_of_lt (hfit e he)
  have h1 : e.addr + (x.area.bufLen - afXdpReserved) ≤
      (e.addr / x.area.bufLen + 1) * x.area.bufLen := hb.chunk.2
  have h2 : (UInt16.ofNat e.len).toNat ≤ x.area.bufLen - afXdpReserved := hb.len_le
  have h3 := Nat.div_add_mod' e.addr x.area.bufLen
  rw [Nat.succ_mul] at h1
  rw [hlen16] at h2
  exact ⟨by omega, by omega, hfit e he⟩

/-- The calls make good slices of descriptors that leave room for the reserved bytes. -/
theorem Exchange.slicesHold_of_room {x : Exchange T} (hlen : afXdpReserved ≤ x.area.bufLen)
    (hne : x.es ≠ []) (hlegal : ∀ e ∈ x.es, Legal x.area e) (hshown : x.Shown)
    (hes : ∀ e ∈ x.es, e.addr % x.area.bufLen ≤ afXdpReserved ∧
      e.len + afXdpReserved ≤ x.area.bufLen ∧ e.len < 2 ^ 16) : x.SlicesHold := by
  obtain ⟨d, tr, hrecv, hd⟩ :=
    tryRecv_shown x.user hlen hne hshown.rx fun e he => (hes e he).2.2
  obtain ⟨v, tr', hserv, hv⟩ := service_shown hlen (by simpa using hne) hshown.cq
  rw [List.length_map] at hserv
  refine ⟨_, _, d, v, tr, tr', hrecv, hserv, hd, hv, ?_, ?_, ?_⟩
  · rw [List.map_map]
    refine List.map_congr_left ?_
    intro e he
    exact Prod.ext rfl (Nat.mod_eq_of_lt (hes e he).2.2)
  · rw [List.map_map]
    exact List.map_id _
  · refine slicesOk_of_framed 0 ?_
    intro b hb
    rcases List.mem_append.1 hb with hb | hb
    · obtain ⟨e, he, rfl⟩ := List.mem_map.1 hb
      obtain ⟨ho, hl, hfit⟩ := hes e he
      exact rxBufOf_framed _ ((hlegal e he).framed ho hl) hfit
    · obtain ⟨a, ha, rfl⟩ := List.mem_map.1 hb
      obtain ⟨e, he, rfl⟩ := List.mem_map.1 ha
      obtain ⟨ho, hl, -⟩ := hes e he
      exact compBuf_framed ((hlegal e he).framed ho hl).toPlaced hlen

/-- The calls make good slices of legal descriptors exactly if every offset is at most
`AF_XDP_RESERVED` and every length leaves that much of a buffer free, and fits a `u16`. -/
theorem Exchange.slicesHold_iff (x : Exchange T) (hlen : afXdpReserved ≤ x.area.bufLen)
    (hne : x.es ≠ []) (hlegal : ∀ e ∈ x.es, Legal x.area e) (hshown : x.Shown) :
    x.SlicesHold ↔ ∀ e ∈ x.es, e.addr % x.area.bufLen ≤ afXdpReserved ∧
      e.len + afXdpReserved ≤ x.area.bufLen ∧ e.len < 2 ^ 16 := by
  constructor
  · intro h
    exact h.room hlen hne hshown
  · intro hes
    exact slicesHold_of_room hlen hne hlegal hshown hes

end

/-- One packet of 64 bytes at the offset `o` of the last chunk of an area of two chunks. -/
def exchangeAt (o : Nat) : Exchange Unit where
  area := ⟨2, 2048⟩
  es := [⟨2048 + o, 64, 0⟩]
  rx := ⟨fun nb => (min nb 1, 0), fun _ => ⟨2048 + o, 64, 0⟩⟩
  deque := ⟨[], pendingLen, Nat.zero_le _⟩
  recvBatch := 8
  user := ()
  cq := ⟨fun nb => (min nb 1, 0), fun _ => 2048 + o⟩
  vec := .withCapacity 2
  compBatch := 8

theorem exchangeAt_shown (o : Nat) : (exchangeAt o).Shown := by
  refine ⟨⟨0, rfl, (by decide : 1 ≤ 8), ?_⟩, ⟨0, rfl, (by decide : 1 ≤ 2), ?_⟩⟩
  · intro i hi
    obtain rfl : i = 0 := by simpa [exchangeAt] using hi
    rfl
  · intro i hi
    obtain rfl : i = 0 := by simpa [exchangeAt] using hi
    rfl

theorem exchangeAt_legal {o : Nat} (ho : o ≤ 1984) :
    ∀ e ∈ (exchangeAt o).es, Exchange.Legal (exchangeAt o).area e := by
  intro e he
  obtain rfl := List.mem_singleton.1 he
  refine ⟨1, o, (by decide : 1 < 2), ?_, ?_, rfl⟩
  · show o < 2048
    omega
  · show o + 64 ≤ 2048
    omega

theorem slicesHold_iff_exchangeAt : (exchangeAt 256).SlicesHold ↔
    ∀ e ∈ (exchangeAt 256).es, e.addr % 2048 ≤ afXdpReserved ∧
      e.len + afXdpReserved ≤ 2048 ∧ e.len < 2 ^ 16 :=
  (exchangeAt 256).slicesHold_iff (by decide) (by simp [exchangeAt])
    (exchangeAt_legal (by decide)) (exchangeAt_shown 256)

/-- With the packet head moved to the offset 512 the slice ends behind the mapped area. -/
theorem exchangeAt_not_slicesHold :
    (exchangeAt 512).Shown ∧ (∀ e ∈ (exchangeAt 512).es, Exchange.Legal (exchangeAt 512).area e) ∧
      ¬ (exchangeAt 512).SlicesHold := by
  refine ⟨exchangeAt_shown 512, exchangeAt_legal (by decide), ?_⟩
  intro h
  have hroom := h.room (by decide) (by simp [exchangeAt]) (exchangeAt_shown 512)
  exact absurd (hroom _ (List.mem_singleton.2 rfl)).1 (by decide)

end Afxdp
