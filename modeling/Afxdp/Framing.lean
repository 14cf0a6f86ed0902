import Afxdp.Environment
import Mathlib.Data.List.Perm.Subperm

/-!
# Frames

The code treats every address it gets back as one that lies at most `AF_XDP_RESERVED` bytes into
its chunk: the slice it makes has the fixed length `buf_len - AF_XDP_RESERVED`. `Framed` says that
a packet respects this: its address has an offset of at most `AF_XDP_RESERVED` in a chunk of the
area, and its length leaves that much room. If every packet the kernel publishes for reception is
framed, so is everything in a run (`Sys.Framed.run`): the held buffers, whose slices end inside
their chunks, and the descriptors in the rings. The lower bound `lo` of the offsets is a parameter:
with `lo = 256` everything stays at the offset at which `MmapArea::new` cuts the buffers.
-/

namespace Afxdp

open Spsc (RingBuf)
open Mem (Window readAt)
open Run (run run_invariant)

/-! ## Framed packets -/

/-- An address in a chunk of the area, at an offset from `lo` to `AF_XDP_RESERVED`. -/
structure Placed (area : MmapArea) (lo addr : Nat) : Prop where
  chunk : addr / area.bufLen < area.bufNum
  lo_le : lo ≤ addr % area.bufLen
  le_reserved : addr % area.bufLen ≤ afXdpReserved

/-- A packet at such an address whose length leaves room for the reserved bytes. -/
structure Framed (area : MmapArea) (lo addr len : Nat) : Prop extends Placed area lo addr where
  fits : len + afXdpReserved ≤ area.bufLen

section
variable {area : MmapArea} {lo addr len : Nat}

/-- A framed packet lies in the chunk of its address. -/
theorem Framed.inside (h : Framed area lo addr len) : (Window.mk addr len).Inside
    (addr / area.bufLen * area.bufLen) ((addr / area.bufLen + 1) * area.bufLen) := by
  have h1 := Nat.div_add_mod' addr area.bufLen
  have h2 := h.le_reserved
  have h3 := h.fits
  constructor
  · show _ ≤ addr
    omega
  · show addr + len ≤ _
    rw [Nat.succ_mul]
    omega

/-- A chunk of the area ends inside the area. -/
theorem Placed.chunk_end (h : Placed area lo addr) :
    (addr / area.bufLen + 1) * area.bufLen ≤ area.bufNum * area.bufLen :=
  Nat.mul_le_mul_right _ h.chunk

/-- The kernel publishes at an offset inside the frame. -/
theorem Placed.publish {a o : Nat} (h : Placed area lo a) (ho : o < area.bufLen) (hlo : lo ≤ o)
    (hr : o ≤ afXdpReserved) : Placed area lo (a / area.bufLen * area.bufLen + o) := by
  refine ⟨?_, ?_, ?_⟩
  · rw [Mem.cell_of_offset ho]
    exact h.chunk
  · rw [Mem.offset_of_cell ho]
    exact hlo
  · rw [Mem.offset_of_cell ho]
    exact hr

end

/-! ## Framed states -/

section
variable {T : Type}

/-- A buffer whose slice starts at its address and has the fixed length, and whose packet is
framed. -/
structure BufMmap.Framed (area : MmapArea) (lo : Nat) (b : BufMmap T) : Prop where
  packet : Afxdp.Framed area lo b.addr b.len.toNat
  data : b.data = ⟨b.addr, area.bufLen - afXdpReserved⟩

/-- Everything on a link is framed, and the Tx ring has no options set. -/
structure Link.Framed (area : MmapArea) (lo : Nat) (l : Link) : Prop where
  recv : ∀ a ∈ l.fq.entries ++ l.krx, Placed area lo a
  rx : ∀ e ∈ l.rx.entries, Afxdp.Framed area lo e.addr e.len
  tx : ∀ p ∈ l.inFlight, Afxdp.Framed area lo p.2.addr p.2.len ∧ p.2.options = 0
  comp : ∀ a ∈ l.cq.entries, Placed area lo a
  slots : ∀ j, (l.tx.slot j).options = 0

/-- `try_recv` makes a framed buffer of a framed descriptor whose length fits a `u16`. -/
theorem rxBufOf_framed {area : MmapArea} {lo : Nat} {e : XdpDesc} (user : T)
    (he : Framed area lo e.addr e.len) (h : e.len < 2 ^ 16) :
    (rxBufOf (area.bufLen - afXdpReserved) user e).Framed area lo := by
  refine ⟨?_, rfl⟩
  have hlen : (UInt16.ofNat e.len).toNat = e.len := Nat.mod_eq_of_lt h
  show Framed area lo e.addr (UInt16.ofNat e.len).toNat
  rw [hlen]
  exact he

/-- `service` makes a framed buffer, of length zero, of a framed address. -/
theorem compBuf_framed [Inhabited T] {area : MmapArea} {lo a : Nat} (ha : Placed area lo a)
    (hlen : afXdpReserved ≤ area.bufLen) :
    (compBuf (T := T) (area.bufLen - afXdpReserved) a).Framed area lo :=
  ⟨⟨ha, by simpa [compBuf] using hlen⟩, rfl⟩

/-- The length of a framed packet fits the slice. -/
theorem BufMmap.Framed.len_le {area : MmapArea} {lo : Nat} {b : BufMmap T}
    (h : b.Framed area lo) : b.len.toNat ≤ b.data.len := by
  have h1 := h.packet.fits
  rw [h.data]
  show _ ≤ area.bufLen - afXdpReserved
  omega

/-- The packet of a framed buffer is read at its address. -/
theorem BufMmap.Framed.packet_eq {area : MmapArea} {lo : Nat} {b : BufMmap T}
    (h : b.Framed area lo) (mem : Nat → UInt8) :
    b.packet mem = some (readAt mem b.addr b.len.toNat) := by
  rw [b.packet_eq h.len_le, h.data]

/-- The slice of a framed buffer ends in the chunk of its address. -/
theorem BufMmap.Framed.inside {area : MmapArea} {lo : Nat} {b : BufMmap T}
    (h : b.Framed area lo) : b.data.Inside (b.addr / area.bufLen * area.bufLen)
      ((b.addr / area.bufLen + 1) * area.bufLen) := by
  have h1 := h.packet.fits
  have hf : Afxdp.Framed area lo b.addr (area.bufLen - afXdpReserved) :=
    ⟨h.packet.toPlaced, by omega⟩
  rw [h.data]
  exact hf.inside

end

/-- A descriptor in flight is with the kernel or published in the ring, with its number. -/
theorem Link.mem_inFlight {l : Link} {p : Nat × XdpDesc} :
    p ∈ l.inFlight ↔
      p ∈ l.ktx ∨ ∃ c, l.tx.cons ≤ c ∧ c < l.tx.prod ∧ p = (c, l.tx.entry c) := by
  rw [inFlight, List.mem_append]
  refine or_congr Iff.rfl ?_
  simp only [List.mem_map, List.mem_range, RingBuf.used]
  constructor
  · rintro ⟨i, hi, rfl⟩
    exact ⟨l.tx.cons + i, by omega, by omega, rfl⟩
  · rintro ⟨c, h1, h2, rfl⟩
    exact ⟨c - l.tx.cons, by omega, by rw [Nat.add_sub_cancel' h1]⟩

/-- After a batch was published, what is in flight was in flight before or is in the batch. -/
theorem Link.inFlight_publish {l : Link} {fs : List (XdpDesc → XdpDesc)}
    (h : fs.length ≤ l.tx.free) {p : Nat × XdpDesc}
    (hp : p ∈ { l with tx := l.tx.publish fs }.inFlight) :
    p ∈ l.inFlight ∨ ∃ k, ∃ hk : k < fs.length,
      p = (l.tx.prod + k, fs[k] (l.tx.entry (l.tx.prod + k))) := by
  rcases Link.mem_inFlight.1 hp with hp | ⟨c, h1, h2, rfl⟩
  · exact .inl (Link.mem_inFlight.2 (.inl hp))
  · simp only [RingBuf.publish_cons, RingBuf.publish_prod _ _ h] at h1 h2
    by_cases hc : c < l.tx.prod
    · refine .inl (Link.mem_inFlight.2 (.inr ⟨c, h1, hc, ?_⟩))
      exact congrArg _ (l.tx.publish_entry_of_lt fs h1 hc h)
    · refine .inr ⟨c - l.tx.prod, by omega, ?_⟩
      have hc' : l.tx.prod + (c - l.tx.prod) = c := by omega
      refine Prod.ext hc'.symm ?_
      have he := l.tx.publish_entry fs (i := c - l.tx.prod) (by omega) h
      rw [hc'] at he
      rw [hc']
      exact he

/-- A descriptor that the kernel takes from the Tx ring stays in flight. -/
theorem Link.inFlight_takeTx {l : Link} (hu : 1 ≤ l.tx.used) {p : Nat × XdpDesc}
    (hp : p ∈ { l with tx := l.tx.release 1,
                       ktx := l.ktx ++ [(l.tx.cons, l.tx.entry l.tx.cons)] }.inFlight) :
    p ∈ l.inFlight := by
  rw [Link.mem_inFlight] at hp ⊢
  rw [RingBuf.used] at hu
  rcases hp with hp | ⟨c, h1, h2, rfl⟩
  · rcases List.mem_append.1 hp with hp | hp
    · exact .inl hp
    · rw [List.mem_singleton] at hp
      exact .inr ⟨l.tx.cons, Nat.le_refl _, by omega, hp⟩
  · rw [RingBuf.release_cons _ hu] at h1
    exact .inr ⟨c, by omega, h2, rfl⟩

/-- A completion puts no descriptor in flight. -/
theorem Link.inFlight_complete {l : Link} {j : Nat} {cq : RingBuf Nat} {p : Nat × XdpDesc}
    (hp : p ∈ { l with ktx := l.ktx.eraseIdx j, cq := cq }.inFlight) : p ∈ l.inFlight := by
  rw [Link.mem_inFlight] at hp ⊢
  exact hp.imp List.mem_of_mem_eraseIdx id

section
variable {ι ν δ T : Type}

/-- Everything in the state is framed. -/
structure Sys.Framed (area : MmapArea) (lo : Nat) (s : Sys ι ν δ T) : Prop where
  areaEq : s.area = area
  held : ∀ c, ∀ b ∈ s.coll c, b.Framed area lo
  link : ∀ i, (s.link i).Framed area lo

/-- A step in which the kernel does not publish a packet that is not framed. -/
def Act.Lawful (area : MmapArea) (lo : Nat) : Act ι ν δ T → Prop
  | .kernel _ (.publish _ o len _) =>
    lo ≤ o ∧ o ≤ afXdpReserved ∧ len + afXdpReserved ≤ area.bufLen
  | _ => True

/-! ## Steps of the kernel -/

/-- A kernel step keeps a link framed. -/
theorem Link.Framed.kernelStep {area : MmapArea} {lo : Nat} {mem mem' : Nat → UInt8}
    {l l' : Link} {h h' : Hist} {k : KAct} (hl : l.Framed area lo)
    (hlaw : ∀ j o len options, k = .publish j o len options →
      lo ≤ o ∧ o ≤ afXdpReserved ∧ len + afXdpReserved ≤ area.bufLen)
    (hk : Afxdp.kernelStep area.bufLen mem l h k = some (mem', l', h')) : l'.Framed area lo := by
  cases k with
  | takeFill =>
    obtain ⟨hu, hr⟩ := kernelStep_takeFill hk
    cases hr
    refine ⟨?_, hl.rx, hl.tx, hl.comp, hl.slots⟩
    intro a ha
    refine hl.recv a ?_
    rw [RingBuf.entries_eq_cons _ hu]
    simp only [List.mem_append, List.mem_cons, List.not_mem_nil, or_false] at ha ⊢
    tauto
  | write j off byte =>
    obtain ⟨a, -, -, hr⟩ := kernelStep_write hk
    cases hr
    exact hl
  | publish j o len options =>
    obtain ⟨a, ha, ho, -, hf, hr⟩ := kernelStep_publish hk
    obtain ⟨hlo, hres, hfits⟩ := hlaw j o len options rfl
    cases hr
    have hplaced : Placed area lo a :=
      hl.recv a (List.mem_append_right _ (List.mem_of_getElem? ha))
    refine ⟨?_, ?_, hl.tx, hl.comp, hl.slots⟩
    · intro b hb
      refine hl.recv b ?_
      rcases List.mem_append.1 hb with hb | hb
      · exact List.mem_append_left _ hb
      · exact List.mem_append_right _ (List.mem_of_mem_eraseIdx hb)
    · intro e he
      rw [RingBuf.push_entries _ hf, List.mem_append, List.mem_singleton] at he
      rcases he with he | rfl
      · exact hl.rx e he
      · exact ⟨hplaced.publish ho hlo hres, hfits⟩
  | takeTx =>
    obtain ⟨hu, hr⟩ := kernelStep_takeTx hk
    cases hr
    exact ⟨hl.recv, hl.rx, fun p hp => hl.tx p (Link.inFlight_takeTx hu hp), hl.comp, hl.slots⟩
  | readTx j =>
    obtain ⟨c, d, -, hr⟩ := kernelStep_readTx hk
    cases hr
    exact hl
  | complete j =>
    obtain ⟨c, d, hd, hf, hr⟩ := kernelStep_complete hk
    cases hr
    have hmem : (c, d) ∈ l.inFlight := Link.mem_inFlight.2 (.inl (List.mem_of_getElem? hd))
    refine ⟨hl.recv, hl.rx, fun p hp => hl.tx p (Link.inFlight_complete hp), ?_, hl.slots⟩
    intro a ha
    rw [RingBuf.push_entries _ hf, List.mem_append, List.mem_singleton] at ha
    rcases ha with ha | rfl
    · exact hl.comp a ha
    · exact (hl.tx _ hmem).1.toPlaced
  | setWake b =>
    have hr := kernelStep_setWake hk
    cases hr
    exact ⟨hl.recv, hl.rx, hl.tx, hl.comp, hl.slots⟩

/-! ## Steps of the calls -/

variable [DecidableEq ι] [DecidableEq ν] [DecidableEq δ] {area : MmapArea} {lo : Nat}
  {s s' : Sys ι ν δ T} {i : ι}

omit [DecidableEq ι] in
/-- The buffers of every collection stay framed if the new ones are. -/
theorem Sys.Framed.held_update (hs : s.Framed area lo) {c : Coll ν δ} {bs : List (BufMmap T)}
    (hbs : ∀ b ∈ bs, b.Framed area lo) (e : Coll ν δ) :
    ∀ b ∈ Function.update s.coll c bs e, b.Framed area lo := by
  rcases eq_or_ne e c with rfl | he
  · rw [Function.update_self]
    exact hbs
  · rw [Function.update_of_ne he]
    exact hs.held e

omit [DecidableEq ν] [DecidableEq δ] in
/-- Every link stays framed if the changed one does. -/
theorem Sys.Framed.link_update (hs : s.Framed area lo) {l : Link} (hl : l.Framed area lo)
    (j : ι) : (Function.update s.link i l j).Framed area lo := by
  rcases eq_or_ne j i with rfl | hj
  · rw [Function.update_self]
    exact hl
  · rw [Function.update_of_ne hj]
    exact hs.link j

theorem Sys.Framed.afterFill (hs : s.Framed area lo) {v : ν} {n : Nat}
    (hfree : n ≤ (s.link i).fq.free) : (s.afterFill i v n).Framed area lo := by
  have hl := hs.link i
  refine ⟨hs.areaEq, ?_, hs.link_update ⟨?_, hl.rx, hl.tx, hl.comp, hl.slots⟩⟩
  · rw [afterFill_coll]
    exact hs.held_update fun b hb => hs.held (.vec v) b (List.mem_of_mem_take hb)
  · intro a ha
    rw [RingBuf.publish_entries_const _ _ (by simp; omega)] at ha
    rcases List.mem_append.1 ha with ha | ha
    · rcases List.mem_append.1 ha with ha | ha
      · exact hl.recv a (List.mem_append_left _ ha)
      · obtain ⟨b, hb, rfl⟩ := List.mem_map.1 ha
        have hmem := List.mem_reverse.1 (List.mem_of_mem_take hb)
        exact (hs.held (.vec v) b hmem).packet.toPlaced
    · exact hl.recv a (List.mem_append_right _ ha)

theorem Sys.Framed.afterSend (hs : s.Framed area lo) {d : δ} {n : Nat}
    (hfree : n ≤ (s.link i).tx.free) :
    (s.afterSend i d n).Framed area lo := by
  have hl := hs.link i
  have hfs : (((s.deques d).list.take n).map storeDesc).length ≤ (s.link i).tx.free := by
    simp
    omega
  refine ⟨hs.areaEq, ?_, hs.link_update ⟨hl.recv, hl.rx, ?_, hl.comp, ?_⟩⟩
  · rw [afterSend_coll]
    exact hs.held_update fun b hb => hs.held (.deque d) b (List.mem_of_mem_drop hb)
  · intro p hp
    rcases Link.inFlight_publish hfs hp with hp | ⟨k, hk, rfl⟩
    · exact hl.tx p hp
    · obtain ⟨b, hb, hf⟩ := List.mem_map.1 (List.getElem_mem hk)
      rw [← hf]
      exact ⟨(hs.held (.deque d) b (List.mem_of_mem_take hb)).packet, hl.slots _⟩
  · refine RingBuf.modifyFrom_slot (Q := fun e : XdpDesc => e.options = 0) _ _ ?_ hl.slots
    intro f hf e he
    obtain ⟨b, -, rfl⟩ := List.mem_map.1 hf
    exact he

theorem Sys.Framed.afterRecv (hs : s.Framed area lo) {d : δ} {user : T} {n : Nat}
    (hn : n ≤ (s.link i).rx.used) (hroom : (s.deques d).len + n ≤ (s.deques d).capacity)
    (hdesc : ∀ e ∈ (s.link i).rx.entries.take n, e.len < 2 ^ 16) :
    (s.afterRecv i d user n).Framed area lo := by
  have hl := hs.link i
  refine ⟨hs.areaEq, ?_, hs.link_update ⟨hl.recv, ?_, hl.tx, hl.comp, hl.slots⟩⟩
  · rw [afterRecv_coll d user hn hroom]
    refine hs.held_update ?_
    intro b hb
    rcases List.mem_append.1 hb with hb | hb
    · exact hs.held (.deque d) b hb
    · obtain ⟨e, he, rfl⟩ := List.mem_map.1 hb
      rw [hs.areaEq]
      exact rxBufOf_framed user (hl.rx e (List.mem_of_mem_take he)) (hdesc e he)
  · intro e he
    rw [RingBuf.release_entries _ hn] at he
    exact hl.rx e (List.mem_of_mem_drop he)

omit [DecidableEq ι] in
/-- Setting the length, within the slice, or the user value of a buffer. -/
theorem Sys.Framed.modify (hs : s.Framed area lo) {c : Coll ν δ} {j : Nat} {b b' : BufMmap T}
    (hb : (s.coll c)[j]? = some b) (haddr : b'.addr = b.addr) (hdata : b'.data = b.data)
    (hle : b'.len = b.len ∨ b'.len.toNat ≤ b.data.len)
    (hcoll : (s.setColl ((s.coll c).set j b') c).coll =
      Function.update s.coll c ((s.coll c).set j b')) :
    (s.setColl ((s.coll c).set j b') c).Framed area lo := by
  have hbf := hs.held c b (List.mem_of_getElem? hb)
  have hbf' : b'.Framed area lo := by
    refine ⟨⟨?_, ?_⟩, ?_⟩
    · rw [haddr]
      exact hbf.packet.toPlaced
    · have hfits := hbf.packet.fits
      rcases hle with hle | hle
      · rw [hle]
        exact hfits
      · rw [hbf.data] at hle
        have hle' : b'.len.toNat ≤ area.bufLen - afXdpReserved := hle
        omega
    · rw [hdata, haddr]
      exact hbf.data
  refine ⟨(Sys.setColl_area _ _).trans hs.areaEq, ?_, ?_⟩
  · rw [hcoll]
    refine hs.held_update ?_
    intro x hx
    rcases List.mem_or_eq_of_mem_set hx with hx | rfl
    · exact hs.held c x hx
    · exact hbf'
  · intro i
    rw [Sys.setColl_link]
    exact hs.link i

variable [Inhabited T]

theorem Sys.Framed.afterService (hs : s.Framed area lo) {v : ν} {n : Nat}
    (hlen : afXdpReserved ≤ area.bufLen) (hn : n ≤ (s.link i).cq.used) :
    (s.afterService i v n).Framed area lo := by
  have hl := hs.link i
  refine ⟨hs.areaEq, ?_, hs.link_update ⟨hl.recv, hl.rx, hl.tx, ?_, hl.slots⟩⟩
  · rw [afterService_coll]
    refine hs.held_update ?_
    intro b hb
    rcases List.mem_append.1 hb with hb | hb
    · exact hs.held (.vec v) b hb
    · obtain ⟨a, ha, rfl⟩ := List.mem_map.1 hb
      rw [hs.areaEq]
      exact compBuf_framed (hl.comp a (List.mem_of_mem_take ha)) hlen
  · intro a ha
    rw [RingBuf.release_entries _ hn] at ha
    exact hl.comp a (List.mem_of_mem_drop ha)

/-! ## Runs -/

/-- A lawful step keeps everything framed. -/
theorem Sys.Framed.step {a : Act ι ν δ T} {out : Out} (hlen : afXdpReserved ≤ area.bufLen)
    (hs : s.Framed area lo) (hlaw : a.Lawful area lo) (h : Afxdp.step s a = some (s', out)) :
    s'.Framed area lo := by
  have hlen' : afXdpReserved ≤ s.area.bufLen := by rwa [hs.areaEq]
  cases a with
  | fill i v batchSize granted =>
    obtain ⟨rfl, hret⟩ := step_fill_inv h
    obtain ⟨h1, h2⟩ := grantCount_le (s.link i).fq granted (min (s.vecs v).len batchSize)
    exact hs.afterFill (by omega)
  | tryRecv i d batchSize user grant =>
    obtain ⟨rfl, hret, hdesc⟩ := step_tryRecv_inv hlen' h
    obtain ⟨h1, h2⟩ := recvCount_le s i d batchSize grant
    exact hs.afterRecv (by omega) (by omega) hdesc
  | trySend i d batchSize granted send =>
    obtain ⟨rfl, hret, -⟩ := step_trySend_inv h
    obtain ⟨h1, h2⟩ := grantCount_le (s.link i).tx granted (min (s.deques d).len batchSize)
    rw [← sendCount, ← hret] at h1 h2
    exact hs.afterSend h2
  | service i v batchSize grant =>
    obtain ⟨rfl, hret⟩ := step_service_inv hlen' h
    exact hs.afterService hlen (by rw [hret, peekCount]; omega)
  | move c j c' k spare =>
    obtain ⟨b, hb, ⟨l, hperm, hcoll⟩, ha, -, hl, -⟩ := step_move_inv h
    have hheld : ∀ e, ∀ x ∈ Function.update s.coll c ((s.coll c).eraseIdx j) e,
        x.Framed area lo :=
      hs.held_update fun x hx => hs.held c x (List.mem_of_mem_eraseIdx hx)
    refine ⟨ha.trans hs.areaEq, fun e => ?_, fun i => by rw [hl]; exact hs.link i⟩
    rw [hcoll]
    rcases eq_or_ne e c' with rfl | he
    · rw [Function.update_self]
      intro x hx
      rcases List.mem_cons.1 (hperm.mem_iff.1 hx) with rfl | hx
      · exact hs.held c x (List.mem_of_getElem? hb)
      · exact hheld e x hx
    · rw [Function.update_of_ne he]
      exact hheld e
  | setLen c j len =>
    obtain ⟨b, b', hb, haddr, hdata, hle, rfl, hcoll⟩ := step_modify_inv (.inl ⟨len, rfl⟩) h
    exact hs.modify hb haddr hdata hle hcoll
  | setUser c j user =>
    obtain ⟨b, b', hb, haddr, hdata, hle, rfl, hcoll⟩ := step_modify_inv (.inr ⟨user, rfl⟩) h
    exact hs.modify hb haddr hdata hle hcoll
  | write c j off byte =>
    obtain ⟨-, -, -, rfl⟩ := step_write_inv h
    exact ⟨hs.areaEq, hs.held, hs.link⟩
  | kernel i k =>
    obtain ⟨mem, l, hi, hk, rfl⟩ := step_kernel_inv h
    refine ⟨hs.areaEq, hs.held, hs.link_update ((hs.link i).kernelStep ?_ (hs.areaEq ▸ hk))⟩
    rintro j o len options rfl
    exact hlaw

/-- Lawful steps keep everything framed. -/
theorem Sys.Framed.run {as : List (Act ι ν δ T)} {outs : List Out}
    (hlen : afXdpReserved ≤ area.bufLen) (hs : s.Framed area lo)
    (hlaw : ∀ a ∈ as, a.Lawful area lo) (h : Run.run Afxdp.step s as = some (s', outs)) :
    s'.Framed area lo :=
  run_invariant (I := Sys.Framed area lo) (Q := Act.Lawful area lo)
    (fun _ _ _ _ ha hi hstep => hi.step hlen ha hstep) hs hlaw h

omit [DecidableEq ι] [DecidableEq ν] [DecidableEq δ] in
/-- The buffers that `MmapArea::new` cuts are framed, at the offset `AF_XDP_RESERVED`. -/
theorem chunkBuf_framed {bufNum bufLen k : Nat} (hlen : afXdpReserved < bufLen)
    (hlo : lo ≤ afXdpReserved) (hk : k < bufNum) :
    (MmapArea.chunkBuf (T := T) bufLen k).Framed ⟨bufNum, bufLen⟩ lo := by
  refine ⟨⟨⟨?_, ?_, ?_⟩, ?_⟩, rfl⟩
  · show (k * bufLen + afXdpReserved) / bufLen < bufNum
    rw [Mem.cell_of_offset hlen]
    exact hk
  · show lo ≤ (k * bufLen + afXdpReserved) % bufLen
    rw [Mem.offset_of_cell hlen]
    exact hlo
  · show (k * bufLen + afXdpReserved) % bufLen ≤ afXdpReserved
    rw [Mem.offset_of_cell hlen]
  · show (0 : UInt16).toNat + afXdpReserved ≤ bufLen
    simp
    omega

omit [DecidableEq ι] [DecidableEq ν] [DecidableEq δ] in
/-- At the start everything is framed. -/
theorem Sys.Framed.start {bufNum bufLen : Nat} {v₀ : ν} {w : Vec (BufMmap T)}
    (hlen : afXdpReserved < bufLen) (hlo : lo ≤ afXdpReserved)
    (hw : w.list.Subperm (MmapArea.chunkVec bufNum bufLen).list)
    (h : s.Start ⟨bufNum, bufLen⟩ v₀ w) : s.Framed ⟨bufNum, bufLen⟩ lo := by
  refine ⟨h.area, ?_, ?_⟩
  · rintro (v | d) b hb
    · rcases eq_or_ne v v₀ with rfl | hv
      · rw [Sys.coll, h.vec] at hb
        obtain ⟨l, hperm, hsub⟩ := hw
        obtain ⟨k, hk, rfl⟩ := List.mem_map.1 (hsub.subset (hperm.mem_iff.2 hb))
        exact chunkBuf_framed hlen hlo (List.mem_range.1 hk)
      · rw [Sys.coll, h.vecs v hv] at hb
        cases hb
    · rw [Sys.coll, h.deques d] at hb
      cases hb
  · intro i
    have hl := h.link i
    have htx := (s.link i).tx.entries_eq_nil hl.tx
    have hused := (s.link i).tx.cons_le
    rw [hl.tx] at hused
    refine ⟨?_, ?_, ?_, ?_, hl.options⟩
    · rw [(s.link i).fq.entries_eq_nil hl.fq, hl.krx]
      intro a ha
      cases ha
    · rw [(s.link i).rx.entries_eq_nil hl.rx]
      intro e he
      cases he
    · intro p hp
      rcases Link.mem_inFlight.1 hp with hp | ⟨c, h1, h2, -⟩
      · rw [hl.ktx] at hp
        cases hp
      · rw [hl.tx] at h2
        omega
    · rw [(s.link i).cq.entries_eq_nil hl.cq]
      intro a ha
      cases ha

end

end Afxdp
