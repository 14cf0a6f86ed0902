import Afxdp.Framing

/-!
# Every transmit descriptor is acceptable to the kernel

Where the kernel puts received packets at `AF_XDP_RESERVED` bytes into their chunk, every address
stays at this offset. A held buffer then is the whole rest of its chunk, its length fits, and the
descriptor `try_send` makes of it lies in the chunk. The kernel also wants the `options` of a
descriptor to be zero; `try_send` never writes them, and no slot ever had any.
-/

namespace Afxdp

open Run (run)

section
variable {T : Type} {area : MmapArea}

/-- A buffer at the offset `AF_XDP_RESERVED` of its chunk. -/
theorem Placed.addr_eq {addr : Nat} (h : Placed area afXdpReserved addr) :
    addr = addr / area.bufLen * area.bufLen + afXdpReserved := by
  have h1 := Nat.div_add_mod' addr area.bufLen
  have h2 := h.lo_le
  have h3 := h.le_reserved
  omega

/-- The capacity of a framed buffer is defined where a chunk is not longer than `2 ^ 16` bytes. -/
theorem BufMmap.Framed.getCapacity {lo : Nat} {b : BufMmap T} (h : b.Framed area lo)
    (hmax : area.bufLen ≤ 2 ^ 16) :
    b.getCapacity = .ok (UInt16.ofNat (area.bufLen - afXdpReserved)) := by
  have hlt : area.bufLen - afXdpReserved < 2 ^ 16 := by
    have := h.packet.fits
    simp only [afXdpReserved] at this ⊢
    omega
  rw [BufMmap.getCapacity, h.data, if_pos hlt]

/-- The length of a framed buffer does not exceed its capacity. -/
theorem BufMmap.Framed.getLen_le {lo : Nat} {b : BufMmap T} {cap : UInt16}
    (h : b.Framed area lo) (hcap : b.getCapacity = .ok cap) : b.getLen ≤ cap := by
  rw [UInt16.le_iff_toNat_le, BufMmap.getCapacity_ok hcap]
  exact h.len_le

end

section
variable {ι ν δ T : Type} [DecidableEq ι] [DecidableEq ν] [DecidableEq δ] [Inhabited T]

/-- Take an area that `new` made and any run in which the kernel publishes packets at the offset
`AF_XDP_RESERVED` and within the chunk. In the state it reaches, every held buffer lies at this
offset of a chunk, its slice is the rest of the chunk, its length does not exceed its capacity, and
`set_len` beyond the capacity panics and changes nothing; and every descriptor that was sent and is
not completed lies in a chunk of the area and has no options. -/
theorem run_descriptors {p : Profile} {mmap : Nat → Nat → Bool} {bufNum bufLen : Nat}
    {options : MmapAreaOptions} {area : MmapArea} {w : Vec (BufMmap T)} {s₀ s : Sys ι ν δ T}
    {v₀ : ν} {as : List (Act ι ν δ T)} {outs : List Out}
    (hlen : 2048 ≤ bufLen) (hmax : bufLen ≤ 65536) (hsize : bufNum * bufLen < 2 ^ 64)
    (hnew : MmapArea.new p mmap bufNum bufLen options = .ok (.ok (area, w)))
    (hs : s₀.Start area v₀ w)
    (hlaw : ∀ i j o len opts, .kernel i (.publish j o len opts) ∈ as →
      o = 256 ∧ len ≤ bufLen - 256)
    (hrun : run step s₀ as = some (s, outs)) :
    (∀ c, ∀ b ∈ s.coll c,
      (∃ k, k < bufNum ∧ b.addr = k * bufLen + 256 ∧ b.data.start = b.addr ∧
        b.data.start + b.data.len = (k + 1) * bufLen) ∧
      ∃ cap, b.getCapacity = .ok cap ∧ b.getLen ≤ cap ∧ ∀ len, cap < len →
        BufMmap.setLen len b = .error (.msg s!"len too large {len} vs {cap}") b) ∧
    (∀ i, ∀ q ∈ (s.link i).inFlight, ∃ k, k < bufNum ∧ k * bufLen ≤ q.2.addr ∧
      q.2.addr + q.2.len ≤ (k + 1) * bufLen ∧ (k + 1) * bufLen ≤ bufNum * bufLen ∧
      q.2.options = 0) := by
  have hres : afXdpReserved < bufLen := Nat.lt_of_lt_of_le (by decide) hlen
  obtain ⟨rfl, rfl⟩ := MmapArea.new_inv hsize (Nat.le_of_lt hres) hnew
  have hlawful : ∀ a ∈ as, a.Lawful ⟨bufNum, bufLen⟩ afXdpReserved := by
    intro a ha
    unfold Act.Lawful
    split
    · next i j o len opts =>
        obtain ⟨rfl, hle⟩ := hlaw i j o len opts ha
        refine ⟨Nat.le_refl _, Nat.le_refl _, ?_⟩
        show len + 256 ≤ bufLen
        omega
    · trivial
  have hframed : s.Framed ⟨bufNum, bufLen⟩ afXdpReserved :=
    (Sys.Framed.start hres (Nat.le_refl _) (List.Subperm.refl _) hs).run (Nat.le_of_lt hres)
      hlawful hrun
  refine ⟨fun c b hb => ⟨?_, ?_⟩, ?_⟩
  · have hbf := hframed.held c b hb
    have haddr : b.addr = b.addr / bufLen * bufLen + afXdpReserved := hbf.packet.addr_eq
    refine ⟨b.addr / bufLen, hbf.packet.chunk, haddr, ?_, ?_⟩
    · rw [hbf.data]
    · rw [hbf.data, Nat.succ_mul]
      show b.addr + (bufLen - afXdpReserved) = _
      omega
  · have hbf := hframed.held c b hb
    have hcap := hbf.getCapacity hmax
    exact ⟨_, hcap, hbf.getLen_le hcap, fun len hlt => BufMmap.setLen_too_large hcap hlt⟩
  · intro i q hq
    obtain ⟨hq, hopt⟩ := (hframed.link i).tx q hq
    exact ⟨q.2.addr / bufLen, hq.chunk, hq.inside.1, hq.inside.2, hq.chunk_end, hopt⟩

end

/-- A run that receives a packet, shortens it and sends it. -/
def forwardRun : List (Act Unit Unit Unit Unit) :=
  [.fill () () 1 true, .kernel () .takeFill, .kernel () (.publish 0 256 64 0),
    .tryRecv () () 8 () 1, .setLen (.deque ()) 0 60, .trySend () () 8 true .sent]

theorem run_descriptors_forwardRun :
    ∃ s outs, run step (Sys.init ⟨2, 2048⟩ () (MmapArea.chunkVec 2 2048) 4) forwardRun =
        some (s, outs) ∧
      (∀ c, ∀ b ∈ s.coll c,
        (∃ k, k < 2 ∧ b.addr = k * 2048 + 256 ∧ b.data.start = b.addr ∧
          b.data.start + b.data.len = (k + 1) * 2048) ∧
        ∃ cap, b.getCapacity = .ok cap ∧ b.getLen ≤ cap ∧ ∀ len, cap < len →
          BufMmap.setLen len b = .error (.msg s!"len too large {len} vs {cap}") b) ∧
      (∀ i, ∀ q ∈ (s.link i).inFlight, ∃ k, k < 2 ∧ k * 2048 ≤ q.2.addr ∧
        q.2.addr + q.2.len ≤ (k + 1) * 2048 ∧ (k + 1) * 2048 ≤ 2 * 2048 ∧ q.2.options = 0) := by
  have hnew : MmapArea.new (T := Unit) .release (fun _ _ => true) 2 2048 {} =
      .ok (.ok (⟨2, 2048⟩, MmapArea.chunkVec 2 2048)) :=
    MmapArea.new_ok (by decide) (by decide) rfl
  have hsome : (run step (Sys.init ⟨2, 2048⟩ () (MmapArea.chunkVec 2 2048) 4)
      forwardRun).isSome := by
    decide +kernel
  obtain ⟨⟨s, outs⟩, hrun⟩ := Option.isSome_iff_exists.1 hsome
  refine ⟨s, outs, hrun, run_descriptors (by decide) (by decide) (by decide) hnew
    (Sys.init_start _ _ _ _) ?_ hrun⟩
  intro i j o len opts hmem
  simp [forwardRun] at hmem
  omega

end Afxdp
