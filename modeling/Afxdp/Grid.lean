import Afxdp.Handles

/-!
# The grid of buffers

`MmapArea::new` computes the places of its buffers with three unchecked operations: the length of
the mapping, the address of each buffer and the length of the slices. In a release build they wrap.
`new_release` says what it cuts then, for all sizes. The buffers lie in their cells of the mapping
exactly if a buffer has room for the reserved bytes and the product fits 64 bits
(`new_cutWithin_iff`).

`Umem::new` describes the same grid to the kernel, with the buffer length narrowed to 32 bits, and
the kernel checks the narrowed one. Where both succeed, the kernel's chunks are the crate's cells
exactly if the slices are short enough for `get_capacity` (`umemNew_gridAgrees_iff`).
-/

namespace Afxdp

open Mem (Window)

/-! ## Wrapping arithmetic -/

namespace Profile

/-- What an operation returns under overflow checks it returns without them. -/
theorem add64_release {p : Profile} {a b c : Nat} (h : p.add64 a b = .ok c) :
    release.add64 a b = .ok c := by
  cases p with
  | release => exact h
  | debug =>
    simp only [add64] at h ⊢
    split at h
    · next hlt => rw [Nat.mod_eq_of_lt hlt, h]
    · cases h

theorem mul64_release {p : Profile} {a b c : Nat} (h : p.mul64 a b = .ok c) :
    release.mul64 a b = .ok c := by
  cases p with
  | release => exact h
  | debug =>
    simp only [mul64] at h ⊢
    split at h
    · next hlt => rw [Nat.mod_eq_of_lt hlt, h]
    · cases h

theorem sub64_release {p : Profile} {a b c : Nat} (h : p.sub64 a b = .ok c) :
    release.sub64 a b = .ok c := by
  cases p with
  | release => exact h
  | debug =>
    simp only [sub64] at h ⊢
    split at h
    · next hle => rw [if_pos hle, h]
    · cases h

end Profile

/-- The value of a step of a computation that succeeds. -/
theorem Except.bind_ok {ε α β : Type} {x : Except ε α} {f : α → Except ε β} {b : β}
    (h : x >>= f = .ok b) : ∃ a, x = .ok a ∧ f a = .ok b := by
  cases x with
  | error e => cases h
  | ok a => exact ⟨a, rfl, h⟩

namespace MmapArea

variable {T : Type} [Inhabited T]

/-- The buffer that a release build cuts as the `k`-th one: the address wraps, and so does the
length of the slice below the reserved bytes. -/
def wrappedBuf (bufLen avail k : Nat) : BufMmap T :=
  ⟨(k * bufLen % 2 ^ 64 + afXdpReserved) % 2 ^ 64, 0,
    ⟨(k * bufLen % 2 ^ 64 + afXdpReserved) % 2 ^ 64, avail⟩, default⟩

/-- The length of the slices in a release build. -/
def wrappedAvail (bufLen : Nat) : Nat :=
  if afXdpReserved ≤ bufLen then bufLen - afXdpReserved else bufLen + 2 ^ 64 - afXdpReserved

theorem newBufs_release (bufLen avail n i : Nat) (bufs : Vec (BufMmap T)) :
    newBufs .release bufLen avail n i bufs =
      .ok (bufs.pushAll ((List.range n).map fun j => wrappedBuf bufLen avail (i + j))) := by
  induction n generalizing i bufs with
  | zero => rfl
  | succ n ih =>
      have hstep : newBufs .release bufLen avail (n + 1) i bufs =
          newBufs .release bufLen avail n (i + 1) (bufs.push (wrappedBuf bufLen avail i)) := rfl
      rw [hstep, ih, List.range_succ_eq_map]
      simp [Vec.pushAll, Nat.add_assoc, Nat.add_comm 1, Function.comp_def]

/-- The loop of a build with overflow checks, where it succeeds, cuts the same buffers. -/
theorem newBufs_of_ok {p : Profile} {bufLen avail n i : Nat} {bufs bufs' : Vec (BufMmap T)}
    (h : newBufs p bufLen avail n i bufs = .ok bufs') :
    newBufs .release bufLen avail n i bufs = .ok bufs' := by
  induction n generalizing i bufs with
  | zero => exact h
  | succ n ih =>
      obtain ⟨a, ha, h⟩ := Except.bind_ok h
      obtain ⟨addr, haddr, h⟩ := Except.bind_ok h
      simp only [newBufs, Profile.mul64_release ha, Profile.add64_release haddr, bind,
        Except.bind]
      exact ih h

/-- What a successful `new` returns, for all sizes and in both builds. -/
theorem new_release {p : Profile} {mmap : Nat → Nat → Bool} {bufNum bufLen : Nat}
    {options : MmapAreaOptions} {area : MmapArea} {bufs : Vec (BufMmap T)}
    (h : new p mmap bufNum bufLen options = .ok (.ok (area, bufs))) :
    area = ⟨bufNum, bufLen⟩ ∧
      bufs.list = (List.range bufNum).map (wrappedBuf bufLen (wrappedAvail bufLen)) := by
  obtain ⟨size, -, h⟩ := Except.bind_ok h
  cases hmap : mmap size (mmapFlags options) with
  | false =>
    simp only [hmap, Bool.not_false, if_true, pure, Except.pure, Except.ok.injEq] at h
    cases h
  | true =>
    simp only [hmap, Bool.not_true, Bool.false_eq_true, if_false] at h
    obtain ⟨avail, havail, h⟩ := Except.bind_ok h
    obtain ⟨bufs', hbufs, h⟩ := Except.bind_ok h
    have hrel := newBufs_of_ok hbufs
    have hav : wrappedAvail bufLen = avail := Except.ok.inj (Profile.sub64_release havail)
    rw [newBufs_release] at hrel
    cases hrel
    cases h
    refine ⟨rfl, ?_⟩
    rw [Vec.pushAll_list, hav]
    simp [Vec.withCapacity]

/-- Without a wrap it cuts the buffer of the chunk. -/
theorem wrappedBuf_eq {bufNum bufLen k : Nat} (hlen : afXdpReserved ≤ bufLen)
    (hsize : bufNum * bufLen < 2 ^ 64) (hk : k < bufNum) :
    wrappedBuf (T := T) bufLen (wrappedAvail bufLen) k = chunkBuf bufLen k := by
  have hle : (k + 1) * bufLen ≤ bufNum * bufLen := Nat.mul_le_mul_right _ hk
  rw [Nat.succ_mul] at hle
  rw [wrappedBuf, wrappedAvail, if_pos hlen, Nat.mod_eq_of_lt (a := k * bufLen) (by omega),
    Nat.mod_eq_of_lt (by omega), chunkBuf]

end MmapArea

/-! ## The mapping -/

section
variable {T : Type}

/-- Stores through the slice of `get_data_mut`, one after the other. -/
def BufMmap.writeAll (b : BufMmap T) (mem : Nat → UInt8) :
    List (Nat × UInt8) → Except Panic (Nat → UInt8)
  | [] => .ok mem
  | w :: ws => do b.writeAll (← b.writeData mem w.1 w.2) ws

/-- The buffers that a mapping of `mapped` bytes was cut into: one for every cell of `bufLen`
bytes, at the reserved offset and inside the cell, so that they do not meet and no store through
one of them is seen in another. -/
structure CutWithin (mapped bufNum bufLen : Nat) (bufs : List (BufMmap T)) : Prop where
  num : bufs.length = bufNum
  size : mapped = bufNum * bufLen
  addr : ∀ (i : Nat) (b : BufMmap T), bufs[i]? = some b →
    b.addr = i * bufLen + 256 ∧ b.data.start = b.addr
  inside : ∀ (i : Nat) (b : BufMmap T), bufs[i]? = some b →
    b.data.Inside (i * bufLen) ((i + 1) * bufLen)
  disjoint : ∀ (i j : Nat) (b c : BufMmap T), i ≠ j → bufs[i]? = some b → bufs[j]? = some c →
    b.data.Disjoint c.data
  frame : ∀ (i j : Nat) (b c : BufMmap T), i ≠ j → bufs[i]? = some b → bufs[j]? = some c →
    ∀ mem mem' ws, b.writeAll mem ws = .ok mem' → c.getData mem' = c.getData mem

/-- A store through a slice is not seen in a slice that does not meet it. -/
theorem BufMmap.writeData_frame {b c : BufMmap T} {mem mem' : Nat → UInt8} {j : Nat} {v : UInt8}
    (hd : b.data.Disjoint c.data) (h : b.writeData mem j v = .ok mem') :
    c.getData mem' = c.getData mem := by
  unfold writeData at h
  by_cases hj : j < b.data.len
  · rw [if_pos hj] at h
    cases h
    exact Mem.readAt_update (hd _ ⟨Nat.le_add_right _ _, Nat.add_lt_add_left hj _⟩)
  · rw [if_neg hj] at h
    cases h

theorem BufMmap.writeAll_frame {b c : BufMmap T} {mem mem' : Nat → UInt8}
    {ws : List (Nat × UInt8)} (hd : b.data.Disjoint c.data) (h : b.writeAll mem ws = .ok mem') :
    c.getData mem' = c.getData mem := by
  induction ws generalizing mem with
  | nil => cases h; rfl
  | cons w ws ih =>
      obtain ⟨mem₁, h1, h2⟩ := Except.bind_ok h
      rw [ih h2, writeData_frame hd h1]

/-- Slices inside their cells do not meet, and stores through one are not seen in another. -/
theorem CutWithin.of_inside {mapped bufNum bufLen : Nat} {bufs : List (BufMmap T)}
    (num : bufs.length = bufNum) (size : mapped = bufNum * bufLen)
    (addr : ∀ (i : Nat) (b : BufMmap T), bufs[i]? = some b →
      b.addr = i * bufLen + 256 ∧ b.data.start = b.addr)
    (inside : ∀ (i : Nat) (b : BufMmap T), bufs[i]? = some b →
      b.data.Inside (i * bufLen) ((i + 1) * bufLen)) :
    CutWithin mapped bufNum bufLen bufs where
  num := num
  size := size
  addr := addr
  inside := inside
  disjoint i j b c hij hb hc := (inside i b hb).disjoint_grid (inside j c hc) hij
  frame i j b c hij hb hc _ _ _ hw :=
    BufMmap.writeAll_frame ((inside i b hb).disjoint_grid (inside j c hc) hij) hw

variable [Inhabited T]

theorem getElem?_chunks {bufNum bufLen i : Nat} {b : BufMmap T}
    (h : ((List.range bufNum).map (MmapArea.chunkBuf bufLen))[i]? = some b) :
    i < bufNum ∧ b = MmapArea.chunkBuf bufLen i := by
  rw [List.getElem?_map, Option.map_eq_some_iff] at h
  obtain ⟨k, hk, rfl⟩ := h
  obtain ⟨hlt, rfl⟩ := List.getElem?_eq_some_iff.1 hk
  rw [List.length_range] at hlt
  exact ⟨hlt, by rw [List.getElem_range]⟩

/-- The buffers of the chunks are cut within the mapping. -/
theorem cutWithin_chunks {bufNum bufLen : Nat} (hlen : afXdpReserved ≤ bufLen) :
    CutWithin (bufNum * bufLen) bufNum bufLen
      ((List.range bufNum).map (MmapArea.chunkBuf (T := T) bufLen)) := by
  refine CutWithin.of_inside (by simp) rfl ?_ ?_
  · intro i b hb
    obtain ⟨-, rfl⟩ := getElem?_chunks hb
    exact ⟨rfl, rfl⟩
  · intro i b hb
    obtain ⟨-, rfl⟩ := getElem?_chunks hb
    constructor
    · exact Nat.le_add_right _ _
    · show i * bufLen + afXdpReserved + (bufLen - afXdpReserved) ≤ _
      rw [Nat.succ_mul]
      omega

/-- A release build that maps `mapped` bytes and returns `Ok` has cut the buffers within the
mapping exactly if there is none, or each has room for the reserved bytes and the length of the
mapping did not wrap. -/
theorem new_cutWithin_iff {mmap : Nat → Nat → Bool} {bufNum bufLen mapped : Nat}
    {options : MmapAreaOptions} {area : MmapArea} {bufs : Vec (BufMmap T)}
    (hmapped : Profile.release.mul64 bufNum bufLen = .ok mapped)
    (h : MmapArea.new .release mmap bufNum bufLen options = .ok (.ok (area, bufs))) :
    CutWithin mapped bufNum bufLen bufs.list ↔
      bufNum = 0 ∨ (256 ≤ bufLen ∧ bufNum * bufLen < 2 ^ 64) := by
  obtain ⟨-, hbufs⟩ := MmapArea.new_release h
  have hmapped : bufNum * bufLen % 2 ^ 64 = mapped := Except.ok.inj hmapped
  constructor
  · intro hcut
    rcases Nat.eq_zero_or_pos bufNum with h0 | hpos
    · exact .inl h0
    refine .inr ⟨?_, ?_⟩
    · -- the first slice starts at the reserved offset of the first cell
      have hfirst : bufs.list[0]? =
          some (MmapArea.wrappedBuf bufLen (MmapArea.wrappedAvail bufLen) 0) := by
        rw [hbufs]
        simp [hpos]
      have hend := (hcut.inside 0 _ hfirst).2
      have hstart := hcut.addr 0 _ hfirst
      omega
    · rw [← hcut.size, ← hmapped]
      exact Nat.mod_lt _ (by decide)
  · rintro (rfl | ⟨hlen, hsize⟩)
    · rw [hbufs, ← hmapped, Nat.zero_mul]
      exact CutWithin.of_inside rfl (by simp) (fun i b hb => by simp at hb)
        (fun i b hb => by simp at hb)
    · have hchunks : bufs.list = (List.range bufNum).map (MmapArea.chunkBuf bufLen) := by
        rw [hbufs]
        refine List.map_congr_left ?_
        intro k hk
        exact MmapArea.wrappedBuf_eq hlen hsize (List.mem_range.1 hk)
      rw [hchunks, ← hmapped, Nat.mod_eq_of_lt hsize]
      exact cutWithin_chunks hlen

end

theorem new_cutWithin_iff_two :
    CutWithin (2 * 2048) 2 2048 (MmapArea.chunkVec (T := Unit) 2 2048).list ↔
      2 = 0 ∨ (256 ≤ 2048 ∧ 2 * 2048 < 2 ^ 64) := by
  have hnew : MmapArea.new (T := Unit) .release (fun _ _ => true) 2 2048 {} =
      .ok (.ok (⟨2, 2048⟩, MmapArea.chunkVec 2 2048)) :=
    MmapArea.new_ok (by decide) (by decide) rfl
  exact new_cutWithin_iff rfl hnew

/-- A buffer length below the reserved bytes: one buffer of 100 bytes gets a slice of almost the
whole address space, from an address beyond the mapping on. -/
theorem new_hundred_not_cutWithin :
    ∃ bufs, MmapArea.new (T := Unit) .release (fun len _ => len != 0) 1 100 {} =
        .ok (.ok (⟨1, 100⟩, bufs)) ∧
      bufs.list = [⟨256, 0, ⟨256, 2 ^ 64 - 156⟩, ()⟩] ∧ ¬ CutWithin 100 1 100 bufs.list := by
  refine ⟨⟨[⟨256, 0, ⟨256, 2 ^ 64 - 156⟩, ()⟩], 1, Nat.le_refl 1⟩, rfl, rfl, ?_⟩
  intro hcut
  exact absurd (hcut.inside 0 _ rfl) (by decide)

/-! ## The registration -/

/-- `xsk_umem_config`. -/
structure XskUmemConfig where
  fillSize : UInt32
  compSize : UInt32
  frameSize : UInt32
  frameHeadroom : UInt32
  flags : UInt32
deriving DecidableEq, Repr

/-- What a umem was registered with: the size of the area and the configuration. -/
structure Registration where
  size : Nat
  cfg : XskUmemConfig
deriving DecidableEq, Repr

/-- The configuration that `Umem::new` passes on. `as u32` keeps the low 32 bits of the buffer
length; `XSK_UMEM__DEFAULT_FRAME_HEADROOM` is zero. -/
def umemConfig (area : MmapArea) (completionRingSize fillRingSize : UInt32) : XskUmemConfig :=
  ⟨fillRingSize, completionRingSize, UInt32.ofNat area.getBufLen, 0, 0⟩

/-- `Umem::new`, by what it passes to `xsk_umem__create`, which answers with the error number it
fails with, if it fails. -/
def umemNew (p : Profile) (xskUmemCreate : Nat → XskUmemConfig → Option Int) (area : MmapArea)
    (completionRingSize fillRingSize : UInt32) :
    Except Panic (Except Lifetime.UmemNewError Registration) :=
  if !Lifetime.isPowOfTwo completionRingSize || !Lifetime.isPowOfTwo fillRingSize then
    .ok (.error .ringNotPowerOfTwo)
  else do
    let cfg := umemConfig area completionRingSize fillRingSize
    let size ← p.mul64 area.getBufNum area.getBufLen
    match xskUmemCreate size cfg with
    | some errno => return .error (.create errno)
    | none => return .ok ⟨size, cfg⟩

/-- What a successful `Umem::new` passed on. -/
theorem umemNew_inv {p : Profile} {create : Nat → XskUmemConfig → Option Int} {area : MmapArea}
    {c f : UInt32} {reg : Registration} (h : umemNew p create area c f = .ok (.ok reg)) :
    reg.size = area.bufNum * area.bufLen % 2 ^ 64 ∧ reg.cfg = umemConfig area c f ∧
      create reg.size reg.cfg = none := by
  unfold umemNew at h
  split at h
  · cases h
  · obtain ⟨size, hsize, h⟩ := Except.bind_ok h
    have hsize' : area.bufNum * area.bufLen % 2 ^ 64 = size :=
      Except.ok.inj (Profile.mul64_release hsize)
    split at h
    · cases h
    · next hnone =>
        cases h
        exact ⟨hsize'.symm, rfl, hnone⟩

/-- The `Umem::new` of the handles is this one, if `xsk_umem__create` gives it the answer to what
this one passes on: both refuse the same sizes and report the same errors, and where this one
registers the area, the other makes the handles of a umem and of its two rings. -/
theorem umemNew_handles {p : Profile} {create : Nat → XskUmemConfig → Option Int} {area : MmapArea}
    {c f : UInt32} {result : Except Lifetime.UmemNewError Registration}
    (h : umemNew p create area c f = .ok result) (s : Lifetime.App) (a : Nat) :
    let size := area.bufNum * area.bufLen % 2 ^ 64
    (Lifetime.umemNew s a c f (create size (umemConfig area c f))).1 =
      (result.mapError .umem).map fun _ =>
        [.arc (.umem a s.next), .ring (.comp a s.next), .ring (.fill a s.next)] := by
  unfold umemNew at h
  simp only [Lifetime.umemNew]
  split at h
  · next hsizes =>
      rw [if_pos hsizes, ← Except.ok.inj h]
      rfl
  · next hsizes =>
      rw [if_neg hsizes]
      obtain ⟨size, hsize, h⟩ := Except.bind_ok h
      have hsize' : area.bufNum * area.bufLen % 2 ^ 64 = size :=
        Except.ok.inj (Profile.mul64_release hsize)
      rw [hsize']
      cases hcreate : create size (umemConfig area c f) with
      | some errno =>
        simp only [hcreate] at h
        rw [← Except.ok.inj h]
        rfl
      | none =>
        simp only [hcreate] at h
        rw [← Except.ok.inj h]
        rfl

section
variable {T : Type}

/-- The kernel's chunks are the crate's cells: the registered area is one chunk for each buffer,
the buffer starts at the reserved offset of its chunk and its slice ends where the chunk ends, and
its capacity is what the offset leaves of the frame. -/
structure GridAgrees (reg : Registration) (bufNum : Nat) (bufs : List (BufMmap T)) : Prop where
  chunks : reg.size = bufNum * reg.cfg.frameSize.toNat
  num : bufs.length = bufNum
  start : ∀ (i : Nat) (b : BufMmap T), bufs[i]? = some b →
    b.addr = i * reg.cfg.frameSize.toNat + 256 ∧ b.data.start = b.addr
  stop : ∀ (i : Nat) (b : BufMmap T), bufs[i]? = some b →
    b.data.start + b.data.len = (i + 1) * reg.cfg.frameSize.toNat
  capacity : ∀ b ∈ bufs, ∃ cap, b.getCapacity = .ok cap ∧
    cap.toNat = reg.cfg.frameSize.toNat - 256

variable [Inhabited T]

/-- The chunks of a registration with the frame size that is the buffer length. -/
theorem gridAgrees_chunks {reg : Registration} {bufNum bufLen : Nat}
    (hsize : reg.size = bufNum * bufLen) (hframe : reg.cfg.frameSize.toNat = bufLen)
    (hlen : afXdpReserved ≤ bufLen) (hcap : bufLen - 256 < 2 ^ 16) :
    GridAgrees reg bufNum ((List.range bufNum).map (MmapArea.chunkBuf (T := T) bufLen)) := by
  refine ⟨by rw [hsize, hframe], by simp, ?_, ?_, ?_⟩
  · intro i b hb
    obtain ⟨-, rfl⟩ := getElem?_chunks hb
    rw [hframe]
    exact ⟨rfl, rfl⟩
  · intro i b hb
    obtain ⟨-, rfl⟩ := getElem?_chunks hb
    show i * bufLen + afXdpReserved + (bufLen - afXdpReserved) = _
    rw [hframe, Nat.succ_mul]
    omega
  · intro b hb
    obtain ⟨i, -, rfl⟩ := List.mem_map.1 hb
    refine ⟨UInt16.ofNat (bufLen - 256), if_pos hcap, ?_⟩
    rw [hframe]
    exact Nat.mod_eq_of_lt hcap

/-- Where `MmapArea::new` and then `Umem::new` succeed, and `xsk_umem__create` only accepts a
power of two from 2048 to the page size that divides the size of the area, the two grids agree
exactly if there is no buffer, or the slices have a length that fits a `u16` and the length of the
mapping did not wrap. -/
theorem umemNew_gridAgrees_iff {p : Profile} {mmap : Nat → Nat → Bool}
    {bufNum bufLen pageSize : Nat} {options : MmapAreaOptions} {area : MmapArea}
    {bufs : Vec (BufMmap T)} {create : Nat → XskUmemConfig → Option Int} {c f : UInt32}
    {reg : Registration}
    (hcreate : ∀ size cfg, create size cfg = none →
      (∃ e, cfg.frameSize.toNat = 2 ^ e) ∧ 2048 ≤ cfg.frameSize.toNat ∧
        cfg.frameSize.toNat ≤ pageSize ∧ cfg.frameSize.toNat ∣ size)
    (hnew : MmapArea.new p mmap bufNum bufLen options = .ok (.ok (area, bufs)))
    (humem : umemNew p create area c f = .ok (.ok reg)) :
    GridAgrees reg bufNum bufs.list ↔
      bufNum = 0 ∨ (bufLen - 256 < 2 ^ 16 ∧ bufNum * bufLen < 2 ^ 64) := by
  obtain ⟨rfl, hbufs⟩ := MmapArea.new_release hnew
  obtain ⟨hsize, hcfg, hnone⟩ := umemNew_inv humem
  obtain ⟨-, hmin, -, -⟩ := hcreate _ _ hnone
  have hsize : reg.size = bufNum * bufLen % 2 ^ 64 := hsize
  -- the narrowed length is at most the length, so the length has room for the reserved bytes
  have hframe : reg.cfg.frameSize.toNat = bufLen % 2 ^ 32 := by
    rw [hcfg]
    exact UInt32.toNat_ofNat'
  have hlen : afXdpReserved ≤ bufLen := by
    rw [hframe] at hmin
    exact Nat.le_trans (Nat.le_trans (by decide) hmin) (Nat.mod_le _ _)
  have hfit : bufLen - 256 < 2 ^ 16 → reg.cfg.frameSize.toNat = bufLen := by
    intro hcap
    rw [hframe]
    exact Nat.mod_eq_of_lt (by omega)
  constructor
  · intro hgrid
    rcases Nat.eq_zero_or_pos bufNum with h0 | hpos
    · exact .inl h0
    have hfirst : MmapArea.wrappedBuf bufLen (MmapArea.wrappedAvail bufLen) 0 ∈ bufs.list := by
      rw [hbufs]
      exact List.mem_map_of_mem (List.mem_range.2 hpos)
    obtain ⟨cap, hcap, -⟩ := hgrid.capacity _ hfirst
    have hlt : bufLen - 256 < 2 ^ 16 := by
      have havail : MmapArea.wrappedAvail bufLen = bufLen - 256 := if_pos hlen
      have hcapLen : cap.toNat = bufLen - 256 := (BufMmap.getCapacity_ok hcap).trans havail
      rw [← hcapLen]
      exact cap.toNat_lt
    have hprod : reg.size = bufNum * bufLen := by rw [hgrid.chunks, hfit hlt]
    refine .inr ⟨hlt, ?_⟩
    rw [← hprod, hsize]
    exact Nat.mod_lt _ (by decide)
  · rintro (rfl | ⟨hcap, hlt⟩)
    · rw [hbufs]
      refine ⟨by rw [hsize]; simp, rfl, ?_, ?_, ?_⟩
      · intro i b hb
        simp at hb
      · intro i b hb
        simp at hb
      · intro b hb
        simp at hb
    · have hchunks : bufs.list = (List.range bufNum).map (MmapArea.chunkBuf bufLen) := by
        rw [hbufs]
        refine List.map_congr_left ?_
        intro k hk
        exact MmapArea.wrappedBuf_eq hlen hlt (List.mem_range.1 hk)
      rw [hchunks]
      exact gridAgrees_chunks (by rw [hsize, Nat.mod_eq_of_lt hlt]) (hfit hcap) hlen hcap

end

/-- `xsk_umem__create` over pages of 4096 bytes, with `EINVAL` for what it does not accept. -/
def createChecked (size : Nat) (cfg : XskUmemConfig) : Option Int :=
  if cfg.frameSize = 2048 ∧ size % 2048 = 0 ∨ cfg.frameSize = 4096 ∧ size % 4096 = 0 then none
  else some 22

theorem createChecked_none {size : Nat} {cfg : XskUmemConfig} (h : createChecked size cfg = none) :
    (∃ e, cfg.frameSize.toNat = 2 ^ e) ∧ 2048 ≤ cfg.frameSize.toNat ∧
      cfg.frameSize.toNat ≤ 4096 ∧ cfg.frameSize.toNat ∣ size := by
  unfold createChecked at h
  split at h
  · next hok =>
      rcases hok with ⟨hf, hs⟩ | ⟨hf, hs⟩
      · rw [hf]
        exact ⟨⟨11, rfl⟩, by decide, by decide, Nat.dvd_of_mod_eq_zero hs⟩
      · rw [hf]
        exact ⟨⟨12, rfl⟩, by decide, by decide, Nat.dvd_of_mod_eq_zero hs⟩
  · cases h

theorem umemNew_gridAgrees_iff_two :
    GridAgrees ⟨2 * 2048, umemConfig ⟨2, 2048⟩ 8 8⟩ 2
        (MmapArea.chunkVec (T := Unit) 2 2048).list ↔
      2 = 0 ∨ (2048 - 256 < 2 ^ 16 ∧ 2 * 2048 < 2 ^ 64) := by
  have hnew : MmapArea.new (T := Unit) .release (fun _ _ => true) 2 2048 {} =
      .ok (.ok (⟨2, 2048⟩, MmapArea.chunkVec 2 2048)) :=
    MmapArea.new_ok (by decide) (by decide) rfl
  have humem : umemNew .release createChecked ⟨2, 2048⟩ 8 8 =
      .ok (.ok ⟨2 * 2048, umemConfig ⟨2, 2048⟩ 8 8⟩) := by decide
  exact umemNew_gridAgrees_iff (fun _ _ => createChecked_none) hnew humem

/-- A buffer length of `2 ^ 32 + 2048`: the kernel is told 2048, so it sees more than two million
chunks where the crate has one buffer, whose slice goes on to the end of the area and whose capacity
does not fit. -/
theorem umemNew_narrowed_not_gridAgrees :
    ∃ bufs reg, MmapArea.new (T := Unit) .release (fun len _ => len != 0) 1 (2 ^ 32 + 2048) {} =
        .ok (.ok (⟨1, 2 ^ 32 + 2048⟩, bufs)) ∧
      umemNew .release createChecked ⟨1, 2 ^ 32 + 2048⟩ 8 8 = .ok (.ok reg) ∧
      reg.cfg.frameSize = 2048 ∧ reg.size / 2048 = 2097153 ∧
      bufs.list = [⟨256, 0, ⟨256, 2 ^ 32 + 1792⟩, ()⟩] ∧ ¬ GridAgrees reg 1 bufs.list := by
  refine ⟨⟨[⟨256, 0, ⟨256, 2 ^ 32 + 1792⟩, ()⟩], 1, Nat.le_refl 1⟩,
    ⟨2 ^ 32 + 2048, umemConfig ⟨1, 2 ^ 32 + 2048⟩ 8 8⟩, rfl, by decide, by decide, by decide, rfl,
    ?_⟩
  intro hgrid
  exact absurd hgrid.chunks (by decide)

end Afxdp
