import Afxdp.Socket
import Afxdp.Umem

/-!
# The batch loops at the wrap of the ring cursor

libbpf's cursors wrap at `2 ^ 32`, so a peek or a reservation may return any start index. Every
loop of the four batch calls ends its iteration with `idx += 1`, the last iteration too. In a
release build the index wraps with the cursor and the calls access the right slots; in a debug
build the increment that reaches `2 ^ 32` panics, after the entries were peeked or reserved and
before they are released or submitted (`BatchCall.run_overflow`). The calls survive exactly if the
batch ends below `2 ^ 32` (`BatchCall.survives_iff`).
-/

namespace Afxdp

open Spsc (cursor cursor_toNat)
open Loop (forRange)

variable {T : Type}

/-! ## Calls and their outcomes -/

/-- A batch call with its arguments: the collection it works on and what libbpf answers. -/
inductive BatchCall (T : Type)
  | tryRecv (area : MmapArea) (rx : XskRingCons XdpDesc) (batchSize : Nat) (user : T)
      (bufs : ArrayDeque (BufMmap T))
  | trySend (tx : XskRingProd) (batchSize : Nat) (bufs : ArrayDeque (BufMmap T))
  | service (area : MmapArea) (cq : XskRingCons Nat) (batchSize : Nat) (bufs : Vec (BufMmap T))
  | fill (fq : XskRingProd) (batchSize : Nat) (bufs : Vec (BufMmap T))

/-- The elements and the capacity of a deque. -/
def ArrayDeque.contents {α : Type} (d : ArrayDeque α) : List α × Nat := (d.list, d.capacity)

/-- The elements and the capacity of a vector. -/
def Vec.contents {α : Type} (v : Vec α) : List α × Nat := (v.list, v.capacity)

/-- How a call ends: the number it returned (`none` for an `Err`) or why it panicked, the elements
and the capacity of the collection, and the libbpf calls made. -/
structure Outcome (T : Type) where
  ret : Except Panic (Option Nat)
  bufs : List (BufMmap T) × Nat
  trace : List Ffi

/-- The outcome of a finished computation. -/
def outcome {β ε : Type} (bufs : β → List (BufMmap T) × Nat) :
    EStateM.Result Panic (Call β) (Except ε Nat) → Outcome T
  | .ok (.ok n) c => ⟨.ok (some n), bufs c.bufs, c.trace⟩
  | .ok (.error _) c => ⟨.ok none, bufs c.bufs, c.trace⟩
  | .error e c => ⟨.error e, bufs c.bufs, c.trace⟩

/-- The index of the slot an access goes to. -/
def Ffi.slot? : Ffi → Option UInt32
  | .rxDesc idx | .compAddr idx | .txDesc idx _ _ | .fillAddr idx _ => some idx
  | _ => none

/-- The indices of the slots that were accessed, in order. -/
def slots (trace : List Ffi) : List Nat := (trace.filterMap Ffi.slot?).map UInt32.toNat

namespace BatchCall

variable [Inhabited T]

/-- Make the call. -/
def run (p : Profile) : BatchCall T → Outcome T
  | .tryRecv area rx batchSize user bufs =>
    outcome ArrayDeque.contents (Afxdp.tryRecv p area rx batchSize user ⟨bufs, []⟩)
  | .trySend tx batchSize bufs =>
    outcome ArrayDeque.contents (Afxdp.trySend p tx batchSize ⟨bufs, []⟩)
  | .service area cq batchSize bufs =>
    outcome Vec.contents (Afxdp.service p area cq batchSize ⟨bufs, []⟩)
  | .fill fq batchSize bufs =>
    outcome Vec.contents (Afxdp.fill p fq batchSize ⟨bufs, []⟩)

/-- libbpf grants the call `n` entries from the index `s` on, not more than it asks for, and the
call has no other reason to panic: the area has room for the reserved bytes, the received lengths
fit a `u16`, and a `sendto` does not fail with an unexpected error. -/
def Granted (s : UInt32) (n : Nat) : BatchCall T → Prop
  | .tryRecv area rx batchSize _ bufs =>
    rx.peek (recvRequest bufs batchSize) = (n, s) ∧ n ≤ recvRequest bufs batchSize ∧
      afXdpReserved ≤ area.bufLen ∧ ∀ i, i < n → (rx.desc (cursor (s.toNat + i))).len < 2 ^ 16
  | .trySend tx batchSize bufs =>
    tx.reserve (min bufs.len batchSize) = (n, s) ∧ n ≤ min bufs.len batchSize ∧
      (tx.needsWakeup = true → tx.sendto.Accepted)
  | .service area cq batchSize bufs =>
    cq.peek (serviceRequest bufs batchSize) = (n, s) ∧ n ≤ serviceRequest bufs batchSize ∧
      afXdpReserved ≤ area.bufLen
  | .fill fq batchSize bufs =>
    fq.reserve (min bufs.len batchSize) = (n, s) ∧ n ≤ min bufs.len batchSize

/-- The call that is granted `n` entries from the index `s` on accesses exactly their slots, in
order, and returns `n`; and overflow checks make no difference to it. -/
def Survives (call : BatchCall T) (s : UInt32) (n : Nat) : Prop :=
  (call.run .release).ret = .ok (some n) ∧
  slots (call.run .release).trace = (List.range n).map (fun i => (s.toNat + i) % 2 ^ 32) ∧
  call.run .debug = call.run .release

end BatchCall

/-! ## Without overflow -/

/-- The slots a loop accesses, one in each iteration. -/
theorem slots_loop {before after : List Ffi} {ev : Nat → Ffi} {c n : Nat}
    (hev : ∀ i, (ev i).slot? = some (cursor (c + i))) (hb : ∀ e ∈ before, e.slot? = none)
    (ha : ∀ e ∈ after, e.slot? = none) :
    slots (before ++ (List.range n).map ev ++ after) =
      (List.range n).map fun i => (c + i) % 2 ^ 32 := by
  have hnone : ∀ {tr : List Ffi}, (∀ e ∈ tr, e.slot? = none) → tr.filterMap Ffi.slot? = [] :=
    fun h => List.filterMap_eq_nil_iff.2 h
  have hloop : ((List.range n).map ev).filterMap Ffi.slot? =
      (List.range n).map fun i => cursor (c + i) := by
    rw [List.filterMap_map, ← List.filterMap_eq_map]
    exact List.filterMap_congr fun i _ => hev i
  rw [slots, List.filterMap_append, List.filterMap_append, hnone hb, hnone ha, hloop,
    List.nil_append, List.append_nil, List.map_map]
  exact List.map_congr_left fun i _ => cursor_toNat _

theorem slot?_wakeupTrace (tx : XskRingProd) : ∀ e ∈ wakeupTrace tx, e.slot? = none := by
  intro e he
  unfold wakeupTrace at he
  split at he
  · rw [List.mem_singleton] at he
    subst he
    rfl
  · cases he

namespace BatchCall

variable [Inhabited T] {s : UInt32} {n : Nat}

/-- In a build in which no increment overflows, the call accesses the slots it was granted and
returns their number; the outcome does not depend on the build otherwise. -/
theorem run_ok (call : BatchCall T) (hn : 0 < n) (hg : call.Granted s n) :
    ∃ o : Outcome T, o.ret = .ok (some n) ∧
      slots o.trace = (List.range n).map (fun i => (s.toNat + i) % 2 ^ 32) ∧
      ∀ p : Profile, p.Increments s.toNat n → call.run p = o := by
  have hs : cursor s.toNat = s := UInt32.ofNat_toNat
  cases call with
  | tryRecv area rx batchSize user bufs =>
    obtain ⟨hpeek, hle, hlen, hdesc⟩ := hg
    rw [← hs] at hpeek
    refine ⟨_, ?_, ?_, fun p hinc =>
      congrArg (outcome ArrayDeque.contents) (tryRecv_eq hpeek hn hle hinc hlen hdesc)⟩
    · rfl
    · exact slots_loop (fun _ => rfl) (by simp [Ffi.slot?]) (by simp [Ffi.slot?])
  | trySend tx batchSize bufs =>
    obtain ⟨hres, hle, hsend⟩ := hg
    rw [← hs] at hres
    refine ⟨_, ?_, ?_, fun p hinc =>
      congrArg (outcome ArrayDeque.contents) (trySend_eq (by omega) hres hle hinc hsend)⟩
    · rfl
    · simp only [outcome, if_pos hn, List.append_assoc]
      rw [← List.append_assoc]
      refine slots_loop (fun _ => rfl) (by simp [Ffi.slot?]) ?_
      intro e he
      rcases List.mem_append.1 he with he | he
      · rw [List.mem_singleton] at he
        subst he
        rfl
      · exact slot?_wakeupTrace tx e he
  | service area cq batchSize bufs =>
    obtain ⟨hpeek, -, hlen⟩ := hg
    rw [← hs] at hpeek
    refine ⟨_, ?_, ?_, fun p hinc =>
      congrArg (outcome Vec.contents) (service_eq hpeek hn hinc hlen)⟩
    · rfl
    · exact slots_loop (fun _ => rfl) (by simp [Ffi.slot?]) (by simp [Ffi.slot?])
  | fill fq batchSize bufs =>
    obtain ⟨hres, hle⟩ := hg
    rw [← hs] at hres
    refine ⟨_, ?_, ?_, fun p hinc => congrArg (outcome Vec.contents) (fill_eq hres hn hle hinc)⟩
    · rfl
    · exact slots_loop (fun _ => rfl) (by simp [Ffi.slot?]) (by simp [Ffi.slot?])

end BatchCall

/-! ## With overflow -/

section
variable {n c : Nat}

theorem tryRecv_overflow (area : MmapArea) {rx : XskRingCons XdpDesc} {batchSize : Nat} (user : T)
    {d : ArrayDeque (BufMmap T)}
    (hpeek : rx.peek (recvRequest d batchSize) = (n, cursor c)) (hn : n ≠ 0)
    (hle : n ≤ recvRequest d batchSize) (hlen : afXdpReserved ≤ area.bufLen)
    (hdesc : ∀ i, i < n → (rx.desc (cursor (c + i))).len < 2 ^ 16)
    (hover : 2 ^ 32 ≤ (cursor c).toNat + n) :
    ∃ s, tryRecv .debug area rx batchSize user ⟨d, []⟩ = .error .overflow s := by
  obtain ⟨k, -, hloop⟩ := (tryRecvBody_advances .debug (area.bufLen - afXdpReserved) user
    [.peek (recvRequest d batchSize) n (cursor c)] (room_of_recvRequest hle) hdesc).overflow hover
  simp only [List.range_zero, List.map_nil, ArrayDeque.pushAll_nil, List.append_nil] at hloop
  rw [recvRequest] at hpeek hloop
  simp only [tryRecv, CallM.bind_apply, CallM.bufs_apply, ArrayDeque.sub_len, CallM.ofExcept_ok,
    hpeek, CallM.ffi_apply, hn, if_false, MmapArea.getBufLen, Profile.debug.sub64_ok hlen,
    List.nil_append, hloop]
  exact ⟨_, rfl⟩

theorem trySend_overflow {tx : XskRingProd} {batchSize : Nat} {d : ArrayDeque (BufMmap T)}
    (hres : tx.reserve (min d.len batchSize) = (n, cursor c)) (hn : n ≠ 0)
    (hle : n ≤ min d.len batchSize) (hover : 2 ^ 32 ≤ (cursor c).toNat + n) :
    ∃ s, trySend .debug tx batchSize ⟨d, []⟩ = .error .overflow s := by
  have hpos : min d.len batchSize ≠ 0 := by omega
  obtain ⟨k, -, hloop⟩ := (trySendBody_advances .debug c
    [.reserve (min d.len batchSize) n (cursor c)]
    (Nat.le_trans hle (Nat.min_le_left _ _))).overflow hover
  simp only [List.range_zero, List.map_nil, ArrayDeque.drop_zero, List.append_nil] at hloop
  simp only [trySend, CallM.bind_apply, CallM.bufs_apply, hpos, if_false, hres, CallM.ffi_apply,
    List.nil_append, hloop]
  exact ⟨_, rfl⟩

theorem service_overflow [Inhabited T] {area : MmapArea} {cq : XskRingCons Nat} {batchSize : Nat}
    {v : Vec (BufMmap T)} (hpeek : cq.peek (serviceRequest v batchSize) = (n, cursor c))
    (hn : n ≠ 0) (hlen : afXdpReserved ≤ area.bufLen) (hover : 2 ^ 32 ≤ (cursor c).toNat + n) :
    ∃ s, service .debug area cq batchSize ⟨v, []⟩ = .error .overflow s := by
  obtain ⟨k, -, hloop⟩ := (serviceBody_advances .debug cq (area.bufLen - afXdpReserved) c n v
    [.peek (serviceRequest v batchSize) n (cursor c)]).overflow hover
  simp only [List.range_zero, List.map_nil, Vec.pushAll_nil, List.append_nil] at hloop
  rw [serviceRequest] at hpeek hloop
  simp only [service, CallM.bind_apply, CallM.bufs_apply, Vec.sub_len, CallM.ofExcept_ok, hpeek,
    CallM.ffi_apply, hn, if_false, MmapArea.getBufLen, Profile.debug.sub64_ok hlen,
    List.nil_append, hloop]
  exact ⟨_, rfl⟩

theorem fill_overflow {fq : XskRingProd} {batchSize : Nat} {v : Vec (BufMmap T)}
    (hres : fq.reserve (min v.len batchSize) = (n, cursor c)) (hn : n ≠ 0)
    (hle : n ≤ min v.len batchSize) (hover : 2 ^ 32 ≤ (cursor c).toNat + n) :
    ∃ s, fill .debug fq batchSize ⟨v, []⟩ = .error .overflow s := by
  have hpos : min v.len batchSize ≠ 0 := by omega
  obtain ⟨k, -, hloop⟩ := (fillBody_advances .debug c
    [.reserve (min v.len batchSize) n (cursor c)]
    (Nat.le_trans hle (Nat.min_le_left _ _))).overflow hover
  simp only [List.range_zero, List.map_nil, Vec.dropLast_zero, List.append_nil] at hloop
  simp only [fill, CallM.bind_apply, CallM.bufs_apply, hpos, if_false, hres, CallM.ffi_apply,
    List.nil_append, hloop]
  exact ⟨_, rfl⟩

namespace BatchCall

variable [Inhabited T] {s : UInt32}

/-- A batch that reaches `2 ^ 32` makes the call panic under overflow checks, also if it only
reaches it with the increment past its last slot. -/
theorem run_overflow (call : BatchCall T) (hn : 0 < n) (hg : call.Granted s n)
    (hover : 2 ^ 32 ≤ s.toNat + n) : (call.run .debug).ret = .error .overflow := by
  have hs : cursor s.toNat = s := UInt32.ofNat_toNat
  have hn : n ≠ 0 := Nat.pos_iff_ne_zero.1 hn
  rw [← hs] at hover
  cases call with
  | tryRecv area rx batchSize user bufs =>
    obtain ⟨hpeek, hle, hlen, hdesc⟩ := hg
    rw [← hs] at hpeek
    obtain ⟨_, h⟩ := tryRecv_overflow area user hpeek hn hle hlen hdesc hover
    rw [run, h]; rfl
  | trySend tx batchSize bufs =>
    obtain ⟨hres, hle, -⟩ := hg
    rw [← hs] at hres
    obtain ⟨_, h⟩ := trySend_overflow hres hn hle hover
    rw [run, h]; rfl
  | service area cq batchSize bufs =>
    obtain ⟨hpeek, -, hlen⟩ := hg
    rw [← hs] at hpeek
    obtain ⟨_, h⟩ := service_overflow hpeek hn hlen hover
    rw [run, h]; rfl
  | fill fq batchSize bufs =>
    obtain ⟨hres, hle⟩ := hg
    rw [← hs] at hres
    obtain ⟨_, h⟩ := fill_overflow hres hn hle hover
    rw [run, h]; rfl

/-- The batch calls survive the wrap of the cursor exactly if the batch does not reach it. -/
theorem survives_iff (call : BatchCall T) (s : UInt32) (n : Nat) (hn : 0 < n)
    (hg : call.Granted s n) : call.Survives s n ↔ s.toNat + n < 2 ^ 32 := by
  obtain ⟨o, hret, hslots, hrun⟩ := call.run_ok hn hg
  have hrel : call.run .release = o := hrun .release (.inl rfl)
  constructor
  · rintro ⟨-, -, hsame⟩
    by_contra hover
    have hpanic := call.run_overflow hn hg (Nat.le_of_not_lt hover)
    rw [hsame, hrel, hret] at hpanic
    cases hpanic
  · intro hlt
    have hs : cursor s.toNat = s := UInt32.ofNat_toNat
    have hdbg : call.run .debug = o := hrun .debug (.inr (by rwa [hs]))
    exact ⟨hrel ▸ hret, hrel ▸ hslots, hdbg.trans hrel.symm⟩

/-- A `service` with room for one buffer, on a completion ring that has one entry, at `s`. -/
def serviceAt (s : UInt32) : BatchCall Unit :=
  .service ⟨1, 2048⟩ ⟨fun nb => (min nb 1, s), fun _ => 256⟩ 1 (.withCapacity 1)

theorem serviceAt_granted (s : UInt32) : (serviceAt s).Granted s 1 :=
  ⟨rfl, by decide, by decide⟩

theorem survives_iff_serviceAt :
    (serviceAt 0xfffffffe).Survives 0xfffffffe 1 ↔ (0xfffffffe : UInt32).toNat + 1 < 2 ^ 32 :=
  survives_iff (serviceAt 0xfffffffe) 0xfffffffe 1 (by decide) (serviceAt_granted _)

/-- At the last index the single increment, past the only slot, panics in a debug build. -/
theorem serviceAt_not_survives :
    (serviceAt 0xffffffff).Granted 0xffffffff 1 ∧
      (serviceAt 0xffffffff).run .debug ≠ (serviceAt 0xffffffff).run .release ∧
      ¬ (serviceAt 0xffffffff).Survives 0xffffffff 1 := by
  have hg := serviceAt_granted 0xffffffff
  have hdbg := (serviceAt 0xffffffff).run_overflow (by decide) hg (by decide)
  have hne : (serviceAt 0xffffffff).run .debug ≠ (serviceAt 0xffffffff).run .release := by
    obtain ⟨o, hret, -, hrun⟩ := (serviceAt 0xffffffff).run_ok (by decide) hg
    intro hsame
    rw [hsame, hrun .release (.inl rfl), hret] at hdbg
    cases hdbg
  exact ⟨hg, hne, fun h => hne h.2.2⟩

end BatchCall

end

end Afxdp
