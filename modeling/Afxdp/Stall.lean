import Afxdp.Lib.Backlog
import Afxdp.Steps

/-!
# Progress of `fill` and `try_send`

`fill` and `try_send` ask libbpf for as many slots as there are buffers, but no more than the batch
size, and libbpf grants all of them or none. A request that is larger than the ring is refused by
an empty ring too: the call returns `Ok(0)` and leaves the buffers where they are, so the next call
makes the same request. Both calls are offers in the sense of `Backlog` (`fillOnce_offers`,
`sendOnce_offers`), so they move something into an empty ring, and a caller that repeats them gets
rid of its buffers, exactly if the first request is no larger than the ring
(`fill_trySend_progress_iff`).
-/

namespace Afxdp

open Spsc (RingBuf)
open Backlog (KeepsDraining Rounds)

/-! ## Repeated calls -/

section
variable {δ β : Type}

/-- The state a call ends in, whether it returns or panics. -/
def endState {α σ : Type} : EStateM.Result Panic σ α → σ
  | .ok _ s | .error _ s => s

/-- Call after call on a ring and a collection; the kernel consumes up to `drains k` entries of the
ring after the `k`-th call. -/
def rounds (call : Nat → RingBuf δ × β → RingBuf δ × β) (drains : Nat → Nat)
    (s : RingBuf δ × β) : Nat → RingBuf δ × β
  | 0 => s
  | k + 1 =>
    let s' := call k (rounds call drains s k)
    (s'.1.release (drains k), s'.2)

/-- The call moves at least one element of the collection, of length `len`, to the ring. -/
def Progresses (len : β → Nat) (call : RingBuf δ × β → RingBuf δ × β) (s : RingBuf δ × β) : Prop :=
  ∃ n, 1 ≤ n ∧ len (call s).2 + n = len s.2 ∧ (call s).1.prod = s.1.prod + n

/-- Repeated while the kernel keeps draining the ring, the calls empty the collection. -/
def Empties (len : β → Nat) (call : Nat → RingBuf δ × β → RingBuf δ × β)
    (s : RingBuf δ × β) : Prop :=
  ∀ drains, KeepsDraining drains → ∃ k, len (rounds call drains s k).2 = 0

/-- What waits in the collection and what is in the ring. -/
def backlog (len : β → Nat) (s : RingBuf δ × β) : Backlog.State := ⟨len s.2, s.1.used⟩

/-- The call offers up to `batchSize` elements to the ring. -/
structure Offers (len : β → Nat) (batchSize : Nat)
    (call : RingBuf δ × β → RingBuf δ × β) : Prop where
  size : ∀ s, (call s).1.size = s.1.size
  moved : ∀ s, ∃ n, n = grantCount s.1 true (min (len s.2) batchSize) ∧
    len (call s).2 + n = len s.2 ∧ (call s).1.prod = s.1.prod + n ∧ (call s).1.cons = s.1.cons

variable {len : β → Nat} {batchSize : Nat} {s : RingBuf δ × β}

theorem Offers.backlog {call : RingBuf δ × β → RingBuf δ × β} (h : Offers len batchSize call)
    (s : RingBuf δ × β) : backlog len (call s) = (backlog len s).offer s.1.size batchSize := by
  obtain ⟨n, hn, hlen, hprod, hcons⟩ := h.moved s
  have hused : (call s).1.used = s.1.used + n := by
    have := s.1.cons_le
    rw [RingBuf.used, hprod, hcons, RingBuf.used]
    omega
  rw [grantCount_true] at hn
  rw [Afxdp.backlog, hused]
  rcases Nat.lt_or_ge s.1.size (s.1.used + min (len s.2) batchSize) with hbig | hfit
  · rw [Backlog.offer_of_lt hbig, Afxdp.backlog]
    rw [if_neg (Nat.not_le_of_lt hbig)] at hn
    rw [← hlen, hn, Nat.add_zero, Nat.add_zero]
  · rw [Backlog.offer_of_le hfit]
    rw [if_pos hfit] at hn
    show _ = Backlog.State.mk (len s.2 - min (len s.2) batchSize) _
    rw [← hn, ← hlen, Nat.add_sub_cancel]
    exact congrArg _ (congrArg _ hn)

/-- Into an empty ring an offer moves something exactly if it fits the ring. -/
theorem Offers.progresses_iff {call : RingBuf δ × β → RingBuf δ × β} (h : Offers len batchSize call)
    (hne : len s.2 ≠ 0) (hbatch : 1 ≤ batchSize) (hempty : s.1.used = 0) :
    Progresses len call s ↔ min (len s.2) batchSize ≤ s.1.size := by
  obtain ⟨n, hn, hlen, hprod, -⟩ := h.moved s
  rw [grantCount_true, hempty, Nat.zero_add] at hn
  constructor
  · rintro ⟨m, hm, hlen', -⟩
    by_contra hbig
    rw [if_neg hbig] at hn
    omega
  · intro hfit
    rw [if_pos hfit] at hn
    exact ⟨n, by omega, hlen, hprod⟩

/-- A call offers a batch if it publishes what it was granted and takes it out of the collection. -/
theorem offers_of_publish {call : RingBuf δ × β → RingBuf δ × β}
    (h : ∀ s, ∃ fs x, call s = (s.1.publish fs, x) ∧ len x + fs.length = len s.2 ∧
      fs.length = grantCount s.1 true (min (len s.2) batchSize)) :
    Offers len batchSize call := by
  constructor
  · intro s
    obtain ⟨fs, x, heq, -⟩ := h s
    rw [heq]
    exact RingBuf.publish_size _ _
  · intro s
    obtain ⟨fs, x, heq, hx, hfs⟩ := h s
    obtain ⟨-, hfree⟩ := grantCount_le s.1 true (min (len s.2) batchSize)
    rw [heq]
    exact ⟨fs.length, hfs, hx, RingBuf.publish_prod _ _ (hfs ▸ hfree), RingBuf.publish_cons _ _⟩

variable {call : Nat → RingBuf δ × β → RingBuf δ × β}

theorem rounds_size (h : ∀ k, Offers len batchSize (call k)) (drains : Nat → Nat) (k : Nat) :
    (rounds call drains s k).1.size = s.1.size := by
  induction k with
  | zero => rfl
  | succ k ih => exact ((h k).size _).trans ih

/-- Repeated calls are the rounds of a backlog. -/
theorem rounds_backlog (h : ∀ k, Offers len batchSize (call k)) (drains : Nat → Nat) :
    Rounds s.1.size batchSize drains fun k => backlog len (rounds call drains s k) := by
  intro k
  have hoffer := (h k).backlog (rounds call drains s k)
  rw [rounds_size h] at hoffer
  rw [Backlog.State.round, ← hoffer]
  exact congrArg (Backlog.State.mk _) (RingBuf.release_used _ _)

/-- If the first offer does not fit the ring, the collection stays as long as it is. -/
theorem rounds_len (h : ∀ k, Offers len batchSize (call k))
    (hbig : s.1.size < min (len s.2) batchSize) (drains : Nat → Nat) (k : Nat) :
    len (rounds call drains s k).2 = len s.2 :=
  Backlog.waiting_eq (rounds_backlog h drains) hbig k

/-- Repeated offers empty the collection exactly if the first one fits the ring. -/
theorem empties_iff (h : ∀ k, Offers len batchSize (call k)) (hne : len s.2 ≠ 0)
    (hbatch : 1 ≤ batchSize) :
    Empties len call s ↔ min (len s.2) batchSize ≤ s.1.size := by
  constructor
  · intro hall
    have hdrain : KeepsDraining fun _ => 1 := fun k => ⟨k, Nat.le_refl k, Nat.le_refl 1⟩
    exact (Backlog.cleared_iff (rounds_backlog h _) hbatch hne hdrain).1 (hall _ hdrain)
  · intro hfit drains hdrain
    exact (Backlog.cleared_iff (rounds_backlog h drains) hbatch hne hdrain).2 hfit

end

/-! ## The two calls -/

section
variable {T : Type}

/-- A ring and a vector after a `fill`. A reservation is granted if there is room for it. -/
def fillOnce (batchSize : Nat) (s : RingBuf Nat × Vec (BufMmap T)) :
    RingBuf Nat × Vec (BufMmap T) :=
  let c := endState (fill .release (prodView s.1 true false .sent) batchSize ⟨s.2, []⟩)
  (replay Ffi.onFill c.trace s.1, c.bufs)

/-- A ring and a deque after a `try_send`. A reservation is granted if there is room for it. -/
def sendOnce (batchSize : Nat) (wake : Bool) (send : Sendto)
    (s : RingBuf XdpDesc × ArrayDeque (BufMmap T)) : RingBuf XdpDesc × ArrayDeque (BufMmap T) :=
  let c := endState (trySend .release (prodView s.1 true wake send) batchSize ⟨s.2, []⟩)
  (replay Ffi.onTx c.trace s.1, c.bufs)

theorem fillOnce_offers (batchSize : Nat) :
    Offers Vec.len batchSize (fillOnce (T := T) batchSize) := by
  refine offers_of_publish fun s => ?_
  obtain ⟨tr, hcall, hreplay⟩ := fill_prodView s.1 true batchSize s.2
  obtain ⟨n, hn⟩ : ∃ n, grantCount s.1 true (min s.2.len batchSize) = n := ⟨_, rfl⟩
  have hreq := (grantCount_le s.1 true (min s.2.len batchSize)).1
  rw [hn] at hcall hreplay hreq ⊢
  have hle : n ≤ s.2.list.length := Nat.le_trans hreq (Nat.min_le_left _ _)
  have heq : fillOnce batchSize s = (replay Ffi.onFill tr s.1, s.2.dropLast n) := by
    rw [fillOnce, hcall]
    rfl
  rw [hreplay] at heq
  refine ⟨_, _, heq, ?_, ?_⟩
  · simp only [Vec.len, Vec.dropLast, List.length_take, List.length_map, List.length_reverse]
    omega
  · simpa using hle

theorem sendOnce_offers (batchSize : Nat) (wake : Bool) (send : Sendto) :
    Offers ArrayDeque.len batchSize (sendOnce (T := T) batchSize wake send) := by
  refine offers_of_publish fun s => ?_
  obtain ⟨n, tr, hn, hreplay, -, hok, hpanic⟩ :=
    trySend_prodView s.1 true wake send batchSize s.2
  have hreq := (grantCount_le s.1 true (min s.2.len batchSize)).1
  rw [← hn] at hreq ⊢
  have hle : n ≤ s.2.list.length := Nat.le_trans hreq (Nat.min_le_left _ _)
  -- whether the `sendto` fails or not, the slots are submitted
  have heq : sendOnce batchSize wake send s = (replay Ffi.onTx tr s.1, s.2.drop n) := by
    rw [sendOnce]
    by_cases hsend : min s.2.len batchSize ≠ 0 → wake = true → send.Accepted
    · rw [hok hsend]
      rfl
    · simp only [Classical.not_imp] at hsend
      rw [hpanic hsend.1 hsend.2.1 hsend.2.2]
      rfl
  rw [hreplay] at heq
  refine ⟨_, _, heq, ?_, ?_⟩
  · simp only [ArrayDeque.len, ArrayDeque.drop, List.length_take, List.length_map,
      List.length_drop]
    omega
  · simpa using hle

/-- Take a fill ring and a Tx ring of any size and contents, any buffers, and any batch size from
1 on. Into the empty ring a call moves at least one buffer, and calls that are repeated while the
kernel keeps draining the ring empty the collection, exactly if the first request, the smaller one
of the number of buffers and the batch size, is no larger than the ring. For `try_send` this holds
whatever the wakeup flag is and `sendto` does. -/
theorem fill_trySend_progress_iff (fq : RingBuf Nat) (tx : RingBuf XdpDesc)
    (v : Vec (BufMmap T)) (d : ArrayDeque (BufMmap T)) (batchSize : Nat) (hv : v.list ≠ [])
    (hd : d.list ≠ []) (hbatch : 1 ≤ batchSize) :
    ((fq.used = 0 →
        (Progresses Vec.len (fillOnce batchSize) (fq, v) ↔ min v.len batchSize ≤ fq.size)) ∧
      (Empties Vec.len (fun _ => fillOnce batchSize) (fq, v) ↔ min v.len batchSize ≤ fq.size)) ∧
    ∀ (wake : Nat → Bool) (send : Nat → Sendto),
      (tx.used = 0 →
        (Progresses ArrayDeque.len (sendOnce batchSize (wake 0) (send 0)) (tx, d) ↔
          min d.len batchSize ≤ tx.size)) ∧
      (Empties ArrayDeque.len (fun k => sendOnce batchSize (wake k) (send k)) (tx, d) ↔
        min d.len batchSize ≤ tx.size) := by
  have hv' : v.len ≠ 0 := fun h => hv (List.length_eq_zero_iff.1 h)
  have hd' : d.len ≠ 0 := fun h => hd (List.length_eq_zero_iff.1 h)
  refine ⟨⟨?_, ?_⟩, fun wake send => ⟨?_, ?_⟩⟩
  · exact (fillOnce_offers batchSize).progresses_iff (s := (fq, v)) hv' hbatch
  · exact empties_iff (fun _ => fillOnce_offers batchSize) hv' hbatch
  · exact (sendOnce_offers batchSize (wake 0) (send 0)).progresses_iff (s := (tx, d)) hd' hbatch
  · exact empties_iff (fun k => sendOnce_offers batchSize (wake k) (send k)) hd' hbatch

end

/-- A fill ring and a Tx ring of 64 slots. -/
def fill64 : RingBuf Nat := .empty 6 0

def tx64 : RingBuf XdpDesc := .empty 6 ⟨0, 0, 0⟩

/-- 128 buffers, in a vector and in a deque. -/
def vec128 : Vec (BufMmap Unit) := MmapArea.chunkVec 128 2048

def deque128 : ArrayDeque (BufMmap Unit) :=
  ⟨vec128.list, pendingLen, Nat.le_trans vec128.le (by decide)⟩

theorem vec128_len : vec128.len = 128 := by
  simp [vec128, MmapArea.chunkVec, Vec.len]

theorem deque128_len : deque128.len = 128 := vec128_len

/-- In batches of 64 the buffers fit the rings. -/
theorem fill_trySend_progress_iff_64 :
    ((fill64.used = 0 →
        (Progresses Vec.len (fillOnce 64) (fill64, vec128) ↔ min vec128.len 64 ≤ fill64.size)) ∧
      (Empties Vec.len (fun _ => fillOnce 64) (fill64, vec128) ↔
        min vec128.len 64 ≤ fill64.size)) ∧
    ∀ (wake : Nat → Bool) (send : Nat → Sendto),
      (tx64.used = 0 →
        (Progresses ArrayDeque.len (sendOnce 64 (wake 0) (send 0)) (tx64, deque128) ↔
          min deque128.len 64 ≤ tx64.size)) ∧
      (Empties ArrayDeque.len (fun k => sendOnce 64 (wake k) (send k)) (tx64, deque128) ↔
        min deque128.len 64 ≤ tx64.size) :=
  fill_trySend_progress_iff fill64 tx64 vec128 deque128 64 (List.cons_ne_nil _ _)
    (List.cons_ne_nil _ _) (by decide)

/-- With a batch size of 128 neither call ever moves a buffer, however the kernel drains the empty
rings. -/
theorem batch_of_128_stalls :
    fill64.used = 0 ∧ ¬ Progresses Vec.len (fillOnce 128) (fill64, vec128) ∧
      (∀ drains k, (rounds (fun _ => fillOnce 128) drains (fill64, vec128) k).2.len = 128) ∧
    tx64.used = 0 ∧ ¬ Progresses ArrayDeque.len (sendOnce 128 true .sent) (tx64, deque128) ∧
      ∀ drains k,
        (rounds (fun _ => sendOnce 128 true .sent) drains (tx64, deque128) k).2.len = 128 := by
  have hbig : ¬ min 128 128 ≤ 2 ^ 6 := by decide
  refine ⟨rfl, ?_, ?_, rfl, ?_, ?_⟩
  · rw [(fillOnce_offers 128).progresses_iff (s := (fill64, vec128)) (by rw [vec128_len]; decide)
      (by decide) rfl, vec128_len]
    exact hbig
  · intro drains k
    refine (rounds_len (fun _ => fillOnce_offers 128) ?_ drains k).trans vec128_len
    rw [vec128_len]
    exact Nat.lt_of_not_le hbig
  · rw [(sendOnce_offers 128 true .sent).progresses_iff (s := (tx64, deque128))
      (by rw [deque128_len]; decide) (by decide) rfl, deque128_len]
    exact hbig
  · intro drains k
    refine (rounds_len (fun _ => sendOnce_offers 128 true .sent) ?_ drains k).trans deque128_len
    rw [deque128_len]
    exact Nat.lt_of_not_le hbig

end Afxdp
