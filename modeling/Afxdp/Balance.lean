import Afxdp.CursorWrap
import Afxdp.Lib.Mask
import Afxdp.Lib.Run
import Mathlib.Data.List.Nodup

/-!
# Reserve and submit, peek and release balance

libbpf keeps two cursors for the application's end of each ring: a cached one, which a reservation
or a peek moves, and a published one, which a submission or a release moves (`Cursors`). A batch
call makes all of its libbpf calls on one ring. Whatever libbpf answers, within its contract, the
call writes what it reserved slot by slot and submits it, reads what it peeked slot by slot and
releases it, and meets none of its internal panics (`RingCall.run_sound`). So in every sequence of
calls the two cursors of every ring are the same between the calls (`ringCalls_sound`). What the
kernel does in the meantime shows only in what libbpf answers, which is left open.
-/

namespace Afxdp

open Run (run EveryStep everyStep_of_invariant run_invariant run_of_total)
open Spsc (cursor)

variable {T : Type}

/-! ## Cursors -/

/-- The application's end of a ring: the cursor up to which libbpf has handed out entries, and the
one that the kernel can see. -/
structure Cursors where
  cached : UInt32
  published : UInt32
deriving DecidableEq, Repr

/-- Everything that was handed out is submitted or released. -/
def Cursors.InStep (r : Cursors) : Prop := r.cached = r.published

/-- The effect of a libbpf call on the cursors of its ring. -/
def Ffi.onCursors : Ffi → Cursors → Cursors
  | .peek _ got _, r | .reserve _ got _, r => { r with cached := r.cached + UInt32.ofNat got }
  | .release nb, r | .submit nb, r => { r with published := r.published + UInt32.ofNat nb }
  | _, r => r

/-- The effect of a call's libbpf calls on the cursors of its ring. -/
def Cursors.replay (r : Cursors) (trace : List Ffi) : Cursors :=
  trace.foldl (fun r e => e.onCursors r) r

/-! ## What a call did with its ring -/

/-- How many entries of a ring were reserved, submitted, peeked and released, and the indices of
the slots that were written and read, in order. -/
structure Account where
  reserved : Nat := 0
  submitted : Nat := 0
  peeked : Nat := 0
  released : Nat := 0
  written : List UInt32 := []
  read : List UInt32 := []
deriving DecidableEq, Repr

namespace Account

/-- One account after the other. -/
def append (a b : Account) : Account :=
  ⟨a.reserved + b.reserved, a.submitted + b.submitted, a.peeked + b.peeked,
    a.released + b.released, a.written ++ b.written, a.read ++ b.read⟩

@[simp] theorem nil_append (a : Account) : append {} a = a := by
  simp [append]

theorem append_assoc (a b c : Account) : (a.append b).append c = a.append (b.append c) := by
  simp [append, Nat.add_assoc]

end Account

/-- The account of one libbpf call. -/
def Ffi.account : Ffi → Account
  | .reserve _ got _ => { reserved := got }
  | .submit nb => { submitted := nb }
  | .peek _ got _ => { peeked := got }
  | .release nb => { released := nb }
  | .txDesc idx _ _ | .fillAddr idx _ => { written := [idx] }
  | .rxDesc idx | .compAddr idx => { read := [idx] }
  | .sendto => {}

/-- The account of the libbpf calls of a call. -/
def account (trace : List Ffi) : Account := trace.foldr (fun e a => e.account.append a) {}

/-- The `n` indices from `start` on, modulo `2 ^ 32`. -/
def consecutive (start : UInt32) (n : Nat) : List UInt32 :=
  (List.range n).map fun i => start + UInt32.ofNat i

/-- What was reserved is written slot by slot, in order, and submitted; what was peeked is read
slot by slot, in order, and released. -/
structure Account.Balanced (start : UInt32) (a : Account) : Prop where
  written : a.written = consecutive start a.reserved
  submitted : a.submitted = a.reserved
  read : a.read = consecutive start a.peeked
  released : a.released = a.peeked

@[simp] theorem account_cons (e : Ffi) (tr : List Ffi) :
    account (e :: tr) = e.account.append (account tr) := rfl

theorem account_append (tr tr' : List Ffi) :
    account (tr ++ tr') = (account tr).append (account tr') := by
  induction tr with
  | nil => exact (Account.nil_append _).symm
  | cons e tr ih =>
      rw [List.cons_append, account_cons, ih, ← Account.append_assoc, ← account_cons]

/-- A trace moves the cached cursor by what it reserved and peeked, and the published one by what
it submitted and released. -/
theorem Cursors.replay_eq (r : Cursors) (tr : List Ffi) : r.replay tr =
    ⟨r.cached + UInt32.ofNat ((account tr).reserved + (account tr).peeked),
      r.published + UInt32.ofNat ((account tr).submitted + (account tr).released)⟩ := by
  induction tr generalizing r with
  | nil => simp [replay, account]
  | cons e tr ih =>
      rw [replay, List.foldl_cons, ← replay, ih, account_cons]
      cases e <;>
        simp [Ffi.onCursors, Ffi.account, Account.append, UInt32.add_assoc, ← UInt32.ofNat_add,
          Nat.add_assoc, Nat.add_left_comm]

/-- A balanced trace keeps the two cursors together. -/
theorem Account.Balanced.inStep {start : UInt32} {tr : List Ffi}
    (h : (account tr).Balanced start) {r : Cursors} (hr : r.InStep) : (r.replay tr).InStep := by
  rw [Cursors.replay_eq, Cursors.InStep, h.submitted, h.released,
    show r.cached = r.published from hr]

/-- No slot of a ring of `2 ^ e` slots is met twice by consecutive indices that are no more than
the ring has slots. -/
theorem consecutive_nodup (start : UInt32) {n e : Nat} (he : e ≤ 32) (hn : n ≤ 2 ^ e) :
    ((consecutive start n).map fun idx => idx.toNat % 2 ^ e).Nodup := by
  have hdvd : 2 ^ e ∣ 2 ^ 32 := Nat.pow_dvd_pow 2 he
  rw [consecutive, List.map_map]
  refine List.Nodup.map_on ?_ List.nodup_range
  intro i hi j hj hij
  rw [List.mem_range] at hi hj
  simp only [Function.comp_apply, UInt32.toNat_add, UInt32.toNat_ofNat', Nat.add_mod_mod,
    Nat.mod_mod_of_dvd _ hdvd] at hij
  exact (Mask.bijOn_add_mod start.toNat).injOn (Nat.lt_of_lt_of_le hi hn)
    (Nat.lt_of_lt_of_le hj hn) hij

theorem consecutive_succ (start : UInt32) (n : Nat) :
    consecutive start (n + 1) = consecutive start n ++ [start + UInt32.ofNat n] := by
  rw [consecutive, List.range_succ, List.map_append]
  rfl

/-! ## The traces of the calls -/

/-- The account of a loop that writes one slot in each iteration. -/
theorem account_writes {start : UInt32} {ev : Nat → Ffi} (n : Nat)
    (hev : ∀ i, (ev i).account = { written := [start + UInt32.ofNat i] }) :
    account ((List.range n).map ev) = { written := consecutive start n } := by
  induction n with
  | zero => rfl
  | succ n ih =>
      rw [List.range_succ, List.map_append, account_append, ih, consecutive_succ]
      simp [account, hev, Account.append]

/-- The account of a loop that reads one slot in each iteration. -/
theorem account_reads {start : UInt32} {ev : Nat → Ffi} (n : Nat)
    (hev : ∀ i, (ev i).account = { read := [start + UInt32.ofNat i] }) :
    account ((List.range n).map ev) = { read := consecutive start n } := by
  induction n with
  | zero => rfl
  | succ n ih =>
      rw [List.range_succ, List.map_append, account_append, ih, consecutive_succ]
      simp [account, hev, Account.append]

theorem cursor_add (c i : Nat) : cursor (c + i) = cursor c + UInt32.ofNat i :=
  UInt32.ofNat_add c i

theorem cursor_toNat_add (start : UInt32) (i : Nat) :
    cursor (start.toNat + i) = start + UInt32.ofNat i := by
  rw [cursor_add, cursor, UInt32.ofNat_toNat]

/-- The account of `n` slots that are reserved, written in ring order and, if any, submitted. -/
theorem account_produce (start idx : UInt32) (nb n : Nat) (ev : Nat → Ffi)
    (hev : ∀ i, (ev i).account = { written := [start + UInt32.ofNat i] }) :
    account ([.reserve nb n idx] ++ (List.range n).map ev ++
      (if 0 < n then [.submit n] else [])) =
      { reserved := n, submitted := n, written := consecutive start n } := by
  have hpost : account (if 0 < n then [.submit n] else []) = { submitted := n } := by
    rcases Nat.eq_zero_or_pos n with rfl | hn
    · rfl
    · rw [if_pos hn]
      rfl
  rw [account_append, account_append, account_writes n hev, hpost]
  simp [account, Ffi.account, Account.append]

/-- The account of `n` entries that are peeked, read in ring order and released. -/
theorem account_consume (start idx : UInt32) (nb n : Nat) (ev : Nat → Ffi)
    (hev : ∀ i, (ev i).account = { read := [start + UInt32.ofNat i] }) :
    account ([.peek nb n idx] ++ (List.range n).map ev ++ [.release n]) =
      { peeked := n, released := n, read := consecutive start n } := by
  rw [account_append, account_append, account_reads n hev]
  simp [account, Ffi.account, Account.append]

/-! ## The calls -/

/-- A batch call with its arguments and with what libbpf answers: how many entries it hands out for
each number that is asked for, and what the slots hold. -/
inductive RingCall (T : Type)
  | tryRecv (area : MmapArea) (peek : Nat → Nat) (desc : UInt32 → XdpDesc) (batchSize : Nat)
      (user : T) (bufs : ArrayDeque (BufMmap T))
  | trySend (reserve : Nat → Nat) (wake : Bool) (send : Sendto) (batchSize : Nat)
      (bufs : ArrayDeque (BufMmap T))
  | service (area : MmapArea) (peek : Nat → Nat) (desc : UInt32 → Nat) (batchSize : Nat)
      (bufs : Vec (BufMmap T))
  | fill (reserve : Nat → Nat) (batchSize : Nat) (bufs : Vec (BufMmap T))

namespace RingCall

/-- libbpf hands out entries from the cached cursor on; it leaves the index alone if there are
none. -/
def handOut (count : Nat → Nat) (start : UInt32) (nb : Nat) : Nat × UInt32 :=
  (count nb, if count nb = 0 then 0 else start)

/-- The call on a ring whose cached cursor is `start`. -/
def batchCall (start : UInt32) : RingCall T → BatchCall T
  | .tryRecv area peek desc batchSize user bufs =>
    .tryRecv area ⟨handOut peek start, desc⟩ batchSize user bufs
  | .trySend reserve wake send batchSize bufs =>
    .trySend ⟨handOut reserve start, wake, send⟩ batchSize bufs
  | .service area peek desc batchSize bufs =>
    .service area ⟨handOut peek start, desc⟩ batchSize bufs
  | .fill reserve batchSize bufs => .fill ⟨handOut reserve start, false, .sent⟩ batchSize bufs

/-- The buffers and the capacity of the caller's collection. -/
def bufs : RingCall T → List (BufMmap T) × Nat
  | .tryRecv _ _ _ _ _ bufs | .trySend _ _ _ _ bufs => bufs.contents
  | .service _ _ _ _ bufs | .fill _ _ bufs => bufs.contents

/-- What the calls rely on: a peek hands out no more than it is asked for, a reservation all or
nothing, a received length fits a `u16`, and a buffer has room for the reserved bytes. -/
def Lawful : RingCall T → Prop
  | .tryRecv area peek desc _ _ _ =>
    (∀ nb, peek nb ≤ nb) ∧ (∀ idx, (desc idx).len < 2 ^ 16) ∧ afXdpReserved ≤ area.bufLen
  | .trySend reserve _ _ _ _ | .fill reserve _ _ => ∀ nb, reserve nb = 0 ∨ reserve nb = nb
  | .service area peek _ _ _ => (∀ nb, peek nb ≤ nb) ∧ afXdpReserved ≤ area.bufLen

/-- The call may find that the kernel is to be woken and that `sendto` fails with an error that
is not accepted. -/
def SendtoFails : RingCall T → Prop
  | .trySend _ wake send _ _ => wake = true ∧ ¬ send.Accepted
  | _ => False

/-- What a libbpf call asks for fits the collection: entries to receive its room, slots to fill its
buffers. -/
def Fits (call : RingCall T) : Ffi → Prop
  | .peek nb _ _ => call.bufs.1.length + nb ≤ call.bufs.2
  | .reserve nb _ _ => nb ≤ call.bufs.1.length
  | _ => True

/-- The call balances, whether it returns or not; it returns the number of entries it was handed,
or ends in the panic `try_send` has for a failed `sendto`; it asks for what fits; and its
subtraction of the length from the capacity does not overflow. -/
structure Sound (call : RingCall T) (start : UInt32) (o : Outcome T) : Prop where
  balanced : (account o.trace).Balanced start
  returns : o.ret = .ok (some ((account o.trace).reserved + (account o.trace).peeked)) ∨
    call.SendtoFails ∧ o.ret = .error (.msg "xdpsock_user.c sample panics here")
  fits : ∀ e ∈ o.trace, call.Fits e
  room : ∀ p : Profile,
    p.sub64 call.bufs.2 call.bufs.1.length = .ok (call.bufs.2 - call.bufs.1.length)

theorem handOut_zero {count : Nat → Nat} {nb : Nat} (start : UInt32) (h : count nb = 0) :
    handOut count start nb = (0, 0) := by
  rw [handOut, h, if_pos rfl]

theorem handOut_pos {count : Nat → Nat} {nb : Nat} (start : UInt32) (h : 0 < count nb) :
    handOut count start nb = (count nb, cursor start.toNat) := by
  rw [handOut, if_neg (Nat.pos_iff_ne_zero.1 h), cursor, UInt32.ofNat_toNat]

/-- A call whose account is that of `n` entries produced or consumed in order balances. -/
theorem sound_of_account {call : RingCall T} {start : UInt32} {o : Outcome T} {n : Nat}
    (hacc : account o.trace = { reserved := n, submitted := n, written := consecutive start n } ∨
      account o.trace = { peeked := n, released := n, read := consecutive start n })
    (hret : o.ret = .ok (some n) ∨
      call.SendtoFails ∧ o.ret = .error (.msg "xdpsock_user.c sample panics here"))
    (hfits : ∀ e ∈ o.trace, call.Fits e) : call.Sound start o := by
  refine ⟨?_, ?_, hfits, ?_⟩
  · rcases hacc with h | h <;> rw [h] <;> exact ⟨rfl, rfl, rfl, rfl⟩
  · rcases hacc with h | h <;> rw [h]
    · exact hret
    · rwa [Nat.zero_add]
  · intro p
    refine p.sub64_ok ?_
    cases call with
    | tryRecv _ _ _ _ _ bufs | trySend _ _ _ _ bufs => exact bufs.le
    | service _ _ _ _ bufs | fill _ _ bufs => exact bufs.le

/-- So does a call that asks for entries and is handed none. -/
theorem sound_of_none {call : RingCall T} {start : UInt32} {b : List (BufMmap T) × Nat}
    {first : Ffi} (hacc : account [first] = {}) (hfits : call.Fits first) :
    call.Sound start ⟨.ok (some 0), b, [first]⟩ := by
  refine sound_of_account (n := 0) (.inl hacc) (.inl rfl) ?_
  intro e he
  rwa [List.mem_singleton.1 he]

/-- What holds of each part of a call's trace holds of the trace. -/
theorem forall_trace {P : Ffi → Prop} {first : Ffi} {ev : Nat → Ffi} {n : Nat} {post : List Ffi}
    (hfirst : P first) (hev : ∀ i, P (ev i)) (hpost : ∀ e ∈ post, P e) :
    ∀ e ∈ [first] ++ (List.range n).map ev ++ post, P e := by
  intro e he
  rcases List.mem_append.1 he with he | he
  · rcases List.mem_append.1 he with he | he
    · rwa [List.mem_singleton.1 he]
    · obtain ⟨i, -, rfl⟩ := List.mem_map.1 he
      exact hev i
  · exact hpost e he

/-- So does a call that reads what it was handed in ring order, and releases it. -/
theorem sound_of_consume {call : RingCall T} {start idx : UInt32} {b : List (BufMmap T) × Nat}
    {nb n : Nat} {ev : Nat → Ffi} (hev : ∀ i, (ev i).account = { read := [start + UInt32.ofNat i] })
    (hpeek : call.Fits (.peek nb n idx)) (hread : ∀ i, call.Fits (ev i)) :
    call.Sound start
      ⟨.ok (some n), b, [.peek nb n idx] ++ (List.range n).map ev ++ [.release n]⟩ := by
  refine sound_of_account (.inr (account_consume start idx nb n ev hev)) (.inl rfl)
    (forall_trace hpeek hread ?_)
  intro e he
  rw [List.mem_singleton.1 he]
  trivial

variable [Inhabited T]

theorem sound_tryRecv (start : UInt32) {area : MmapArea} {peek : Nat → Nat}
    {desc : UInt32 → XdpDesc} (batchSize : Nat) (user : T) (bufs : ArrayDeque (BufMmap T))
    (hl : (tryRecv area peek desc batchSize user bufs).Lawful) :
    (tryRecv area peek desc batchSize user bufs).Sound start
      (((tryRecv area peek desc batchSize user bufs).batchCall start).run .release) := by
  obtain ⟨hpeek, hdesc, hlen⟩ := hl
  have hroom : bufs.len + recvRequest bufs batchSize ≤ bufs.capacity :=
    room_of_recvRequest (Nat.le_refl _)
  obtain ⟨n, hn⟩ : ∃ n, peek (recvRequest bufs batchSize) = n := ⟨_, rfl⟩
  rcases Nat.eq_zero_or_pos n with rfl | hpos
  · have hrun : ((tryRecv area peek desc batchSize user bufs).batchCall start).run .release =
        ⟨.ok (some 0), bufs.contents, [.peek (recvRequest bufs batchSize) 0 0]⟩ :=
      congrArg (outcome ArrayDeque.contents) (tryRecv_zero (handOut_zero start hn))
    rw [hrun]
    exact sound_of_none rfl hroom
  · have hgrant := handOut_pos start (hn ▸ hpos)
    rw [hn] at hgrant
    have hrun : Afxdp.tryRecv .release area ⟨handOut peek start, desc⟩ batchSize user ⟨bufs, []⟩ =
        _ := tryRecv_eq hgrant hpos (hn ▸ hpeek _) (.inl rfl) hlen fun i _ => hdesc _
    rw [batchCall, BatchCall.run, hrun]
    refine sound_of_consume (fun i => ?_) hroom fun _ => trivial
    rw [cursor_toNat_add]
    rfl

theorem sound_service (start : UInt32) {area : MmapArea} {peek : Nat → Nat}
    {desc : UInt32 → Nat} (batchSize : Nat) (bufs : Vec (BufMmap T))
    (hl : (service area peek desc batchSize bufs).Lawful) :
    (service area peek desc batchSize bufs).Sound start
      (((service area peek desc batchSize bufs).batchCall start).run .release) := by
  obtain ⟨hpeek, hlen⟩ := hl
  have hroom : bufs.len + serviceRequest bufs batchSize ≤ bufs.capacity := by
    have := bufs.le
    simp only [serviceRequest, Vec.len] at *
    omega
  obtain ⟨n, hn⟩ : ∃ n, peek (serviceRequest bufs batchSize) = n := ⟨_, rfl⟩
  rcases Nat.eq_zero_or_pos n with rfl | hpos
  · have hrun : ((service area peek desc batchSize bufs).batchCall start).run .release =
        ⟨.ok (some 0), bufs.contents, [.peek (serviceRequest bufs batchSize) 0 0]⟩ :=
      congrArg (outcome Vec.contents) (service_zero (handOut_zero start hn))
    rw [hrun]
    exact sound_of_none rfl hroom
  · have hgrant := handOut_pos start (hn ▸ hpos)
    rw [hn] at hgrant
    have hrun : Afxdp.service .release area ⟨handOut peek start, desc⟩ batchSize ⟨bufs, []⟩ = _ :=
      service_eq hgrant hpos (.inl rfl) hlen
    rw [batchCall, BatchCall.run, hrun]
    refine sound_of_consume (fun i => ?_) hroom fun _ => trivial
    rw [cursor_toNat_add]
    rfl

theorem sound_fill (start : UInt32) {reserve : Nat → Nat} (batchSize : Nat)
    (bufs : Vec (BufMmap T)) (hl : (fill reserve batchSize bufs).Lawful) :
    (fill reserve batchSize bufs).Sound start
      (((fill reserve batchSize bufs).batchCall start).run .release) := by
  have hfit : min bufs.len batchSize ≤ bufs.len := Nat.min_le_left _ _
  rcases eq_or_ne (min bufs.len batchSize) 0 with h0 | hreq
  · have hrun : ((fill reserve batchSize bufs).batchCall start).run .release =
        ⟨.ok (some 0), bufs.contents, []⟩ :=
      congrArg (outcome Vec.contents) (fill_nothing h0)
    rw [hrun]
    exact sound_of_account (n := 0) (.inl rfl) (.inl rfl) (by simp)
  obtain ⟨n, hn⟩ : ∃ n, reserve (min bufs.len batchSize) = n := ⟨_, rfl⟩
  rcases Nat.eq_zero_or_pos n with rfl | hpos
  · have hrun : ((fill reserve batchSize bufs).batchCall start).run .release =
        ⟨.ok (some 0), bufs.contents, [.reserve (min bufs.len batchSize) 0 0]⟩ :=
      congrArg (outcome Vec.contents) (fill_refused hreq (handOut_zero start hn))
    rw [hrun]
    exact sound_of_none rfl hfit
  · have hgrant := handOut_pos start (hn ▸ hpos)
    have hle : n ≤ min bufs.len batchSize := by
      have := hl (min bufs.len batchSize)
      omega
    rw [hn] at hgrant
    have hrun : Afxdp.fill .release ⟨handOut reserve start, false, .sent⟩ batchSize ⟨bufs, []⟩ =
        _ := fill_eq hgrant hpos hle (.inl rfl)
    rw [batchCall, BatchCall.run, hrun]
    refine sound_of_account (n := n) (.inl ?_) (.inl rfl)
      (forall_trace hfit (fun _ => trivial) fun e he => ?_)
    · have hacc := account_produce start (cursor start.toNat) (min bufs.len batchSize) n
        (fun i => .fillAddr (cursor (start.toNat + i))
          ((bufs.list.reverse.map BufMmap.addr).getD i 0)) fun i => by
          rw [cursor_toNat_add]
          rfl
      rwa [if_pos hpos] at hacc
    · rw [List.mem_singleton.1 he]
      trivial

/-- Whatever libbpf hands out starts at the index it returns. -/
theorem handOut_cursor {count : Nat → Nat} {nb n : Nat} (start : UInt32) (h : count nb = n) :
    ∃ c, handOut count start nb = (n, cursor c) ∧
      consecutive (cursor c) n = consecutive start n := by
  rcases Nat.eq_zero_or_pos n with rfl | hn
  · exact ⟨0, handOut_zero start h, rfl⟩
  · refine ⟨start.toNat, h ▸ handOut_pos start (h ▸ hn), ?_⟩
    rw [cursor, UInt32.ofNat_toNat]

theorem sound_trySend (start : UInt32) {reserve : Nat → Nat} (wake : Bool) (send : Sendto)
    (batchSize : Nat) (bufs : ArrayDeque (BufMmap T))
    (hl : (trySend reserve wake send batchSize bufs).Lawful) :
    (trySend reserve wake send batchSize bufs).Sound start
      (((trySend reserve wake send batchSize bufs).batchCall start).run .release) := by
  have hfit : min bufs.len batchSize ≤ bufs.len := Nat.min_le_left _ _
  rcases eq_or_ne (min bufs.len batchSize) 0 with h0 | hreq
  · have hrun : ((trySend reserve wake send batchSize bufs).batchCall start).run .release =
        ⟨.ok (some 0), bufs.contents, []⟩ :=
      congrArg (outcome ArrayDeque.contents) (trySend_nothing h0)
    rw [hrun]
    exact sound_of_account (n := 0) (.inl rfl) (.inl rfl) (by simp)
  obtain ⟨n, hn⟩ : ∃ n, reserve (min bufs.len batchSize) = n := ⟨_, rfl⟩
  obtain ⟨c, hgrant, hcons⟩ := handOut_cursor start hn
  have hle : n ≤ min bufs.len batchSize := by
    have := hl (min bufs.len batchSize)
    omega
  -- the account of what is submitted, and of the wakeup after it
  have hacc := account_produce (cursor c) (cursor c) (min bufs.len batchSize) n
    (sendEvent bufs.list c) fun i => by
      rw [sendEvent, cursor_add]
      rfl
  have hacc' : ∀ post, account post = {} →
      account ([.reserve (min bufs.len batchSize) n (cursor c)] ++
        (List.range n).map (sendEvent bufs.list c) ++ (if 0 < n then [.submit n] else []) ++ post) =
      { reserved := n, submitted := n, written := consecutive start n } := by
    intro post hpost
    rw [account_append, hacc, hpost, ← hcons]
    simp [Account.append]
  have hfits : ∀ post, (∀ e ∈ post, e = Ffi.sendto) →
      ∀ e ∈ [.reserve (min bufs.len batchSize) n (cursor c)] ++
        (List.range n).map (sendEvent bufs.list c) ++ (if 0 < n then [.submit n] else []) ++ post,
      (trySend reserve wake send batchSize bufs).Fits e := by
    intro post hpost e he
    rw [List.append_assoc] at he
    refine forall_trace hfit (fun _ => trivial) (fun e he => ?_) e he
    rcases List.mem_append.1 he with he | he
    · split at he
      · rw [List.mem_singleton.1 he]
        trivial
      · cases he
    · rw [hpost e he]
      trivial
  by_cases hsend : wake = true → send.Accepted
  · have hrun : Afxdp.trySend .release ⟨handOut reserve start, wake, send⟩ batchSize ⟨bufs, []⟩ =
        _ := trySend_eq hreq hgrant hle (.inl rfl) hsend
    rw [batchCall, BatchCall.run, hrun]
    refine sound_of_account (.inl (hacc' _ ?_)) (.inl rfl) (hfits _ ?_)
    · cases wake <;> rfl
    · cases wake <;> simp [wakeupTrace]
  · obtain ⟨hw, hs⟩ := Classical.not_imp.1 hsend
    have hrun : Afxdp.trySend .release ⟨handOut reserve start, wake, send⟩ batchSize ⟨bufs, []⟩ =
        _ := trySend_wakeup_panic hreq hgrant hle (.inl rfl) hw hs
    rw [batchCall, BatchCall.run, hrun]
    exact sound_of_account (.inl (hacc' _ rfl)) (.inr ⟨⟨hw, hs⟩, rfl⟩) (hfits _ (by simp))

/-- Every batch call is sound, whatever the cached cursor of its ring is. -/
theorem run_sound (start : UInt32) (call : RingCall T) (hl : call.Lawful) :
    call.Sound start ((call.batchCall start).run .release) := by
  cases call with
  | tryRecv => exact sound_tryRecv start _ _ _ hl
  | trySend => exact sound_trySend start _ _ _ _ hl
  | service => exact sound_service start _ _ hl
  | fill => exact sound_fill start _ _ hl

end RingCall

/-! ## Sequences of calls -/

/-- In a ring of `2 ^ e` slots, no fewer than were handed out, no slot is written or read twice. -/
def Account.Once (a : Account) : Prop :=
  ∀ e, e < 32 →
    (a.reserved ≤ 2 ^ e → (a.written.map fun idx => idx.toNat % 2 ^ e).Nodup) ∧
    (a.peeked ≤ 2 ^ e → (a.read.map fun idx => idx.toNat % 2 ^ e).Nodup)

theorem Account.Balanced.once {start : UInt32} {a : Account} (h : a.Balanced start) : a.Once := by
  intro e he
  rw [h.written, h.read]
  exact ⟨consecutive_nodup start (Nat.le_of_lt he), consecutive_nodup start (Nat.le_of_lt he)⟩

section
variable {ρ : Type} [DecidableEq ρ] [Inhabited T]

/-- A call on one of the rings. -/
def ringStep (s : ρ → Cursors) (a : ρ × RingCall T) : Option ((ρ → Cursors) × Outcome T) :=
  let o := (a.2.batchCall (s a.1).cached).run .release
  some (Function.update s a.1 ((s a.1).replay o.trace), o)

/-- The call is sound, it meets each slot at most once, and after it the cursors of every ring are
the same. -/
def RingStepSound (s : ρ → Cursors) (a : ρ × RingCall T) (s' : ρ → Cursors) (o : Outcome T) :
    Prop :=
  a.2.Sound (s a.1).cached o ∧ (account o.trace).Once ∧ ∀ r, (s' r).InStep

/-- A call that libbpf answers lawfully keeps the cursors of every ring together. -/
theorem ringStep_sound {s s' : ρ → Cursors} {a : ρ × RingCall T} {o : Outcome T}
    (hs : ∀ r, (s r).InStep) (hl : a.2.Lawful) (h : ringStep s a = some (s', o)) :
    RingStepSound s a s' o := by
  cases h
  have hsound := a.2.run_sound (s a.1).cached hl
  refine ⟨hsound, hsound.balanced.once, ?_⟩
  intro r
  rcases eq_or_ne r a.1 with rfl | hr
  · rw [Function.update_self]
    exact hsound.balanced.inStep (hs _)
  · rw [Function.update_of_ne hr]
    exact hs r

/-- In every sequence of batch calls on any rings, each with any collection and batch size and any
lawful answers of libbpf, every call is sound and leaves the cached and the published cursor of
every ring the same. -/
theorem ringCalls_sound (s : ρ → Cursors) (as : List (ρ × RingCall T))
    (hs : ∀ r, (s r).InStep) (hl : ∀ a ∈ as, a.2.Lawful) :
    EveryStep ringStep RingStepSound s as ∧
      ∃ s' os, run ringStep s as = some (s', os) ∧ ∀ r, (s' r).InStep := by
  refine ⟨everyStep_of_invariant (I := fun s => ∀ r, (s r).InStep) (Q := fun a => a.2.Lawful)
    ?_ hs hl, ?_⟩
  · intro s a s' o ha hI hstep
    have hsound := ringStep_sound hI ha hstep
    exact ⟨hsound, hsound.2.2⟩
  · obtain ⟨s', os, hrun⟩ := run_of_total (fun _ _ => ⟨_, _, rfl⟩) s as
    refine ⟨s', os, hrun, run_invariant (I := fun s => ∀ r, (s r).InStep)
      (Q := fun a => a.2.Lawful) ?_ hs hl hrun⟩
    intro s a s' o ha hI hstep
    exact (ringStep_sound hI ha hstep).2.2

end

/-- A `fill` that crosses the wrap of the cursor of one ring, and a `try_recv` and a `try_send`
whose `sendto` fails on two others. -/
def wrapCalls : List (Fin 3 × RingCall Unit) :=
  [(0, .fill (fun nb => nb) 8 (MmapArea.chunkVec 2 2048)),
    (1, .tryRecv ⟨2, 2048⟩ (fun nb => min nb 1) (fun _ => ⟨0, 64, 0⟩) 8 ()
      ⟨[], pendingLen, Nat.zero_le _⟩),
    (2, .trySend (fun _ => 0) true (.failed (.other 1)) 8
      ⟨[⟨0, 64, ⟨0, 1792⟩, ()⟩], pendingLen, by decide⟩)]

theorem ringCalls_sound_wrapCalls :
    EveryStep ringStep RingStepSound (fun _ => ⟨0xffffffff, 0xffffffff⟩) wrapCalls ∧
      ∃ s' os, run ringStep (fun _ => ⟨0xffffffff, 0xffffffff⟩) wrapCalls = some (s', os) ∧
        ∀ r, (s' r).InStep := by
  refine ringCalls_sound _ wrapCalls (fun _ => rfl) ?_
  intro a ha
  simp only [wrapCalls, List.mem_cons, List.not_mem_nil, or_false] at ha
  rcases ha with rfl | rfl | rfl
  · exact fun nb => .inr rfl
  · have hlen : (64 : Nat) < 2 ^ 16 := by decide
    exact ⟨fun nb => Nat.min_le_left _ _, fun _ => hlen, by decide⟩
  · exact fun nb => .inl rfl

end Afxdp
