import Afxdp.Grid
import Afxdp.Veth

/-!
# `BiDirHash`

The traffic test that sends packets of random length and contents in both directions. A packet
begins with a sequence number, and the sender keeps a hash of it. The receiver counts the packets
whose number is not greater than the last one, and those whose hash is not the sender's.

What is random in a call is one `Random` for each packet. The hash is a parameter.
-/

namespace Afxdp

open Mem (readAt writeAt)
open Run (run Leads)

/-! ## Buffers and collections -/

/-- Stores of consecutive bytes that fit the slice. -/
theorem BufMmap.writeAll_zipIdx {T : Type} (b : BufMmap T) (mem : Nat → UInt8)
    (xs : List UInt8) {k : Nat} (h : k + xs.length ≤ b.data.len) :
    b.writeAll mem ((xs.zipIdx k).map Prod.swap) = .ok (writeAt mem (b.data.start + k) xs) := by
  induction xs generalizing k mem with
  | nil =>
      refine congrArg Except.ok (funext fun x => ?_)
      simp [writeAt]
  | cons x xs ih =>
      rw [List.length_cons] at h
      rw [List.zipIdx_cons, List.map_cons, BufMmap.writeAll, Prod.swap_prod_mk, BufMmap.writeData,
        if_pos (by omega)]
      show b.writeAll _ _ = _
      rw [ih _ (by omega), Mem.writeAt_cons, Nat.add_assoc]

theorem BufMmap.setLen_capacity {T : Type} {b b' : BufMmap T} {len : UInt16}
    (h : BufMmap.setLen len b = .ok () b') : b.data.len < 2 ^ 16 := by
  by_contra hlt
  rw [BufMmap.setLen, BufMmap.getCapacity, if_neg hlt] at h
  cases h

/-- A `push_back` that evicts nothing had room. -/
theorem ArrayDeque.room_of_pushBack {α : Type} {d : ArrayDeque α} {x : α}
    (h : ¬ (d.pushBack x).1.isSome) : d.len < d.capacity := by
  by_contra hlt
  rw [ArrayDeque.pushBack, dif_neg hlt] at h
  split at h <;> exact h rfl

/-- A vector whose last element is replaced and then taken out is the vector without it. -/
theorem Vec.withList_pop {α : Type} {v : Vec α} {front : List α} {x : α}
    (h : v.list = front ++ [x]) (l : List α) : (v.withList l).withList front = v.pop.2 := by
  refine Vec.ext ?_ rfl
  have hle := v.le
  rw [h, List.length_append] at hle
  show front.take v.capacity = v.list.dropLast
  rw [h, List.dropLast_concat, List.take_of_length_le (by omega)]

theorem ArrayDeque.insertAt_end {α : Type} {d : ArrayDeque α} (h : d.len < d.capacity) (x : α) :
    d.insertAt d.len x = some (d.pushBack x).2 := by
  rw [ArrayDeque.insertAt, dif_pos h, ArrayDeque.pushBack_of_lt h]
  refine congrArg some (ArrayDeque.ext ?_ rfl)
  simp only [ArrayDeque.len, List.take_length, List.drop_length]

namespace Traffic

/-! ## Sequence numbers -/

/-- The `k` low bytes of a number, the lowest first. -/
def lowBytes : Nat → Nat → List UInt8
  | 0, _ => []
  | k + 1, n => UInt8.ofNat n :: lowBytes k (n / 256)

/-- The number with the bytes `bs`, the lowest first. -/
def ofBytes : List UInt8 → Nat
  | [] => 0
  | b :: bs => b.toNat + 256 * ofBytes bs

@[simp] theorem lowBytes_length (k n : Nat) : (lowBytes k n).length = k := by
  induction k generalizing n with
  | zero => rfl
  | succ k ih => rw [lowBytes, List.length_cons, ih]

theorem ofBytes_lowBytes (k n : Nat) : ofBytes (lowBytes k n) = n % 256 ^ k := by
  induction k generalizing n with
  | zero => rw [Nat.pow_zero, Nat.mod_one, lowBytes, ofBytes]
  | succ k ih =>
      rw [lowBytes, ofBytes, ih, Nat.pow_succ, Nat.mul_comm _ 256, Nat.mod_mul]
      simp

/-- `u64::to_ne_bytes`, on a little-endian target. -/
def toNeBytes (n : Nat) : List UInt8 := lowBytes 8 n

/-- `u64::from_ne_bytes`, on a little-endian target. -/
def fromNeBytes (bs : List UInt8) : Nat := ofBytes bs

theorem fromNeBytes_toNeBytes {n : Nat} (h : n < 2 ^ 64) : fromNeBytes (toNeBytes n) = n := by
  rw [fromNeBytes, toNeBytes, ofBytes_lowBytes, Nat.mod_eq_of_lt (Nat.lt_of_lt_of_le h (by decide))]

/-! ## States -/

/-- `PacketState`. -/
structure PacketState where
  processed : Bool
  hash : UInt64
deriving DecidableEq, Repr

/-- `PortState`, with the map `hashes` as a function. Times are in nanoseconds. -/
structure PortState where
  lastTime : Nat
  transmitted : Nat
  received : Nat
  outOfOrder : Nat
  badHash : Nat
  duplicated : Nat
  seq : Nat
  lastReceivedSeq : Nat
  hashes : Nat → Option PacketState

/-- `BiDirHash`. -/
structure BiDirHash where
  endTime : Nat
  doneTimeWithPadding : Nat
  burstGap : Nat
  burstSize : Nat
  totalPackets : Nat
  portState : Pos → PortState
  done : Bool

/-- A port before its first packet. -/
def PortState.new (now : Nat) : PortState where
  lastTime := now
  transmitted := 0
  received := 0
  outOfOrder := 0
  badHash := 0
  duplicated := 0
  seq := 1
  lastReceivedSeq := 0
  hashes _ := none

/-- The two seconds by which a test outlasts its last packet. -/
def padding : Nat := 2 * 10 ^ 9

/-- `BiDirHash::new`, with what the clock says at its three looks at it. -/
def BiDirHash.new (now : Nat) (portNow : Pos → Nat)
    (maxDuration totalPackets burstGap burstSize : Nat) : BiDirHash where
  endTime := now + maxDuration
  doneTimeWithPadding := now + maxDuration + padding
  burstGap := burstGap
  burstSize := burstSize
  totalPackets := totalPackets
  portState p := .new (portNow p)
  done := false

/-- The instance with another state of a port. -/
def BiDirHash.setPort (test : BiDirHash) (p : Pos) (port : PortState) : BiDirHash :=
  { test with portState := Function.update test.portState p port }

@[simp] theorem BiDirHash.setPort_self (test : BiDirHash) (p : Pos) (port : PortState) :
    (test.setPort p port).portState p = port := Function.update_self _ _ _

theorem BiDirHash.setPort_of_ne (test : BiDirHash) {p q : Pos} (h : q ≠ p) (port : PortState) :
    (test.setPort p port).portState q = test.portState q := Function.update_of_ne h _ _

@[simp] theorem BiDirHash.setPort_totalPackets (test : BiDirHash) (p : Pos) (port : PortState) :
    (test.setPort p port).totalPackets = test.totalPackets := rfl

/-- What the random number generator gives for a packet. -/
structure Random where
  /-- What `gen_range` maps into its range. -/
  len : Nat
  /-- The bytes that `try_fill` stores. -/
  byte : Nat → UInt8

/-- `gen_range(lo..hi)`. -/
def genRange (lo hi : Nat) (random : Nat) : Nat := lo + random % (hi - lo)

/-- The length of a packet. -/
def Random.packetLen (r : Random) : Nat := genRange 64 1500 r.len

/-- What `transmit` stores in a slice of `num` bytes for the packet with the number `seq`. -/
def Random.data (r : Random) (seq num : Nat) : List UInt8 :=
  toNeBytes seq ++ (List.range (num - 8)).map r.byte

theorem Random.packetLen_mem (r : Random) : 64 ≤ r.packetLen ∧ r.packetLen < 1500 := by
  have hmod := Nat.mod_lt r.len (by decide : 0 < 1436)
  simp only [packetLen, genRange]
  omega

/-! ## `done` -/

/-- `done`. -/
def BiDirHash.isDone (test : BiDirHash) (now : Nat) : Bool × BiDirHash :=
  if test.endTime < now then (true, test)
  else if (test.portState .first).transmitted < test.totalPackets ∨
      (test.portState .second).transmitted < test.totalPackets then (false, test)
  else if test.done = false then
    (false, { test with done := true, doneTimeWithPadding := now + padding })
  else if test.doneTimeWithPadding < now then (true, test)
  else (false, test)

/-! ## `transmit` -/

section
variable (pr : Profile) (hash : List UInt8 → UInt64)

/-- `transmit` for one packet, in a build. -/
def sendPacket (r : Random) (port : PortState) (s : PortSys) : Option (PortState × PortSys) :=
  let popped := (s.vecs ()).pop
  popped.1.bind fun buf =>
  let set := match BufMmap.setLen (UInt16.ofNat r.packetLen) buf with
    | .ok _ buf => some buf
    | .error _ _ => none
  set.bind fun buf =>
  (pr.add64 port.seq 1).toOption.bind fun seq =>
  (buf.writeAll s.mem ((r.data seq buf.data.len).zipIdx.map Prod.swap)).toOption.bind fun mem =>
  (buf.packet mem).bind fun bytes =>
  let pushed := (s.deques .send).pushBack buf
  -- neither may the map have the number, nor may the deque be full
  if (port.hashes seq).isSome ∨ pushed.1.isSome then none
  else
    let hashes := Function.update port.hashes seq (some ⟨false, hash bytes⟩)
    some ({ port with seq, hashes },
      { s with
        mem
        vecs := Function.update s.vecs () popped.2
        deques := Function.update s.deques .send pushed.2 })

/-- `transmit` for `n` packets. -/
def sendPackets (r : Nat → Random) : Nat → PortState → PortSys → Option (PortState × PortSys)
  | 0, port, s => some (port, s)
  | n + 1, port, s =>
    (sendPackets r n port s).bind fun q => sendPacket pr hash (r n) q.1 q.2

/-- How many packets `transmit` sends if there are buffers for `count`, and `none` where it returns
early for want of a full burst. -/
def BiDirHash.packetCount (test : BiDirHash) (port : PortState) (count : Nat) : Option Nat :=
  if test.totalPackets - port.transmitted ≥ test.burstSize then
    if count < test.burstSize then none else some test.burstSize
  else some (min count (test.totalPackets - port.transmitted))

/-- `transmit`. -/
def BiDirHash.transmit (test : BiDirHash) (now : Nat) (p : Pos) (r : Nat → Random) (s : PortSys) :
    Option (Nat × BiDirHash × PortSys) :=
  let port := test.portState p
  if port.transmitted < test.totalPackets ∧ port.lastTime + test.burstGap < now then
    let room := (s.deques .send).capacity - (s.deques .send).len
    match test.packetCount port (min room (s.vecs ()).len) with
    | none => some (0, test, s)
    | some packetCount =>
      (sendPackets pr hash r packetCount port s).map fun q =>
        let transmitted := q.1.transmitted + packetCount
        (packetCount, test.setPort p { q.1 with transmitted, lastTime := now }, q.2)
  else some (0, test, s)

/-! ## `receive` -/

/-- The checks of `receive` for a packet with the number `seq`. -/
def BiDirHash.check (test : BiDirHash) (p : Pos) (seq : Nat) (packet : Option (List UInt8)) :
    Option BiDirHash :=
  let port := test.portState p
  let port :=
    if seq ≤ port.lastReceivedSeq then { port with outOfOrder := port.outOfOrder + 1 }
    else { port with lastReceivedSeq := seq }
  match (test.portState p.other).hashes seq with
  | some val =>
    packet.map fun bytes =>
      let port := if hash bytes ≠ val.hash then { port with badHash := port.badHash + 1 } else port
      let port := if val.processed then { port with duplicated := port.duplicated + 1 } else port
      test.setPort p port
  | none => some (test.setPort p port)

/-- `receive` for one packet. -/
def BiDirHash.receivePacket (p : Pos) (test : BiDirHash) (s : PortSys) :
    Option (BiDirHash × PortSys) :=
  match (s.deques .receive).popFront with
  | (none, _) => none
  | (some buf, pending) =>
    if buf.data.len < 8 then none
    else
      let seq := fromNeBytes ((buf.getData s.mem).take 8)
      (test.check hash p seq (buf.packet s.mem)).map fun test =>
        (test, { s with
          vecs := Function.update s.vecs () ((s.vecs ()).push buf)
          deques := Function.update s.deques .receive pending })

/-- `receive` for `n` packets. -/
def BiDirHash.receivePackets (p : Pos) : Nat → BiDirHash → PortSys → Option (BiDirHash × PortSys)
  | 0, test, s => some (test, s)
  | n + 1, test, s =>
    (receivePackets p n test s).bind fun q => q.1.receivePacket hash p q.2

/-- `receive`. -/
def BiDirHash.receive (test : BiDirHash) (p : Pos) (s : PortSys) :
    Option (Nat × BiDirHash × PortSys) :=
  let num := (s.deques .receive).len
  (receivePackets hash p num test s).map fun q =>
    let port := q.1.portState p
    (num, q.1.setPort p { port with received := port.received + num }, q.2)

/-- `BiDirHash` as a `TrafficTest`. -/
def bidirHash : TrafficTest BiDirHash (Nat → Random) where
  done := BiDirHash.isDone
  transmit test now p r s := test.transmit pr hash now p r s
  receive test _ p s := test.receive hash p s

end

/-! ## `finalize` -/

/-- `error_check`. -/
def errorCheck (prof : Profile) (name : String) (val1 val2 : Nat) :
    Except Panic (Except String Unit) :=
  if val1 ≠ val2 then
    (prof.sub64 val1 val2).map fun d => .error s!"{name} -- {val1} {val2} -- {d}"
  else .ok (.ok ())

/-- `error_check(..).unwrap()`. -/
def errorCheckUnwrap (prof : Profile) (name : String) (val1 val2 : Nat) : Except Panic Unit :=
  (errorCheck prof name val1 val2).bind fun
    | .ok _ => .ok ()
    | .error _ => .error .unwrap

/-- `finalize`. -/
def BiDirHash.finalize (prof : Profile) (test : BiDirHash) : Except Panic Unit := do
  let port1 := test.portState .first
  let port2 := test.portState .second
  errorCheckUnwrap prof "transmitted1" test.totalPackets port1.transmitted
  errorCheckUnwrap prof "transmitted2" test.totalPackets port2.transmitted
  errorCheckUnwrap prof "transmit-receive1" port1.transmitted port2.received
  errorCheckUnwrap prof "transmit-receive2" port2.transmitted port1.received
  errorCheckUnwrap prof "bad_hash1" port1.badHash 0
  errorCheckUnwrap prof "bad_hash2" port2.badHash 0
  errorCheckUnwrap prof "out_of_order1" port1.outOfOrder 0
  errorCheckUnwrap prof "out_of_order2" port2.outOfOrder 0
  errorCheckUnwrap prof "duplicated1" port1.duplicated 0
  errorCheckUnwrap prof "duplicated2" port2.duplicated 0

theorem errorCheckUnwrap_eq (prof : Profile) (name : String) (val1 val2 : Nat) :
    errorCheckUnwrap prof name val1 val2 = .ok () ↔ val1 = val2 := by
  by_cases h : val1 = val2
  · simp [errorCheckUnwrap, errorCheck, h, Except.bind]
  · have hsub : ∃ e, errorCheckUnwrap prof name val1 val2 = .error e := by
      rw [errorCheckUnwrap, errorCheck, if_pos h]
      cases prof.sub64 val1 val2 with
      | error e => exact ⟨e, rfl⟩
      | ok d => exact ⟨_, rfl⟩
    obtain ⟨e, he⟩ := hsub
    simp only [he, h, reduceCtorEq]

/-- `finalize` passes if both ports sent all their packets, all were received, and no check of
`receive` failed. -/
theorem BiDirHash.finalize_eq (prof : Profile) (test : BiDirHash) :
    test.finalize prof = .ok () ↔
      (∀ p, (test.portState p).transmitted = test.totalPackets) ∧
      (∀ p, (test.portState p.other).received = (test.portState p).transmitted) ∧
      ∀ p, (test.portState p).badHash = 0 ∧ (test.portState p).outOfOrder = 0 ∧
        (test.portState p).duplicated = 0 := by
  have hbind : ∀ {x : Except Panic Unit} {f : Unit → Except Panic Unit},
      x.bind f = .ok () ↔ x = .ok () ∧ f () = .ok () := by
    intro x f
    cases x with
    | error e => simp [Except.bind]
    | ok a => simp [Except.bind]
  have hpos : ∀ {P : Pos → Prop}, (∀ p, P p) ↔ P .first ∧ P .second := by
    intro P
    refine ⟨fun h => ⟨h _, h _⟩, fun h p => ?_⟩
    cases p with
    | first => exact h.1
    | second => exact h.2
  simp only [finalize, bind, hbind, errorCheckUnwrap_eq, hpos, Pos.other]
  constructor
  · rintro ⟨h1, h2, h3, h4, h5, h6, h7, h8, h9, h10⟩
    exact ⟨⟨h1.symm, h2.symm⟩, ⟨h3.symm, h4.symm⟩, ⟨h5, h7, h9⟩, h6, h8, h10⟩
  · rintro ⟨⟨h1, h2⟩, ⟨h3, h4⟩, ⟨h5, h7, h9⟩, h6, h8, h10⟩
    exact ⟨h1.symm, h2.symm, h3.symm, h4.symm, h5, h6, h7, h8, h9, h10⟩

/-! ## What `transmit` did -/

theorem Random.data_length (r : Random) {seq num : Nat} (h : 8 ≤ num) :
    (r.data seq num).length = num := by
  rw [data, List.length_append, List.length_map, List.length_range, toNeBytes, lowBytes_length]
  omega

/-- The number can be read off the data. -/
theorem Random.data_seq (r : Random) {seq num n : Nat} (h : seq < 2 ^ 64) (hn : 8 ≤ n) :
    fromNeBytes (((r.data seq num).take n).take 8) = seq := by
  have htake : (toNeBytes seq ++ (List.range (num - 8)).map r.byte).take 8 = toNeBytes seq :=
    List.take_left' (lowBytes_length 8 seq)
  rw [List.take_take, Nat.min_eq_left hn, data, htake, fromNeBytes_toNeBytes h]

section
variable {pr : Profile} {hash : List UInt8 → UInt64} {r : Random} {port port' : PortState}
  {s s' : PortSys}

/-- The number of the next packet. -/
def PortState.nextSeq (port : PortState) : Nat := (port.seq + 1) % 2 ^ 64

/-- The buffer of a packet. -/
def Random.buf (r : Random) (b : BufMmap Unit) : BufMmap Unit :=
  { b with len := UInt16.ofNat r.packetLen }

/-- The bytes of a packet. -/
def Random.packet (r : Random) (port : PortState) (b : BufMmap Unit) : List UInt8 :=
  (r.data port.nextSeq b.data.len).take r.packetLen

/-- The port after a packet. -/
def PortState.afterSend (hash : List UInt8 → UInt64) (r : Random) (port : PortState)
    (b : BufMmap Unit) : PortState :=
  { port with
    seq := port.nextSeq
    hashes := Function.update port.hashes port.nextSeq (some ⟨false, hash (r.packet port b)⟩) }

/-- The data path after a packet. -/
def Random.afterSend (r : Random) (port : PortState) (b : BufMmap Unit) (s : PortSys) : PortSys :=
  { s with
    mem := writeAt s.mem b.data.start (r.data port.nextSeq b.data.len)
    vecs := Function.update s.vecs () (s.vecs ()).pop.2
    deques := Function.update s.deques .send ((s.deques .send).pushBack (r.buf b)).2 }

theorem Random.buf_len (r : Random) (b : BufMmap Unit) : (r.buf b).len.toNat = r.packetLen :=
  Nat.mod_eq_of_lt (Nat.lt_trans r.packetLen_mem.2 (by decide))

theorem setLen_of {b : BufMmap Unit} (hlen : r.packetLen ≤ b.data.len)
    (h16 : b.data.len < 2 ^ 16) :
    BufMmap.setLen (UInt16.ofNat r.packetLen) b = .ok () (r.buf b) := by
  rw [BufMmap.setLen, BufMmap.getCapacity, if_pos h16]
  refine if_neg ?_
  rw [gt_iff_lt, UInt16.lt_iff_toNat_lt, Nat.not_lt]
  show (r.buf b).len.toNat ≤ b.data.len % 2 ^ 16
  rwa [Random.buf_len, Nat.mod_eq_of_lt h16]

/-- The packet is what the slice then holds, up to its length. -/
theorem Random.packet_afterSend (r : Random) {b : BufMmap Unit} (hlen : r.packetLen ≤ b.data.len) :
    (r.buf b).packet (r.afterSend port b s).mem = some (r.packet port b) := by
  have h8 : 8 ≤ b.data.len := by
    have := r.packetLen_mem.1
    omega
  rw [BufMmap.packet, if_pos (by rwa [Random.buf_len]), Random.buf_len, BufMmap.getData]
  exact congrArg (fun xs => some (xs.take r.packetLen))
    (Mem.readAt_writeAt_self (r.data_length h8))

/-- If the last buffer of `bufs` is large enough, its number is fresh and there is room, a packet is
sent. -/
theorem sendPacket_of {b : BufMmap Unit} (hpop : (s.vecs ()).pop.1 = some b)
    (hlen : r.packetLen ≤ b.data.len) (h16 : b.data.len < 2 ^ 16)
    (hfresh : port.hashes port.nextSeq = none)
    (hroom : (s.deques .send).len < (s.deques .send).capacity)
    (hadd : pr.add64 port.seq 1 = .ok port.nextSeq) :
    sendPacket pr hash r port s = some (port.afterSend hash r b, r.afterSend port b s) := by
  have h8 : 8 ≤ b.data.len := by
    have := r.packetLen_mem.1
    omega
  have hset := setLen_of hlen h16
  have hwrite := (r.buf b).writeAll_zipIdx s.mem (r.data port.nextSeq b.data.len) (k := 0)
    (by rw [r.data_length h8, Nat.zero_add]; exact Nat.le_refl _)
  have hpacket : (r.buf b).packet (writeAt s.mem b.data.start (r.data port.nextSeq b.data.len)) =
      some (r.packet port b) := r.packet_afterSend (s := s) hlen
  have hdata : (r.buf b).data = b.data := rfl
  rw [sendPacket, hpop]
  simp only [Option.bind_some, hset, hadd, hdata, hwrite, Except.toOption, Nat.add_zero, hpacket,
    hfresh, ArrayDeque.pushBack_of_lt hroom, Option.isSome_none, Bool.false_eq_true, or_self,
    if_false]
  simp only [PortState.afterSend, Random.afterSend, ArrayDeque.pushBack_of_lt hroom]

/-- Where the increment of the number returns, it is the next number. -/
theorem PortState.add64_seq {seq : Nat} (h : (pr.add64 port.seq 1).toOption = some seq) :
    pr.add64 port.seq 1 = .ok port.nextSeq ∧ seq = port.nextSeq := by
  cases pr with
  | release =>
    cases h
    exact ⟨rfl, rfl⟩
  | debug =>
    by_cases hlt : port.seq + 1 < 2 ^ 64
    · rw [Profile.debug.add64_ok hlt] at h ⊢
      cases h
      rw [nextSeq, Nat.mod_eq_of_lt hlt]
      exact ⟨rfl, rfl⟩
    · rw [Profile.add64, if_neg hlt] at h
      cases h

/-- Otherwise `transmit` panics. -/
theorem sendPacket_inv (h : sendPacket pr hash r port s = some (port', s')) :
    ∃ b, (s.vecs ()).pop.1 = some b ∧ r.packetLen ≤ b.data.len ∧ b.data.len < 2 ^ 16 ∧
      port.hashes port.nextSeq = none ∧ (s.deques .send).len < (s.deques .send).capacity ∧
      port' = port.afterSend hash r b ∧ s' = r.afterSend port b s := by
  obtain ⟨b, hpop, hcond⟩ : ∃ b, (s.vecs ()).pop.1 = some b ∧ r.packetLen ≤ b.data.len ∧
      b.data.len < 2 ^ 16 ∧ port.hashes port.nextSeq = none ∧
      (s.deques .send).len < (s.deques .send).capacity ∧
      pr.add64 port.seq 1 = .ok port.nextSeq := by
    obtain ⟨b, hpop, h⟩ := Option.bind_eq_some_iff.1 h
    obtain ⟨buf, hset, h⟩ := Option.bind_eq_some_iff.1 h
    obtain ⟨seq, hadd, h⟩ := Option.bind_eq_some_iff.1 h
    obtain ⟨mem, -, h⟩ := Option.bind_eq_some_iff.1 h
    obtain ⟨bytes, -, h⟩ := Option.bind_eq_some_iff.1 h
    obtain ⟨hnext, rfl⟩ := PortState.add64_seq hadd
    split at hset
    · next buf' hok =>
        cases hset
        obtain ⟨rfl, hle⟩ := BufMmap.setLen_ok hok
        dsimp only at h
        split at h
        · cases h
        · next hno =>
            obtain ⟨hfresh, hpush⟩ := not_or.1 hno
            refine ⟨b, hpop, ?_, BufMmap.setLen_capacity hok, ?_, ArrayDeque.room_of_pushBack hpush,
              hnext⟩
            · rw [← r.buf_len b]
              exact hle
            · rwa [Option.not_isSome_iff_eq_none] at hfresh
    · cases hset
  obtain ⟨hlen, h16, hfresh, hroom, hadd⟩ := hcond
  rw [sendPacket_of hpop hlen h16 hfresh hroom hadd] at h
  cases h
  exact ⟨b, hpop, hlen, h16, hfresh, hroom, rfl, rfl⟩

end

/-! ## What `receive` did -/

section
variable {hash : List UInt8 → UInt64} {p : Pos} {test test' : BiDirHash} {s s' : PortSys}

/-- The data path after a packet was received. -/
def afterReceive (s : PortSys) (b : BufMmap Unit) : PortSys :=
  { s with
    vecs := Function.update s.vecs () ((s.vecs ()).push b)
    deques := Function.update s.deques .receive (s.deques .receive).popFront.2 }

/-- The number in a buffer. -/
def bufSeq (b : BufMmap Unit) (mem : Nat → UInt8) : Nat := fromNeBytes ((b.getData mem).take 8)

/-- A packet is received if there is one, and it has room for its number. -/
theorem receivePacket_eq : test.receivePacket hash p s = some (test', s') ↔
    ∃ b, (s.deques .receive).popFront.1 = some b ∧ 8 ≤ b.data.len ∧
      test.check hash p (bufSeq b s.mem) (b.packet s.mem) = some test' ∧ s' = afterReceive s b := by
  rw [BiDirHash.receivePacket]
  cases hpop : (s.deques .receive).popFront with
  | mk b pending =>
    cases b with
    | none => simp
    | some b =>
      by_cases hlen : b.data.len < 8
      · simp [hlen]
      · have h8 : 8 ≤ b.data.len := Nat.not_lt.1 hlen
        simp [hlen, h8, afterReceive, hpop, bufSeq, eq_comm]

end

/-! ## The calls do what an application can do -/

section
variable {ι ν δ T : Type} [DecidableEq ι] [DecidableEq ν] [DecidableEq δ] [Inhabited T]
  {s : Sys ι ν δ T} {c : Coll ν δ} {k : Nat} {b : BufMmap T}

/-- Stores through the slice of a buffer are steps of the application. -/
theorem leads_writeAll {ws : List (Nat × UInt8)} {mem : Nat → UInt8} (hb : (s.coll c)[k]? = some b)
    (h : b.writeAll s.mem ws = .ok mem) :
    ∃ as, (∀ a ∈ as, Local a) ∧ Leads Afxdp.step s as { s with mem } := by
  induction ws generalizing s with
  | nil =>
      cases h
      exact ⟨[], fun a ha => absurd ha List.not_mem_nil, .nil s⟩
  | cons w ws ih =>
      obtain ⟨mem₁, h1, h2⟩ := Except.bind_ok h
      have hstep : Afxdp.step s (.write c k w.1 w.2) = some ({ s with mem := mem₁ }, ⟨0, []⟩) := by
        simp only [Afxdp.step, stepIn, hb, h1]
      have hcoll : ({ s with mem := mem₁ } : Sys ι ν δ T).coll c = s.coll c := by
        cases c <;> rfl
      obtain ⟨as, has, hlead⟩ := ih (s := { s with mem := mem₁ }) (by rw [hcoll, hb]) h2
      refine ⟨.write c k w.1 w.2 :: as, fun a ha => ?_, .cons hstep hlead⟩
      rcases List.mem_cons.1 ha with rfl | ha
      · trivial
      · exact has a ha

/-- So is a `set_len` that returns. -/
theorem step_setLen {b' : BufMmap T} {len : UInt16} (hb : (s.coll c)[k]? = some b)
    (h : BufMmap.setLen len b = .ok () b') : Afxdp.step s (.setLen c k len) =
      some (s.setColl ((s.coll c).set k b') c, ⟨0, []⟩) := by
  simp only [Afxdp.step, stepIn, Sys.modifyBuf, hb, h, Option.map_some]

end

section
variable {pr : Profile} {hash : List UInt8 → UInt64} {r : Random} {port port' : PortState} {p : Pos}
  {test test' : BiDirHash} {s s' : PortSys}

/-- A packet is sent by setting the length of the last buffer of `bufs`, storing its bytes, and
moving it to the end of the deque. -/
theorem leads_sendPacket (h : sendPacket pr hash r port s = some (port', s')) :
    LocalLeads s s' := by
  obtain ⟨b, hpop, hlen, h16, -, hroom, -, rfl⟩ := sendPacket_inv h
  obtain ⟨front, hlist⟩ := List.getLast?_eq_some_iff.1 hpop
  have h8 : 8 ≤ b.data.len := by
    have := r.packetLen_mem.1
    omega
  have hb : ∀ x : BufMmap Unit, (front ++ [x])[front.length]? = some x := fun x => by
    rw [List.getElem?_append_right (Nat.le_refl _), Nat.sub_self]
    rfl
  -- the buffer stays in its place while it is filled
  have hset : Afxdp.step s (.setLen (.vec ()) front.length (UInt16.ofNat r.packetLen)) =
      some (s.setColl (front ++ [r.buf b]) (.vec ()), ⟨0, []⟩) := by
    rw [step_setLen (b := b) (by rw [Sys.coll, hlist, hb]) (setLen_of hlen h16), Sys.coll, hlist,
      List.set_append_right _ _ (Nat.le_refl _), Nat.sub_self]
    rfl
  have hcoll : (s.setColl (front ++ [r.buf b]) (.vec ())).coll (.vec ()) = front ++ [r.buf b] := by
    rw [Sys.coll_setColl (by rw [Sys.coll, hlist]; simp), Function.update_self]
  have hwrite := leads_writeAll (by rw [hcoll, hb]) ((r.buf b).writeAll_zipIdx
    (s.setColl (front ++ [r.buf b]) (.vec ())).mem (r.data port.nextSeq b.data.len) (k := 0)
    (by rw [r.data_length h8, Nat.zero_add]; exact Nat.le_refl _))
  have hcoll' : ∀ mem, ({ s.setColl (front ++ [r.buf b]) (.vec ()) with mem } : PortSys).coll
      (.vec ()) = front ++ [r.buf b] := fun _ => hcoll
  have hmove : Afxdp.step { s.setColl (front ++ [r.buf b]) (.vec ()) with
        mem := writeAt s.mem b.data.start (r.data port.nextSeq b.data.len) }
      (.move (.vec ()) front.length (.deque .send) (s.deques .send).len 0) =
        some (r.afterSend port b s, ⟨0, []⟩) := by
    simp only [Afxdp.step, stepIn, hcoll', hb, List.eraseIdx_append_of_length_le (Nat.le_refl _),
      Nat.sub_self, List.eraseIdx_zero, List.tail_cons, List.append_nil]
    simp only [Sys.insert, Sys.setColl, ArrayDeque.insertAt_end hroom, Option.map_some,
      Function.update_self, Function.update_idem, Vec.withList_pop hlist]
    rfl
  exact (LocalLeads.single (by trivial) hset).trans
    (LocalLeads.trans hwrite (.single (by trivial) hmove))

/-- A packet is received by moving the first buffer of the deque to the end of `bufs`. -/
theorem leads_receivePacket (h : test.receivePacket hash p s = some (test', s')) :
    LocalLeads s s' := by
  obtain ⟨b, hpop, -, -, rfl⟩ := receivePacket_eq.1 h
  exact .single (by trivial) (step_move_front hpop)

theorem leads_sendPackets {random : Nat → Random} {n : Nat}
    (h : sendPackets pr hash random n port s = some (port', s')) : LocalLeads s s' := by
  induction n generalizing port' s' with
  | zero =>
      cases h
      exact .refl s
  | succ n ih =>
      obtain ⟨⟨port₁, s₁⟩, h1, h2⟩ := Option.bind_eq_some_iff.1 h
      exact (ih h1).trans (leads_sendPacket h2)

theorem leads_receivePackets {n : Nat}
    (h : BiDirHash.receivePackets hash p n test s = some (test', s')) : LocalLeads s s' := by
  induction n generalizing test' s' with
  | zero =>
      cases h
      exact .refl s
  | succ n ih =>
      obtain ⟨⟨test₁, s₁⟩, h1, h2⟩ := Option.bind_eq_some_iff.1 h
      exact (ih h1).trans (leads_receivePacket h2)

theorem bidirHash_lawful (pr : Profile) (hash : List UInt8 → UInt64) :
    (bidirHash pr hash).Lawful where
  receive h := by
    obtain ⟨⟨test, s⟩, h1, h2⟩ := Option.map_eq_some_iff.1 h
    cases h2
    exact leads_receivePackets h1
  transmit {test now p r s n test' s'} h := by
    replace h : test.transmit pr hash now p r s = some (n, test', s') := h
    simp only [BiDirHash.transmit] at h
    split at h
    · split at h
      · cases h
        exact .refl _
      · obtain ⟨⟨port, s⟩, h1, h2⟩ := Option.map_eq_some_iff.1 h
        cases h2
        exact leads_sendPackets h1
    · cases h
      exact .refl _

end

end Traffic

end Afxdp
