import Afxdp.BufMmap
import Afxdp.Lib.Observe

/-!
# `BufVec` as a stand-in for `BufMmap`

The trait `Buf` has a second implementation, over a `Vec<u8>`, so that packet pipelines can be built
and tested without AF_XDP. A caller sees what the trait's calls return, and which of them panic. The
two implementations are related as long as their bytes, lengths and user values are the same
(`StandsIn`), and every call keeps this except a `set_len` beyond the capacity: `BufMmap` panics
there, `BufVec` stores the length. So a pipeline sees a difference exactly if it makes such a call
(`bufVec_standsIn_iff`).
-/

namespace Afxdp

open Mem (readAt)
open Observe (call observe after Simulates)

/-! ## The trait -/

/-- `Buf<T>`. `σ` is all that the methods read and write. A slice is given by its bytes, and what a
caller does with a mutable reference is a store through it. -/
class Buf (σ : Type) (T : outParam Type) where
  getData : σ → List UInt8
  /-- A store through the slice of `get_data_mut`. -/
  storeData : Nat → UInt8 → EStateM Panic σ Unit
  getCapacity : σ → Except Panic UInt16
  getLen : σ → UInt16
  setLen : UInt16 → EStateM Panic σ Unit
  getUser : σ → T
  /-- A store through the reference of `get_user_mut`. -/
  storeUser : T → σ → σ

/-- A call through the trait. -/
inductive BufCall (T : Type)
  | getData
  | storeData (j : Nat) (v : UInt8)
  | getCapacity
  | getLen
  | setLen (len : UInt16)
  | getUser
  | storeUser (user : T)
deriving DecidableEq, Repr

/-- What a call returns. -/
inductive BufRet (T : Type)
  | unit
  | data (bytes : List UInt8)
  | u16 (n : UInt16)
  | user (user : T)
deriving DecidableEq, Repr

section
variable {σ T : Type} [Buf σ T]

/-- Make a call. -/
def BufCall.exec : BufCall T → EStateM Panic σ (BufRet T)
  | .getData => fun s => .ok (.data (Buf.getData s)) s
  | .storeData j v => fun s =>
    match Buf.storeData j v s with
    | .ok _ s' => .ok .unit s'
    | .error e s' => .error e s'
  | .getCapacity => fun s =>
    match Buf.getCapacity s with
    | .ok cap => .ok (.u16 cap) s
    | .error e => .error e s
  | .getLen => fun s => .ok (.u16 (Buf.getLen s)) s
  | .setLen len => fun s =>
    match Buf.setLen len s with
    | .ok _ s' => .ok .unit s'
    | .error e s' => .error e s'
  | .getUser => fun s => .ok (.user (Buf.getUser s)) s
  | .storeUser user => fun s => .ok .unit (Buf.storeUser user s)

/-- The length does not exceed the capacity, which is the length of the slice: what
`&get_data()[0..get_len()]` needs. -/
def Buf.LenFits (s : σ) : Prop :=
  ∃ cap, Buf.getCapacity s = .ok cap ∧ Buf.getLen s ≤ cap ∧ cap.toNat = (Buf.getData s).length

end

/-! ## The implementations -/

variable {T : Type}

/-- A vector with its `j`-th element replaced. -/
def Vec.set {α : Type} (v : Vec α) (j : Nat) (x : α) : Vec α :=
  ⟨v.list.set j x, v.capacity, by simpa using v.le⟩

/-- `BufVec`. -/
structure BufVec (T : Type) where
  data : Vec UInt8
  len : UInt16
  user : T

namespace BufVec

/-- `BufVec::new`. -/
def new (capacity : Nat) (user : T) : BufVec T :=
  ⟨⟨List.replicate capacity 0, capacity, by simp⟩, 0, user⟩

/-- `BufVec::new` with bytes copied over the zeros. -/
def filled (content : List UInt8) (user : T) : BufVec T :=
  { new content.length user with data := ⟨content, content.length, Nat.le_refl _⟩ }

/-- A store through the slice of `get_data_mut`, which panics outside it. -/
def storeData (j : Nat) (v : UInt8) : EStateM Panic (BufVec T) Unit := fun b =>
  if j < b.data.len then .ok () { b with data := b.data.set j v }
  else .error (.msg s!"index out of bounds: the len is {b.data.len} but the index is {j}") b

/-- `get_capacity`: the capacity of the vector, unless it does not fit a `u16`. -/
def getCapacity (b : BufVec T) : Except Panic UInt16 :=
  if b.data.capacity < 2 ^ 16 then .ok (UInt16.ofNat b.data.capacity) else .error .unwrap

/-- `set_len`. -/
def setLen (len : UInt16) : EStateM Panic (BufVec T) Unit := fun b => .ok () { b with len }

end BufVec

instance : Buf (BufVec T) T where
  getData b := b.data.list
  storeData := BufVec.storeData
  getCapacity := BufVec.getCapacity
  getLen b := b.len
  setLen := BufVec.setLen
  getUser b := b.user
  storeUser user b := { b with user }

/-- A `BufMmap` and the memory behind its slice. -/
structure MappedBuf (T : Type) where
  buf : BufMmap T
  mem : Nat → UInt8

instance : Buf (MappedBuf T) T where
  getData m := m.buf.getData m.mem
  storeData j v := fun m =>
    match m.buf.writeData m.mem j v with
    | .ok mem => .ok () { m with mem }
    | .error e => .error e m
  getCapacity m := m.buf.getCapacity
  getLen m := m.buf.getLen
  setLen len := fun m =>
    match BufMmap.setLen len m.buf with
    | .ok _ buf => .ok () { m with buf }
    | .error e buf => .error e { m with buf }
  getUser m := m.buf.user
  storeUser user m := { m with buf := { m.buf with user } }

/-! ## The simulation -/

/-- A `BufVec` and a `BufMmap` of the capacity `c` with the same bytes, length and user value. -/
structure StandsIn (c : Nat) (b : BufVec T) (m : MappedBuf T) : Prop where
  data : m.buf.getData m.mem = b.data.list
  slice : m.buf.data.len = c
  capacity : b.data.capacity = c
  len : b.len = m.buf.len
  len_le : b.len.toNat ≤ c
  user : b.user = m.buf.user

/-- The calls that both implementations answer alike: those other than a `set_len` beyond `c`. -/
def BufCall.Within (c : Nat) : BufCall T → Prop
  | .setLen len => len.toNat ≤ c
  | _ => True

namespace StandsIn

variable {c : Nat} {b : BufVec T} {m : MappedBuf T}

theorem length (h : StandsIn c b m) : b.data.len = c := by
  rw [Vec.len, ← h.data, BufMmap.getData, Mem.readAt_length, h.slice]

/-- Both have the capacity `c`, if it fits a `u16`. -/
theorem getCapacity (h : StandsIn c b m) (hc : c < 2 ^ 16) :
    b.getCapacity = .ok (UInt16.ofNat c) ∧ m.buf.getCapacity = .ok (UInt16.ofNat c) := by
  constructor
  · rw [BufVec.getCapacity, h.capacity, if_pos hc]
  · rw [BufMmap.getCapacity, h.slice, if_pos hc]

/-- In both the length fits the slice. -/
theorem lenFits (h : StandsIn c b m) (hc : c < 2 ^ 16) : Buf.LenFits b ∧ Buf.LenFits m := by
  obtain ⟨hb, hm⟩ := h.getCapacity hc
  have hcap : (UInt16.ofNat c).toNat = c := Nat.mod_eq_of_lt hc
  have hle : b.len ≤ UInt16.ofNat c := by
    rw [UInt16.le_iff_toNat_le, hcap]
    exact h.len_le
  refine ⟨⟨_, hb, hle, ?_⟩, ⟨_, hm, ?_, ?_⟩⟩
  · rw [hcap]
    exact h.length.symm
  · show m.buf.len ≤ _
    rw [← h.len]
    exact hle
  · show _ = (m.buf.getData m.mem).length
    rw [hcap, h.data]
    exact h.length.symm

/-- A store goes to the same byte, or panics with the same message. -/
theorem storeData (h : StandsIn c b m) (j : Nat) (v : UInt8) :
    (call BufCall.exec (.storeData j v) b).1 = (call BufCall.exec (.storeData j v) m).1 ∧
      StandsIn c (call BufCall.exec (.storeData j v) b).2
        (call BufCall.exec (.storeData j v) m).2 := by
  have hlen : m.buf.data.len = b.data.len := h.slice.trans h.length.symm
  by_cases hj : j < b.data.len
  · have hb : BufVec.storeData j v b = .ok () { b with data := b.data.set j v } := if_pos hj
    have hm : m.buf.writeData m.mem j v =
        .ok (Function.update m.mem (m.buf.data.start + j) v) := if_pos (hlen ▸ hj)
    simp only [call, BufCall.exec, Buf.storeData, hb, hm, true_and]
    refine ⟨?_, h.slice, h.capacity, h.len, h.len_le, h.user⟩
    show readAt _ _ _ = b.data.list.set j v
    rw [Mem.readAt_update_inside, ← h.data]
    rfl
  · have hb : BufVec.storeData j v b = .error
        (.msg s!"index out of bounds: the len is {b.data.len} but the index is {j}") b := if_neg hj
    have hm : m.buf.writeData m.mem j v = .error
        (.msg s!"index out of bounds: the len is {m.buf.data.len} but the index is {j}") :=
      if_neg (hlen ▸ hj)
    simp only [call, BufCall.exec, Buf.storeData, hb, hm, hlen, true_and]
    exact h

/-- A `set_len` within the capacity sets the length in both. -/
theorem setLen (h : StandsIn c b m) (hc : c < 2 ^ 16) {len : UInt16} (hle : len.toNat ≤ c) :
    (call BufCall.exec (.setLen len) b).1 = (call BufCall.exec (.setLen len) m).1 ∧
      StandsIn c (call BufCall.exec (.setLen len) b).2 (call BufCall.exec (.setLen len) m).2 := by
  have hnot : ¬ len > UInt16.ofNat c := by
    rw [gt_iff_lt, UInt16.lt_iff_toNat_lt, UInt16.toNat_ofNat', Nat.mod_eq_of_lt hc]
    exact Nat.not_lt.2 hle
  have hm : BufMmap.setLen len m.buf = .ok () { m.buf with len } := by
    simp only [BufMmap.setLen, (h.getCapacity hc).2, if_neg hnot]
  simp only [call, BufCall.exec, Buf.setLen, BufVec.setLen, hm, true_and]
  exact ⟨h.data, h.slice, h.capacity, rfl, hle, h.user⟩

/-- Beyond the capacity `BufMmap` panics and `BufVec` does not. -/
theorem setLen_ne (h : StandsIn c b m) (hc : c < 2 ^ 16) {len : UInt16} (hlt : c < len.toNat) :
    (call BufCall.exec (.setLen len) b).1 ≠ (call BufCall.exec (.setLen len) m).1 := by
  have hlt' : UInt16.ofNat c < len := by
    rw [UInt16.lt_iff_toNat_lt, UInt16.toNat_ofNat', Nat.mod_eq_of_lt hc]
    exact hlt
  have hm := BufMmap.setLen_too_large (h.getCapacity hc).2 hlt'
  simp only [call, BufCall.exec, Buf.setLen, BufVec.setLen, hm]
  intro he
  cases he

end StandsIn

/-- The two implementations answer every call alike but a `set_len` beyond the capacity. -/
theorem standsIn_simulates {c : Nat} (hc : c < 2 ^ 16) :
    Simulates BufCall.exec BufCall.exec (BufCall.Within c) (StandsIn (T := T) c) := by
  intro a b m ha h
  cases a with
  | getData => exact ⟨congrArg (fun l => Except.ok (BufRet.data l)) h.data.symm, h⟩
  | storeData j v => exact h.storeData j v
  | getCapacity =>
    obtain ⟨hb, hm⟩ := h.getCapacity hc
    simp only [call, BufCall.exec, Buf.getCapacity, hb, hm, true_and]
    exact h
  | getLen => exact ⟨congrArg (fun n => Except.ok (BufRet.u16 n)) h.len, h⟩
  | setLen len => exact h.setLen hc ha
  | getUser => exact ⟨congrArg (fun u => Except.ok (BufRet.user u)) h.user, h⟩
  | storeUser user => exact ⟨rfl, h.data, h.slice, h.capacity, h.len, h.len_le, rfl⟩

/-- A `BufVec` and a `BufMmap` with the same bytes and user value and length zero show a caller
the same, and keep their lengths within their slices, exactly if the caller sets no length beyond
the capacity. -/
theorem bufVec_standsIn_iff (content : List UInt8) (user : T) (m : MappedBuf T)
    (calls : List (BufCall T)) (hc : content.length ≤ 65535)
    (hdata : m.buf.getData m.mem = content) (hlen : m.buf.len = 0) (huser : m.buf.user = user) :
    (observe BufCall.exec calls (BufVec.filled content user) = observe BufCall.exec calls m ∧
      ∀ p, p <+: calls → Buf.LenFits (after BufCall.exec p (BufVec.filled content user)) ∧
        Buf.LenFits (after BufCall.exec p m)) ↔
    ∀ len, .setLen len ∈ calls → len.toNat ≤ content.length := by
  have hc' : content.length < 2 ^ 16 := Nat.lt_succ_of_le hc
  have hslice : m.buf.data.len = content.length := by
    rw [← hdata, BufMmap.getData, Mem.readAt_length]
  have h : StandsIn content.length (BufVec.filled content user) m :=
    ⟨hdata, hslice, rfl, hlen.symm, Nat.zero_le _, huser.symm⟩
  have hsim := standsIn_simulates (T := T) hc'
  have hwithin : (∀ a ∈ calls, a.Within content.length) ↔
      ∀ len, .setLen len ∈ calls → len.toNat ≤ content.length := by
    constructor
    · intro hQ len hmem
      exact hQ _ hmem
    · intro hset a ha
      cases a with
      | setLen len => exact hset len ha
      | _ => trivial
  have hobs : observe BufCall.exec calls (BufVec.filled content user) =
      observe BufCall.exec calls m ↔ ∀ a ∈ calls, a.Within content.length := by
    refine hsim.observe_eq_iff ?_ h
    intro a b m ha hst
    cases a with
    | setLen len => exact hst.setLen_ne hc' (Nat.lt_of_not_le ha)
    | _ => exact absurd trivial ha
  rw [← hwithin, ← hobs]
  refine and_iff_left_of_imp ?_
  intro he p hp
  have hQ := hobs.1 he
  exact (hsim.after h fun a ha => hQ a (hp.subset ha)).lenFits hc'

/-- A buffer of four zeros in the mapping. -/
def mappedFour : MappedBuf Unit := ⟨⟨256, 0, ⟨256, 4⟩, ()⟩, fun _ => 0⟩

/-- Calls that set no length beyond four. -/
def fourCalls : List (BufCall Unit) := [.setLen 4, .storeData 3 7, .getData]

theorem bufVec_standsIn_iff_four :
    (observe BufCall.exec fourCalls (BufVec.filled [0, 0, 0, 0] ()) =
        observe BufCall.exec fourCalls mappedFour ∧
      ∀ p, p <+: fourCalls →
        Buf.LenFits (after BufCall.exec p (BufVec.filled [0, 0, 0, 0] ())) ∧
          Buf.LenFits (after BufCall.exec p mappedFour)) ↔
    ∀ len, .setLen len ∈ fourCalls → len.toNat ≤ [(0 : UInt8), 0, 0, 0].length :=
  bufVec_standsIn_iff [0, 0, 0, 0] () mappedFour fourCalls (by decide) rfl rfl rfl

/-- A length beyond the capacity: the mapped buffer panics and keeps its length, the vector takes
it, and its length then exceeds its capacity. -/
theorem setLen_five_not_standsIn :
    observe BufCall.exec [.setLen 5] mappedFour = [.error (.msg "len too large 5 vs 4")] ∧
      observe BufCall.exec [.setLen 5, .getLen] (BufVec.filled [0, 0, 0, 0] ()) =
        [.ok .unit, .ok (.u16 5)] ∧
      observe BufCall.exec [.setLen 5] (BufVec.filled [0, 0, 0, 0] ()) ≠
        observe BufCall.exec [.setLen 5] mappedFour ∧
      ¬ Buf.LenFits (after BufCall.exec [.setLen 5] (BufVec.filled [0, 0, 0, 0] ())) := by
  refine ⟨rfl, rfl, by decide, ?_⟩
  rintro ⟨cap, hcap, hle, -⟩
  cases hcap
  exact absurd hle (by decide)

end Afxdp
