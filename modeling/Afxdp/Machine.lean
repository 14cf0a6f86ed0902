import Afxdp.Lib.Loop
import Afxdp.Lib.Spsc

/-!
# What the crate runs on

The parts of Rust and of libbpf that the four batch calls use. Arithmetic on machine integers
takes the build profile as an argument: with overflow checks (`Profile.debug`) an overflow panics,
without (`Profile.release`) it wraps. A call is a computation in `CallM β`: it works on the
caller's collection of type `β`, it may panic, and the collection and the libbpf calls made so far
survive the panic. The libbpf calls are recorded in order as `Ffi` events. libbpf itself is not
part of the repository: what its calls return is a parameter of every function that makes them
(`XskRingCons`, `XskRingProd`).
-/

namespace Afxdp

open Spsc (cursor cursor_succ cursor_add_toNat)
open Loop (forRange forRange_ok forRange_error)

/-- The build profile: arithmetic overflow panics in a debug build and wraps in a release build. -/
inductive Profile
  | debug
  | release
deriving DecidableEq, Repr

/-- Why a computation panics. -/
inductive Panic
  /-- Arithmetic overflow under overflow checks. -/
  | overflow
  /-- `unwrap` of an `Err` or a `None`. -/
  | unwrap
  /-- `panic!` or `todo!` with a message. -/
  | msg (text : String)
deriving DecidableEq, Repr

namespace Profile

/-- `u32` addition. -/
def addU32 : Profile → UInt32 → UInt32 → Except Panic UInt32
  | .debug, a, b => if a.toNat + b.toNat < 2 ^ 32 then .ok (a + b) else .error .overflow
  | .release, a, b => .ok (a + b)

/-- `usize` or `u64` addition on a 64-bit target. -/
def add64 : Profile → Nat → Nat → Except Panic Nat
  | .debug, a, b => if a + b < 2 ^ 64 then .ok (a + b) else .error .overflow
  | .release, a, b => .ok ((a + b) % 2 ^ 64)

/-- `usize` multiplication on a 64-bit target. -/
def mul64 : Profile → Nat → Nat → Except Panic Nat
  | .debug, a, b => if a * b < 2 ^ 64 then .ok (a * b) else .error .overflow
  | .release, a, b => .ok (a * b % 2 ^ 64)

/-- `usize` subtraction on a 64-bit target. -/
def sub64 : Profile → Nat → Nat → Except Panic Nat
  | .debug, a, b => if b ≤ a then .ok (a - b) else .error .overflow
  | .release, a, b => .ok (if b ≤ a then a - b else a + 2 ^ 64 - b)

theorem add64_ok (p : Profile) {a b : Nat} (h : a + b < 2 ^ 64) : p.add64 a b = .ok (a + b) := by
  cases p
  · exact if_pos h
  · exact congrArg _ (Nat.mod_eq_of_lt h)

theorem mul64_ok (p : Profile) {a b : Nat} (h : a * b < 2 ^ 64) : p.mul64 a b = .ok (a * b) := by
  cases p
  · exact if_pos h
  · exact congrArg _ (Nat.mod_eq_of_lt h)

theorem sub64_ok (p : Profile) {a b : Nat} (h : b ≤ a) : p.sub64 a b = .ok (a - b) := by
  cases p
  · exact if_pos h
  · exact congrArg _ (if_pos h)

/-- The ring indices from the count `c` on can be incremented `n` times: without overflow checks
always, with them if the cursor does not reach `2 ^ 32`. -/
def Increments (p : Profile) (c n : Nat) : Prop :=
  p = .release ∨ (cursor c).toNat + n < 2 ^ 32

/-- Each of the increments of a ring index then succeeds. -/
theorem Increments.addU32 {p : Profile} {c n j : Nat} (h : p.Increments c n) (hj : j < n) :
    p.addU32 (cursor (c + j)) 1 = .ok (cursor (c + (j + 1))) := by
  rw [← Nat.add_assoc, ← cursor_succ]
  rcases h with rfl | h
  · rfl
  · have hc : (cursor (c + j)).toNat = (cursor c).toNat + j := cursor_add_toNat (by omega)
    cases p
    · exact if_pos (by rw [hc]; simp; omega)
    · rfl

/-- Under overflow checks the increment that reaches `2 ^ 32` panics. -/
theorem addU32_overflow {c j : Nat} (h : (cursor c).toNat + j + 1 = 2 ^ 32) :
    debug.addU32 (cursor (c + j)) 1 = .error .overflow := by
  have hc : (cursor (c + j)).toNat = (cursor c).toNat + j := cursor_add_toNat (by omega)
  exact if_neg (by rw [hc]; simp; omega)

/-- A loop body that increments the ring index once in every iteration: the loop is in state `S j`
before iteration `j`, and in state `E j` if the increment of iteration `j` panics. -/
def Advances {σ : Type} (p : Profile) (body : UInt32 → EStateM Panic σ UInt32) (c n : Nat)
    (S E : Nat → σ) : Prop :=
  ∀ j, j < n → body (cursor (c + j)) (S j) = match p.addU32 (cursor (c + j)) 1 with
    | .ok idx => .ok idx (S (j + 1))
    | .error e => .error e (E j)

section
variable {σ : Type} {p : Profile} {body : UInt32 → EStateM Panic σ UInt32} {c n : Nat}
  {S E : Nat → σ}

theorem Advances.step (h : p.Advances body c n S E) (hinc : p.Increments c n) {j : Nat}
    (hj : j < n) : body (cursor (c + j)) (S j) = .ok (cursor (c + (j + 1))) (S (j + 1)) := by
  rw [h j hj, hinc.addU32 hj]

/-- If no increment overflows the loop runs to its end. -/
theorem Advances.ok (h : p.Advances body c n S E) (hinc : p.Increments c n) :
    forRange body n (cursor c) (S 0) = .ok ⟨⟩ (S n) :=
  forRange_ok body (fun j => cursor (c + j)) S fun _ hj => h.step hinc hj

/-- Under overflow checks the loop ends in the increment that reaches `2 ^ 32`, also if that is
the increment past the last slot. -/
theorem Advances.overflow (h : Advances .debug body c n S E)
    (hover : 2 ^ 32 ≤ (cursor c).toNat + n) :
    ∃ k, k < n ∧ forRange body n (cursor c) (S 0) = .error .overflow (E k) := by
  have hlt := (cursor c).toNat_lt
  obtain ⟨k, hk⟩ : ∃ k, (cursor c).toNat + k + 1 = 2 ^ 32 :=
    ⟨2 ^ 32 - 1 - (cursor c).toNat, by omega⟩
  have hkn : k < n := by omega
  refine ⟨k, hkn, forRange_error body (fun j => cursor (c + j)) S hkn ?_ ?_⟩
  · intro j hj
    have hinc : Profile.debug.Increments c k := .inr (by omega)
    rw [h j (Nat.lt_trans hj hkn), hinc.addU32 hj]
  · rw [h k hkn, addU32_overflow hk]

end

end Profile

/-! ## Collections -/

/-- A `Vec<α>`: its elements from index 0 on, and its capacity. -/
structure Vec (α : Type) where
  list : List α
  capacity : Nat
  le : list.length ≤ capacity

namespace Vec

variable {α : Type}

/-- `Vec::with_capacity`. -/
def withCapacity (n : Nat) : Vec α := ⟨[], n, Nat.zero_le n⟩

/-- `Vec::len`. -/
def len (v : Vec α) : Nat := v.list.length

/-- `Vec::push`. A full vector grows; how far is not specified, so it grows by one here. -/
def push (v : Vec α) (x : α) : Vec α :=
  ⟨v.list ++ [x], max v.capacity (v.len + 1), by simp [len]⟩

/-- `Vec::pop`, from the back. -/
def pop (v : Vec α) : Option α × Vec α :=
  (v.list.getLast?, ⟨v.list.dropLast, v.capacity, by have := v.le; simp; omega⟩)

/-- `push` of one element after the other. -/
def pushAll (v : Vec α) (xs : List α) : Vec α := xs.foldl push v

/-- The vector without its last `n` elements. -/
def dropLast (v : Vec α) (n : Nat) : Vec α :=
  ⟨v.list.take (v.len - n), v.capacity, by have := v.le; simp; omega⟩

theorem ext {v w : Vec α} (hl : v.list = w.list) (hc : v.capacity = w.capacity) : v = w := by
  obtain ⟨_, _, _⟩ := v; obtain ⟨_, _, _⟩ := w
  cases hl; cases hc; rfl

/-- `capacity() - len()` of a vector does not underflow. -/
@[simp] theorem sub_len (p : Profile) (v : Vec α) :
    p.sub64 v.capacity v.len = .ok (v.capacity - v.len) := p.sub64_ok v.le

@[simp] theorem pushAll_nil (v : Vec α) : v.pushAll [] = v := rfl

theorem pushAll_concat (v : Vec α) (xs : List α) (x : α) :
    v.pushAll (xs ++ [x]) = (v.pushAll xs).push x := by
  simp [pushAll]

@[simp] theorem pushAll_list (v : Vec α) (xs : List α) : (v.pushAll xs).list = v.list ++ xs := by
  induction xs generalizing v with
  | nil => simp
  | cons x xs ih => rw [pushAll, List.foldl_cons, ← pushAll, ih, push]; simp

/-- A vector with spare capacity does not grow. -/
theorem pushAll_capacity {v : Vec α} {xs : List α} (h : v.len + xs.length ≤ v.capacity) :
    (v.pushAll xs).capacity = v.capacity := by
  induction xs generalizing v with
  | nil => rfl
  | cons x xs ih =>
      simp only [List.length_cons] at h
      have hc : (v.push x).capacity = v.capacity := by simp only [push]; omega
      rw [pushAll, List.foldl_cons, ← pushAll, ih (by rw [hc]; simp [push, len] at h ⊢; omega), hc]

@[simp] theorem dropLast_zero (v : Vec α) : v.dropLast 0 = v :=
  ext (by simp [dropLast, len]) rfl

/-- `pop` takes the elements from the back one by one. -/
theorem pop_dropLast {v : Vec α} {j : Nat} (h : j < v.list.reverse.length) :
    (v.dropLast j).pop = (some v.list.reverse[j], v.dropLast (j + 1)) := by
  rw [List.length_reverse] at h
  refine Prod.ext ?_ (ext ?_ rfl)
  · simp only [pop, dropLast, len, List.getElem_reverse]
    rw [List.getLast?_eq_getElem?, List.length_take, List.getElem?_take_of_lt (by omega),
      List.getElem?_eq_getElem (by omega)]
    congr 2
    omega
  · simp only [pop, dropLast, len, List.dropLast_eq_take, List.length_take, List.take_take]
    congr 1
    omega

end Vec

/-- An `ArrayDeque<[α; N], Wrapping>`: its elements from the front, and its fixed capacity. -/
structure ArrayDeque (α : Type) where
  list : List α
  capacity : Nat
  le : list.length ≤ capacity

namespace ArrayDeque

variable {α : Type}

/-- `ArrayDeque::len`. -/
def len (d : ArrayDeque α) : Nat := d.list.length

/-- `ArrayDeque::push_back` with the `Wrapping` behaviour: on a full deque the front element is
taken out to make room, and returned. -/
def pushBack (d : ArrayDeque α) (x : α) : Option α × ArrayDeque α :=
  if h : d.len < d.capacity then
    (none, ⟨d.list ++ [x], d.capacity, by simp only [len] at h; simp; omega⟩)
  else
    match hl : d.list with
    | [] => (some x, d)
    | y :: ys => (some y, ⟨ys ++ [x], d.capacity, by have := d.le; simp [hl] at this ⊢; omega⟩)

/-- `ArrayDeque::pop_front`. -/
def popFront (d : ArrayDeque α) : Option α × ArrayDeque α :=
  (d.list.head?, ⟨d.list.tail, d.capacity, by have := d.le; simp; omega⟩)

theorem ext {d e : ArrayDeque α} (hl : d.list = e.list) (hc : d.capacity = e.capacity) :
    d = e := by
  obtain ⟨_, _, _⟩ := d; obtain ⟨_, _, _⟩ := e
  cases hl; cases hc; rfl

/-- `push_back` of one element after the other. -/
def pushAll (d : ArrayDeque α) (xs : List α) : ArrayDeque α :=
  xs.foldl (fun d x => (d.pushBack x).2) d

/-- The deque without its first `n` elements. -/
def drop (d : ArrayDeque α) (n : Nat) : ArrayDeque α :=
  ⟨d.list.drop n, d.capacity, by have := d.le; simp; omega⟩

/-- `capacity() - len()` of a deque does not underflow. -/
@[simp] theorem sub_len (p : Profile) (d : ArrayDeque α) :
    p.sub64 d.capacity d.len = .ok (d.capacity - d.len) := p.sub64_ok d.le

@[simp] theorem drop_zero (d : ArrayDeque α) : d.drop 0 = d := rfl

/-- `pop_front` takes the elements from the front one by one. -/
theorem popFront_drop {d : ArrayDeque α} {j : Nat} (h : j < d.list.length) :
    (d.drop j).popFront = (some d.list[j], d.drop (j + 1)) := by
  refine Prod.ext ?_ (ext ?_ rfl)
  · simp [popFront, drop, List.head?_drop, h]
  · simp [popFront, drop]

/-- One more element fits a deque with room left. -/
theorem length_concat_le {d : ArrayDeque α} (x : α) (h : d.len < d.capacity) :
    (d.list ++ [x]).length ≤ d.capacity := by
  rw [List.length_append]
  exact h

/-- With room left nothing is evicted. -/
theorem pushBack_of_lt {d : ArrayDeque α} {x : α} (h : d.len < d.capacity) :
    d.pushBack x = (none, ⟨d.list ++ [x], d.capacity, length_concat_le x h⟩) :=
  dif_pos h

@[simp] theorem pushAll_nil (d : ArrayDeque α) : d.pushAll [] = d := rfl

theorem pushAll_concat (d : ArrayDeque α) (xs : List α) (x : α) :
    d.pushAll (xs ++ [x]) = ((d.pushAll xs).pushBack x).2 := by
  simp [pushAll]

/-- Elements for which there is room are appended, and nothing is evicted. -/
theorem pushAll_eq (d : ArrayDeque α) (xs : List α) (h : d.len + xs.length ≤ d.capacity) :
    (d.pushAll xs).list = d.list ++ xs ∧ (d.pushAll xs).capacity = d.capacity := by
  induction xs generalizing d with
  | nil => simp
  | cons x xs ih =>
      simp only [List.length_cons] at h
      have hp := pushBack_of_lt (d := d) (x := x) (by omega)
      obtain ⟨hl, hc⟩ := ih (d.pushBack x).2 (by rw [hp]; simp [len] at h ⊢; omega)
      rw [pushAll, List.foldl_cons, ← pushAll, hl, hc, hp]
      simp

end ArrayDeque

/-! ## libbpf -/

/-- An `xdp_desc`: an Rx or Tx descriptor. -/
structure XdpDesc where
  addr : Nat
  len : Nat
  options : Nat
deriving DecidableEq, Repr, Inhabited

/-- The `errno` values `wakeup_if_required` distinguishes. -/
inductive Errno
  | ENOBUFS
  | EAGAIN
  | EBUSY
  | ENETDOWN
  | other (code : Int)
deriving DecidableEq, Repr

/-- What `sendto` does: succeed, or fail with an `errno`. -/
inductive Sendto
  | sent
  | failed (errno : Errno)
deriving DecidableEq, Repr

/-- A consumer ring as one call sees it through libbpf: what `_xsk_ring_cons__peek` returns and
stores in the index for each requested number, and what the slot of an index holds. -/
structure XskRingCons (δ : Type) where
  peek : Nat → Nat × UInt32
  desc : UInt32 → δ

/-- A producer ring as one call sees it through libbpf: what `_xsk_ring_prod__reserve` returns and
stores in the index for each requested number, what `_xsk_ring_prod__needs_wakeup` answers, and
what a `sendto` on the socket's descriptor would do. -/
structure XskRingProd where
  reserve : Nat → Nat × UInt32
  needsWakeup : Bool
  sendto : Sendto

/-- A libbpf or system call with its arguments and results, or an access through a pointer that
libbpf returned. -/
inductive Ffi
  /-- `_xsk_ring_cons__peek(_, nb, &idx)` returned `got` and set the index. -/
  | peek (nb got : Nat) (idx : UInt32)
  /-- A read of `*_xsk_ring_cons__rx_desc(_, idx)`. -/
  | rxDesc (idx : UInt32)
  /-- A read of `*_xsk_ring_cons__comp_addr(_, idx)`. -/
  | compAddr (idx : UInt32)
  /-- `_xsk_ring_cons__release(_, nb)`. -/
  | release (nb : Nat)
  /-- `_xsk_ring_prod__reserve(_, nb, &idx)` returned `got` and set the index. -/
  | reserve (nb got : Nat) (idx : UInt32)
  /-- The stores of `addr` and `len` to `*_xsk_ring_prod__tx_desc(_, idx)`. -/
  | txDesc (idx : UInt32) (addr len : Nat)
  /-- The store of `addr` to `*_xsk_ring_prod__fill_addr(_, idx)`. -/
  | fillAddr (idx : UInt32) (addr : Nat)
  /-- `_xsk_ring_prod__submit(_, nb)`. -/
  | submit (nb : Nat)
  /-- `sendto` on the socket. -/
  | sendto
deriving DecidableEq, Repr

/-! ## Calls -/

/-- The state of a call: the caller's collection and the libbpf calls made so far. -/
structure Call (β : Type) where
  bufs : β
  trace : List Ffi

/-- A call on a collection of type `β` that returns an `α` or panics. -/
abbrev CallM (β : Type) := EStateM Panic (Call β)

namespace CallM

variable {β α : Type}

/-- Record a libbpf call. -/
def ffi (e : Ffi) : CallM β Unit := modify fun s => { s with trace := s.trace ++ [e] }

/-- Read the collection. -/
def bufs : CallM β β := fun s => .ok s.bufs s

/-- Replace the collection. -/
def setBufs (b : β) : CallM β Unit := modify fun s => { s with bufs := b }

/-- A computation on values only. -/
def ofExcept : Except Panic α → CallM β α
  | .ok a => pure a
  | .error e => throw e

/-- The value of an `Option` or a panic. -/
def unwrap : Option α → CallM β α
  | some a => pure a
  | none => throw .unwrap

variable {γ : Type} {s : Call β}

theorem bind_apply (x : CallM β α) (f : α → CallM β γ) :
    (x >>= f) s = match x s with
      | .ok a s' => f a s'
      | .error e s' => .error e s' := by
  cases h : x s <;> simp only [bind, EStateM.bind, h]

theorem map_apply (f : α → γ) (x : CallM β α) :
    (f <$> x) s = match x s with
      | .ok a s' => .ok (f a) s'
      | .error e s' => .error e s' := by
  cases h : x s <;> simp only [Functor.map, EStateM.map, h]

@[simp] theorem pure_apply (a : α) : (pure a : CallM β α) s = .ok a s := rfl
@[simp] theorem throw_apply (e : Panic) : (throw e : CallM β α) s = .error e s := rfl
@[simp] theorem ffi_apply (e : Ffi) : ffi e s = .ok () { s with trace := s.trace ++ [e] } := rfl
@[simp] theorem bufs_apply : bufs s = .ok s.bufs s := rfl
@[simp] theorem setBufs_apply (b : β) : setBufs b s = .ok () { s with bufs := b } := rfl
@[simp] theorem ofExcept_ok (a : α) : ofExcept (.ok a) s = .ok a s := rfl
@[simp] theorem ofExcept_error (e : Panic) :
    (ofExcept (.error e) : CallM β α) s = .error e s := rfl
@[simp] theorem unwrap_some (a : α) : unwrap (some a) s = .ok a s := rfl
@[simp] theorem unwrap_none : (unwrap none : CallM β α) s = .error .unwrap s := rfl

end CallM

end Afxdp
