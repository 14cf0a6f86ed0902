import Afxdp.Lib.Run
import Afxdp.MmapArea

/-!
# Handles

What the application holds are handles: the `Arc`s of areas, umems and sockets, and the structures
of the rings, each with an `Arc` of its umem or socket and the box of the ring. Here the buffers
and the contents of the rings do not matter, only who holds a reference to what, and in which order
things are made, deleted and freed (`Event`).

A constructor takes its `Arc` by value: a socket keeps the `Arc` of its umem and a umem the one of
its area, and a constructor that returns an `Err`, or panics, drops it. The drop of a last `Arc`
runs the destructor of the object and then drops its fields (`dropArc`); the drop of a ring's
structure drops its fields in the order of their declaration, first the `Arc`, then the box
(`Handle.drop`). The rings that a failing constructor frees were never registered and are left out.
-/

namespace Afxdp.Lifetime

/-- What is behind an `Arc`: a `MmapArea`, a `Umem` or a `Socket`, each named by an id and the ids
of what it was made over. -/
inductive Obj
  | area (a : Nat)
  | umem (a u : Nat)
  | socket (a u j : Nat)
deriving DecidableEq, Repr

/-- What an object holds an `Arc` of: `Umem.area` and `Socket.umem`. -/
def Obj.parent : Obj → Option Obj
  | .area _ => none
  | .umem a _ => some (.area a)
  | .socket a u _ => some (.umem a u)

/-- The rings whose boxes are registered with libbpf: by `xsk_umem__create` and by
`xsk_socket__create`. -/
inductive Ring
  | fill (a u : Nat)
  | comp (a u : Nat)
  | rx (a u j : Nat)
  | tx (a u j : Nat)
deriving DecidableEq, Repr

/-- The object a ring is registered with. -/
def Ring.owner : Ring → Obj
  | .fill a u | .comp a u => .umem a u
  | .rx a u j | .tx a u j => .socket a u j

/-- A handle of the application. -/
inductive Handle
  /-- `Arc<MmapArea>`, `Arc<Umem>` or `Arc<Socket>`. -/
  | arc (o : Obj)
  /-- `UmemFillQueue`, `UmemCompletionQueue`, `SocketRx` or `SocketTx`. -/
  | ring (r : Ring)
deriving DecidableEq, Repr

/-- What the `Arc` of a handle points to. -/
def Handle.obj : Handle → Obj
  | .arc o => o
  | .ring r => r.owner

/-- What becomes visible outside the crate. -/
inductive Event
  /-- `mmap`, `xsk_umem__create` or `xsk_socket__create` succeeded. -/
  | created (o : Obj)
  /-- `munmap`, `xsk_umem__delete` or `xsk_socket__delete` was called. -/
  | deleted (o : Obj)
  /-- The box of a ring was freed. -/
  | freed (r : Ring)
deriving DecidableEq, Repr

/-- What the constructors fail with. -/
inductive UmemNewError
  | create (errno : Int)
  | ringNotPowerOfTwo
deriving DecidableEq, Repr

inductive SocketNewError
  | create (errno : Int)
  | ringNotPowerOfTwo
deriving DecidableEq, Repr

/-- Why a constructor returned no handles. -/
inductive NewError
  | mmapArea (e : MmapError)
  | umem (e : UmemNewError)
  | socket (e : SocketNewError)
  | panic (e : Panic)
deriving DecidableEq, Repr

/-- The strong count of every `Arc`, the `ptr` of every `MmapArea`, the next unused id, the handles
the application holds, and what happened. -/
structure App where
  strong : Obj → Nat
  ptr : Nat → Int
  next : Nat
  handles : List Handle
  log : List Event

/-- Nothing was made yet. -/
def App.init : App := ⟨fun _ => 0, fun _ => 0, 0, [], []⟩

/-! ## Drops -/

/-- `MAP_FAILED`. -/
def mapFailed : Int := -1

/-- `Drop for MmapArea`. -/
def mmapAreaDrop (ptr : Nat → Int) (a : Nat) : List Event :=
  if ptr a = mapFailed then [] else [.deleted (.area a)]

/-- The drop of an `Arc`; `inner` is the drop of what it points to. -/
def dropArc (inner : (Obj → Nat) → (Obj → Nat) × List Event) (strong : Obj → Nat) (o : Obj) :
    (Obj → Nat) × List Event :=
  if strong o = 1 then inner (Function.update strong o 0)
  else (Function.update strong o (strong o - 1), [])

/-- The drop of an `Arc<MmapArea>`. -/
def dropArea (ptr : Nat → Int) (strong : Obj → Nat) (a : Nat) : (Obj → Nat) × List Event :=
  dropArc (fun strong => (strong, mmapAreaDrop ptr a)) strong (.area a)

/-- The drop of an `Arc<Umem>`: `Drop for Umem` and then the field `area`. -/
def dropUmem (ptr : Nat → Int) (strong : Obj → Nat) (a u : Nat) : (Obj → Nat) × List Event :=
  dropArc (fun strong =>
    let r := dropArea ptr strong a
    (r.1, .deleted (.umem a u) :: r.2)) strong (.umem a u)

/-- The drop of an `Arc<Socket>`: `Drop for Socket` and then the field `umem`. -/
def dropSocket (ptr : Nat → Int) (strong : Obj → Nat) (a u j : Nat) :
    (Obj → Nat) × List Event :=
  dropArc (fun strong =>
    let r := dropUmem ptr strong a u
    (r.1, .deleted (.socket a u j) :: r.2)) strong (.socket a u j)

/-- The drop of an `Arc`. -/
def Obj.drop (ptr : Nat → Int) (strong : Obj → Nat) : Obj → (Obj → Nat) × List Event
  | .area a => dropArea ptr strong a
  | .umem a u => dropUmem ptr strong a u
  | .socket a u j => dropSocket ptr strong a u j

/-- The drop of a handle. The structures of the rings declare the `Arc` before the box. -/
def Handle.drop (ptr : Nat → Int) (strong : Obj → Nat) : Handle → (Obj → Nat) × List Event
  | .arc o => o.drop ptr strong
  | .ring r =>
    let q := r.owner.drop ptr strong
    (q.1, q.2 ++ [.freed r])

/-- A handle that the application does not hold any more is dropped. -/
def App.dropHandle (s : App) (h : Handle) : App :=
  { s with
    strong := (h.drop s.ptr s.strong).1
    log := s.log ++ (h.drop s.ptr s.strong).2 }

/-- The application gives a handle away. -/
def App.take (s : App) (k : Nat) : App := { s with handles := s.handles.eraseIdx k }

/-! ## Constructors -/

/-- `is_pow_of_two`. -/
def isPowOfTwo (val : UInt32) : Bool :=
  if val = 0 then false else val &&& (val - 1) == 0

/-- `Arc::new` of an object that was created, and a clone of the `Arc` for each of its rings. -/
def App.make (s : App) (o : Obj) (rings : List Ring) : App :=
  { s with
    strong := Function.update s.strong o (1 + rings.length)
    next := s.next + 1
    handles := s.handles ++ .arc o :: rings.map .ring
    log := s.log ++ [.created o] }

/-- `MmapArea::new`; `ret` is what `mmap` returns. -/
def mmapAreaNew (s : App) (ret : Int) : Except NewError (List Handle) × App :=
  if ret = mapFailed then (.error (.mmapArea .failed), s)
  else
    (.ok [.arc (.area s.next)],
      { s with ptr := Function.update s.ptr s.next ret }.make (.area s.next) [])

/-- `Umem::new` with an `Arc` of the area `a`. `ret` is the error number `xsk_umem__create` fails
with, if it fails. -/
def umemNew (s : App) (a : Nat) (completionRingSize fillRingSize : UInt32) (ret : Option Int) :
    Except NewError (List Handle) × App :=
  if !isPowOfTwo completionRingSize || !isPowOfTwo fillRingSize then
    (.error (.umem .ringNotPowerOfTwo), s.dropHandle (.arc (.area a)))
  else
    match ret with
    | some errno => (.error (.umem (.create errno)), s.dropHandle (.arc (.area a)))
    | none =>
      let u := s.next
      (.ok [.arc (.umem a u), .ring (.comp a u), .ring (.fill a u)],
        s.make (.umem a u) [.comp a u, .fill a u])

/-- What the three constructors of a socket share: the sizes to check, the rings to register. -/
def socketNewWith (s : App) (a u : Nat) (ifName : List UInt8) (sizes : List UInt32)
    (rings : List Ring) (ret : Option Int) : Except NewError (List Handle) × App :=
  if !sizes.all isPowOfTwo then
    (.error (.socket .ringNotPowerOfTwo), s.dropHandle (.arc (.umem a u)))
  else if ifName.contains 0 then
    -- `CString::new(if_name).unwrap()`
    (.error (.panic .unwrap), s.dropHandle (.arc (.umem a u)))
  else
    match ret with
    | some errno => (.error (.socket (.create errno)), s.dropHandle (.arc (.umem a u)))
    | none =>
      (.ok (.arc (.socket a u s.next) :: rings.map .ring), s.make (.socket a u s.next) rings)

/-- `Socket::new` with an `Arc` of the umem `u`. -/
def socketNew (s : App) (a u : Nat) (ifName : List UInt8) (rxRingSize txRingSize : UInt32)
    (ret : Option Int) : Except NewError (List Handle) × App :=
  socketNewWith s a u ifName [rxRingSize, txRingSize] [.rx a u s.next, .tx a u s.next] ret

/-- `Socket::new_rx`. -/
def socketNewRx (s : App) (a u : Nat) (ifName : List UInt8) (rxRingSize : UInt32)
    (ret : Option Int) : Except NewError (List Handle) × App :=
  socketNewWith s a u ifName [rxRingSize] [.rx a u s.next] ret

/-- `Socket::new_tx`. -/
def socketNewTx (s : App) (a u : Nat) (ifName : List UInt8) (txRingSize : UInt32)
    (ret : Option Int) : Except NewError (List Handle) × App :=
  socketNewWith s a u ifName [txRingSize] [.tx a u s.next] ret

/-! ## Steps -/

/-- What the application does with the `k`-th handle it holds. -/
inductive Act
  | mmapAreaNew (ret : Int)
  | umemNew (k : Nat) (completionRingSize fillRingSize : UInt32) (ret : Option Int)
  | socketNew (k : Nat) (ifName : List UInt8) (rxRingSize txRingSize : UInt32) (ret : Option Int)
  | socketNewRx (k : Nat) (ifName : List UInt8) (rxRingSize : UInt32) (ret : Option Int)
  | socketNewTx (k : Nat) (ifName : List UInt8) (txRingSize : UInt32) (ret : Option Int)
  /-- `clone`; only the `Arc`s have it. -/
  | clone (k : Nat)
  | drop (k : Nat)
deriving DecidableEq, Repr

/-- One step, and the handles it returns to the application. A step on a handle of another type, or
on none, does not exist. -/
def step (s : App) : Act → Option (App × Except NewError (List Handle))
  | .mmapAreaNew ret => some (mmapAreaNew s ret).swap
  | .umemNew k completionRingSize fillRingSize ret =>
    match s.handles[k]? with
    | some (.arc (.area a)) =>
      some (umemNew (s.take k) a completionRingSize fillRingSize ret).swap
    | _ => none
  | .socketNew k ifName rxRingSize txRingSize ret =>
    match s.handles[k]? with
    | some (.arc (.umem a u)) =>
      some (socketNew (s.take k) a u ifName rxRingSize txRingSize ret).swap
    | _ => none
  | .socketNewRx k ifName rxRingSize ret =>
    match s.handles[k]? with
    | some (.arc (.umem a u)) => some (socketNewRx (s.take k) a u ifName rxRingSize ret).swap
    | _ => none
  | .socketNewTx k ifName txRingSize ret =>
    match s.handles[k]? with
    | some (.arc (.umem a u)) => some (socketNewTx (s.take k) a u ifName txRingSize ret).swap
    | _ => none
  | .clone k =>
    match s.handles[k]? with
    | some (.arc o) => some
      ({ s with
          strong := Function.update s.strong o (s.strong o + 1)
          handles := s.handles ++ [.arc o] }, .ok [.arc o])
    | _ => none
  | .drop k =>
    match s.handles[k]? with
    | some h => some ((s.take k).dropHandle h, .ok [])
    | none => none

/-! ## What a step can do -/

/-- The id of an object. -/
def Obj.id : Obj → Nat
  | .area a => a
  | .umem _ u => u
  | .socket _ _ j => j

/-- What a step does to the state. -/
inductive Effect (s : App) (act : Act) : App → Prop
  /-- `mmap` failed. -/
  | refused : Effect s act s
  /-- An area was mapped. -/
  | mapped {ret : Int} (h : ret ≠ mapFailed) :
    Effect s act ({ s with ptr := Function.update s.ptr s.next ret }.make (.area s.next) [])
  /-- An object was made that keeps the `Arc` it was made with. -/
  | made {k : Nat} {p o : Obj} {rings : List Ring} (hk : s.handles[k]? = some (.arc p))
    (hp : o.parent = some p) (hid : o.id = s.next) (hr : ∀ r ∈ rings, r.owner = o) :
    Effect s act ((s.take k).make o rings)
  /-- A handle was dropped, by the application or, if it is an `Arc`, by a constructor. -/
  | dropped {k : Nat} {h : Handle} (hk : s.handles[k]? = some h)
    (ha : act = .drop k ∨ ∃ o, h = .arc o) : Effect s act ((s.take k).dropHandle h)
  /-- An `Arc` was cloned. -/
  | cloned {k : Nat} {o : Obj} (hk : s.handles[k]? = some (.arc o)) :
    Effect s act { s with
      strong := Function.update s.strong o (s.strong o + 1)
      handles := s.handles ++ [.arc o] }

variable {s s' : App} {act : Act} {out : Except NewError (List Handle)}

/-- A constructor of a socket makes one, or drops the `Arc` it was given. -/
theorem socketNewWith_effect {k a u : Nat} {ifName : List UInt8} {sizes : List UInt32}
    {rings : List Ring} {ret : Option Int} (hk : s.handles[k]? = some (.arc (.umem a u)))
    (hr : ∀ r ∈ rings, r.owner = .socket a u s.next) :
    Effect s act (socketNewWith (s.take k) a u ifName sizes rings ret).2 := by
  unfold socketNewWith
  split
  · exact .dropped hk (.inr ⟨_, rfl⟩)
  split
  · exact .dropped hk (.inr ⟨_, rfl⟩)
  cases ret with
  | some errno => exact .dropped hk (.inr ⟨_, rfl⟩)
  | none => exact .made hk rfl rfl hr

theorem umemNew_effect {k a : Nat} {completionRingSize fillRingSize : UInt32} {ret : Option Int}
    (hk : s.handles[k]? = some (.arc (.area a))) :
    Effect s act (umemNew (s.take k) a completionRingSize fillRingSize ret).2 := by
  unfold umemNew
  split
  · exact .dropped hk (.inr ⟨_, rfl⟩)
  cases ret with
  | some errno => exact .dropped hk (.inr ⟨_, rfl⟩)
  | none => exact .made hk rfl rfl (by simp [Ring.owner])

/-- Every step has one of the effects. -/
theorem step_effect (h : step s act = some (s', out)) : Effect s act s' := by
  cases act with
  | mmapAreaNew ret =>
    cases h
    unfold mmapAreaNew
    by_cases hret : ret = mapFailed
    · rw [if_pos hret]
      exact .refused
    · rw [if_neg hret]
      exact .mapped hret
  | umemNew k completionRingSize fillRingSize ret =>
    simp only [step] at h
    split at h
    · next a hk => cases h; exact umemNew_effect hk
    · cases h
  | socketNew k ifName rxRingSize txRingSize ret =>
    simp only [step] at h
    split at h
    · next a u hk => cases h; exact socketNewWith_effect hk (by simp [Ring.owner, App.take])
    · cases h
  | socketNewRx k ifName rxRingSize ret =>
    simp only [step] at h
    split at h
    · next a u hk => cases h; exact socketNewWith_effect hk (by simp [Ring.owner, App.take])
    · cases h
  | socketNewTx k ifName txRingSize ret =>
    simp only [step] at h
    split at h
    · next a u hk => cases h; exact socketNewWith_effect hk (by simp [Ring.owner, App.take])
    · cases h
  | clone k =>
    simp only [step] at h
    split at h
    · next o hk => cases h; exact .cloned hk
    · cases h
  | drop k =>
    simp only [step] at h
    split at h
    · next hd hk => cases h; exact .dropped hk (.inl rfl)
    · cases h

/-- A drop by the application. -/
theorem step_drop_inv {k : Nat} (h : step s (.drop k) = some (s', out)) :
    ∃ hd, s.handles[k]? = some hd ∧ s' = (s.take k).dropHandle hd := by
  simp only [step] at h
  split at h
  · next hd hk => cases h; exact ⟨hd, hk, rfl⟩
  · cases h

end Afxdp.Lifetime
