import Afxdp.Lib.Run
import Afxdp.Socket
import Afxdp.Umem

/-!
# The data path as a machine

The state of the whole data path over one area: the memory of the area, any number of links (a
umem with its four rings and its socket), and the collections of buffers the application owns. A
step is one call of the crate, one thing the application does with buffers it holds, or one thing
the kernel does on a link; a run interleaves them in any order.

The calls are the ones of `Afxdp.Umem` and `Afxdp.Socket`, in the release profile (`step`) or in
either (`stepIn`). They act on the rings only through the libbpf calls they make: a call runs
against a view of its ring (`consView`, `prodView`), and the calls it made are then replayed on the
ring. The views leave open what libbpf and the kernel decide: a peek grants any number of the
published entries up to the one asked for, a reservation is granted only if there is room for all of
it and may be refused anyway.

The kernel takes fill entries and Tx descriptors in ring order, writes to chunks it was given to
receive into, hands such a chunk back once, at any offset and length inside the chunk, and
completes each Tx descriptor at most once, in any order.

`Hist` is bookkeeping that no step reads: what the sockets were given and what the kernel saw.
-/

namespace Afxdp

open Spsc (RingBuf cursor)
open Mem (readAt)

/-! ## libbpf over a ring -/

section
variable {δ : Type}

/-- A consumer ring through libbpf. `grant` limits what a peek finds: its cached cursor may not
show everything that is published. -/
def consView (r : RingBuf δ) (grant : Nat) : XskRingCons δ where
  peek nb := (min grant (min nb r.used), cursor r.cons)
  desc := r.get

/-- A producer ring through libbpf. A reservation is all or nothing; `granted` is whether one that
fits is granted. -/
def prodView (r : RingBuf δ) (granted wake : Bool) (send : Sendto) : XskRingProd where
  reserve nb := if granted && decide (nb ≤ r.free) then (nb, cursor r.prod) else (0, cursor 0)
  needsWakeup := wake
  sendto := send

/-- The effect of a libbpf call on a consumer ring. -/
def Ffi.onCons : Ffi → RingBuf δ → RingBuf δ
  | .release nb, r => r.release nb
  | _, r => r

/-- The effect of a libbpf call on a fill ring. -/
def Ffi.onFill : Ffi → RingBuf Nat → RingBuf Nat
  | .fillAddr idx addr, r => r.modify idx fun _ => addr
  | .submit nb, r => r.submit nb
  | _, r => r

/-- The effect of a libbpf call on a Tx ring. The store leaves the `options` of the slot alone. -/
def Ffi.onTx : Ffi → RingBuf XdpDesc → RingBuf XdpDesc
  | .txDesc idx addr len, r => r.modify idx fun d => { d with addr, len }
  | .submit nb, r => r.submit nb
  | _, r => r

/-- The effect of a call's libbpf calls on its ring. -/
def replay (f : Ffi → RingBuf δ → RingBuf δ) (trace : List Ffi) (r : RingBuf δ) : RingBuf δ :=
  trace.foldl (fun r e => f e r) r

end

/-! ## States -/

/-- A umem and its socket: the four rings, the need-wakeup flag of the Tx ring, the addresses the
kernel took to receive into, and the Tx descriptors it took and has not completed, each with its
number in the order of submission. -/
structure Link where
  fq : RingBuf Nat
  cq : RingBuf Nat
  rx : RingBuf XdpDesc
  tx : RingBuf XdpDesc
  wake : Bool
  krx : List Nat
  ktx : List (Nat × XdpDesc)

/-- The Tx descriptors that are submitted and not completed, with their numbers. -/
def Link.inFlight (l : Link) : List (Nat × XdpDesc) :=
  l.ktx ++ (List.range l.tx.used).map fun i => (l.tx.cons + i, l.tx.entry (l.tx.cons + i))

/-- What happened on a link: the packets `try_send` popped, what the kernel read for each Tx
descriptor, the packets the kernel published for reception, and the packets `try_recv` pushed. -/
structure Hist where
  sent : List (Option (List UInt8))
  read : List (Nat × List UInt8)
  published : List (List UInt8)
  pushed : List (Option (List UInt8))

/-- The state of the data path. -/
structure Sys (ι ν δ T : Type) where
  area : MmapArea
  mem : Nat → UInt8
  link : ι → Link
  vecs : ν → Vec (BufMmap T)
  deques : δ → ArrayDeque (BufMmap T)
  hist : ι → Hist

/-- A collection of the application. -/
inductive Coll (ν δ : Type)
  | vec (v : ν)
  | deque (d : δ)
deriving DecidableEq

/-! ## Actions -/

/-- What the kernel does on a link. -/
inductive KAct
  /-- Take the oldest fill entry. -/
  | takeFill
  /-- Write a byte to the chunk of the `j`-th address it may receive into. -/
  | write (j off : Nat) (byte : UInt8)
  /-- Hand the `j`-th chunk it took back as a received packet at offset `o` of the chunk. -/
  | publish (j o len options : Nat)
  /-- Take the oldest Tx descriptor. -/
  | takeTx
  /-- Read the bytes of the `j`-th descriptor in flight. -/
  | readTx (j : Nat)
  /-- Complete the `j`-th descriptor it took. -/
  | complete (j : Nat)
  /-- Set or clear the need-wakeup flag of the Tx ring. -/
  | setWake (b : Bool)
deriving DecidableEq

/-- A step of the data path. -/
inductive Act (ι ν δ T : Type)
  | fill (i : ι) (v : ν) (batchSize : Nat) (granted : Bool)
  | tryRecv (i : ι) (d : δ) (batchSize : Nat) (user : T) (grant : Nat)
  | trySend (i : ι) (d : δ) (batchSize : Nat) (granted : Bool) (send : Sendto)
  | service (i : ι) (v : ν) (batchSize grant : Nat)
  /-- Move the `j`-th buffer of `c` to position `k` of `c'`; `spare` is how much further than
  needed a vector without spare capacity grows. -/
  | move (c : Coll ν δ) (j : Nat) (c' : Coll ν δ) (k spare : Nat)
  | setLen (c : Coll ν δ) (j : Nat) (len : UInt16)
  | setUser (c : Coll ν δ) (j : Nat) (user : T)
  /-- Store a byte through `get_data_mut`. -/
  | write (c : Coll ν δ) (j off : Nat) (byte : UInt8)
  | kernel (i : ι) (k : KAct)

/-- What a call returned, and the libbpf calls it made; nothing for other steps. -/
structure Out where
  ret : Nat
  trace : List Ffi

/-! ## Steps -/

/-- A kernel step on a link, if it is possible. -/
def kernelStep (bufLen : Nat) (mem : Nat → UInt8) (l : Link) (h : Hist) :
    KAct → Option ((Nat → UInt8) × Link × Hist)
  | .takeFill =>
    if 1 ≤ l.fq.used then
      some (mem, { l with fq := l.fq.release 1, krx := l.krx ++ [l.fq.entry l.fq.cons] }, h)
    else none
  | .write j off byte =>
    match (l.fq.entries ++ l.krx)[j]? with
    | some a =>
      if off < bufLen then some (Function.update mem (a / bufLen * bufLen + off) byte, l, h)
      else none
    | none => none
  | .publish j o len options =>
    match l.krx[j]? with
    | some a =>
      if o < bufLen ∧ o + len ≤ bufLen ∧ 1 ≤ l.rx.free then
        let addr := a / bufLen * bufLen + o
        some (mem, { l with krx := l.krx.eraseIdx j, rx := l.rx.push ⟨addr, len, options⟩ },
          { h with published := h.published ++ [readAt mem addr len] })
      else none
    | none => none
  | .takeTx =>
    if 1 ≤ l.tx.used then
      some (mem,
        { l with tx := l.tx.release 1, ktx := l.ktx ++ [(l.tx.cons, l.tx.entry l.tx.cons)] }, h)
    else none
  | .readTx j =>
    match l.inFlight[j]? with
    | some (c, d) => some (mem, l, { h with read := h.read ++ [(c, readAt mem d.addr d.len)] })
    | none => none
  | .complete j =>
    match l.ktx[j]? with
    | some (_, d) =>
      if 1 ≤ l.cq.free then
        some (mem, { l with ktx := l.ktx.eraseIdx j, cq := l.cq.push d.addr }, h)
      else none
    | none => none
  | .setWake b => some (mem, { l with wake := b }, h)

/-- A vector with `x` inserted at position `k`, as `push` and `insert` do. -/
def Vec.insertAt {α : Type} (v : Vec α) (k : Nat) (x : α) (spare : Nat) : Vec α :=
  ⟨v.list.take k ++ x :: v.list.drop k,
    if v.len < v.capacity then v.capacity else v.len + 1 + spare, by
      have hl : v.list.length = v.len := rfl
      simp only [List.length_append, List.length_take, List.length_cons, List.length_drop]
      split <;> omega⟩

/-- A deque with `x` inserted at position `k`, unless it is full. -/
def ArrayDeque.insertAt {α : Type} (d : ArrayDeque α) (k : Nat) (x : α) :
    Option (ArrayDeque α) :=
  if h : d.len < d.capacity then
    some ⟨d.list.take k ++ x :: d.list.drop k, d.capacity, by
      simp only [len] at h; simp; omega⟩
  else none

/-- A vector with its elements replaced by as many others, or fewer. -/
def Vec.withList {α : Type} (v : Vec α) (l : List α) : Vec α :=
  ⟨l.take v.capacity, v.capacity, by simp⟩

/-- A deque with its elements replaced by as many others, or fewer. -/
def ArrayDeque.withList {α : Type} (d : ArrayDeque α) (l : List α) : ArrayDeque α :=
  ⟨l.take d.capacity, d.capacity, by simp⟩

section
variable {ι ν δ T : Type} [DecidableEq ν] [DecidableEq δ]

namespace Sys

/-- The buffers of a collection. -/
def coll (s : Sys ι ν δ T) : Coll ν δ → List (BufMmap T)
  | .vec v => (s.vecs v).list
  | .deque d => (s.deques d).list

/-- Replace the buffers of a collection by as many others, or fewer. -/
def setColl (s : Sys ι ν δ T) (l : List (BufMmap T)) : Coll ν δ → Sys ι ν δ T
  | .vec v => { s with vecs := Function.update s.vecs v ((s.vecs v).withList l) }
  | .deque d => { s with deques := Function.update s.deques d ((s.deques d).withList l) }

/-- Insert a buffer into a collection; a full deque takes none. -/
def insert (s : Sys ι ν δ T) (k : Nat) (b : BufMmap T) (spare : Nat) :
    Coll ν δ → Option (Sys ι ν δ T)
  | .vec v => some { s with vecs := Function.update s.vecs v ((s.vecs v).insertAt k b spare) }
  | .deque d => ((s.deques d).insertAt k b).map fun d' =>
      { s with deques := Function.update s.deques d d' }

/-- Replace the `j`-th buffer of a collection by its image under a fallible update. -/
def modifyBuf (s : Sys ι ν δ T) (c : Coll ν δ) (j : Nat) (f : BufMmap T → Option (BufMmap T)) :
    Option (Sys ι ν δ T) :=
  match (s.coll c)[j]? with
  | none => none
  | some b => (f b).map fun b' => s.setColl ((s.coll c).set j b') c

end Sys

variable [DecidableEq ι] [Inhabited T]

/-- One step of the data path of a build. A call that panics, and a step that is not possible, have
no successor. -/
def stepIn (p : Profile) (s : Sys ι ν δ T) : Act ι ν δ T → Option (Sys ι ν δ T × Out)
  | .fill i v batchSize granted =>
    let l := s.link i
    match fill p (prodView l.fq granted false .sent) batchSize ⟨s.vecs v, []⟩ with
    | .ok (.ok n) c => some
      ({ s with
          vecs := Function.update s.vecs v c.bufs
          link := Function.update s.link i { l with fq := replay Ffi.onFill c.trace l.fq } },
        ⟨n, c.trace⟩)
    | _ => none
  | .tryRecv i d batchSize user grant =>
    let l := s.link i
    let h := s.hist i
    match tryRecv p s.area (consView l.rx grant) batchSize user ⟨s.deques d, []⟩ with
    | .ok (.ok n) c => some
      ({ s with
          deques := Function.update s.deques d c.bufs
          link := Function.update s.link i { l with rx := replay Ffi.onCons c.trace l.rx }
          -- the packets pushed are the last `n` of the deque
          hist := Function.update s.hist i { h with
            pushed := h.pushed ++
              (c.bufs.list.drop (c.bufs.len - n)).map (BufMmap.packet · s.mem) } },
        ⟨n, c.trace⟩)
    | _ => none
  | .trySend i d batchSize granted send =>
    let l := s.link i
    let h := s.hist i
    match trySend p (prodView l.tx granted l.wake send) batchSize ⟨s.deques d, []⟩ with
    | .ok (.ok n) c => some
      ({ s with
          deques := Function.update s.deques d c.bufs
          link := Function.update s.link i { l with tx := replay Ffi.onTx c.trace l.tx }
          -- the buffers popped are the first `n` of the deque
          hist := Function.update s.hist i { h with
            sent := h.sent ++ ((s.deques d).list.take n).map (BufMmap.packet · s.mem) } },
        ⟨n, c.trace⟩)
    | _ => none
  | .service i v batchSize grant =>
    let l := s.link i
    match service p s.area (consView l.cq grant) batchSize ⟨s.vecs v, []⟩ with
    | .ok (.ok n) c => some
      ({ s with
          vecs := Function.update s.vecs v c.bufs
          link := Function.update s.link i { l with cq := replay Ffi.onCons c.trace l.cq } },
        ⟨n, c.trace⟩)
    | _ => none
  | .move c j c' k spare =>
    match (s.coll c)[j]? with
    | none => none
    | some b => ((s.setColl ((s.coll c).eraseIdx j) c).insert k b spare c').map (·, ⟨0, []⟩)
  | .setLen c j len =>
    (s.modifyBuf c j fun b =>
      match BufMmap.setLen len b with
      | .ok _ b' => some b'
      | .error _ _ => none).map (·, ⟨0, []⟩)
  | .setUser c j user => (s.modifyBuf c j fun b => some { b with user }).map (·, ⟨0, []⟩)
  | .write c j off byte =>
    match (s.coll c)[j]? with
    | none => none
    | some b =>
      match b.writeData s.mem off byte with
      | .ok mem => some ({ s with mem }, ⟨0, []⟩)
      | .error _ => none
  | .kernel i k =>
    (kernelStep s.area.bufLen s.mem (s.link i) (s.hist i) k).map fun r =>
      ({ s with
          mem := r.1
          link := Function.update s.link i r.2.1
          hist := Function.update s.hist i r.2.2 }, ⟨0, []⟩)

/-- One step of the data path of a release build. -/
def step (s : Sys ι ν δ T) (a : Act ι ν δ T) : Option (Sys ι ν δ T × Out) := stepIn .release s a

@[simp] theorem stepIn_release (s : Sys ι ν δ T) (a : Act ι ν δ T) :
    stepIn .release s a = step s a := rfl

/-! ## Initial states -/

/-- A link whose rings were never used. The kernel hands out the Tx ring zeroed. -/
structure Link.Fresh (l : Link) : Prop where
  fq : l.fq.prod = 0
  cq : l.cq.prod = 0
  rx : l.rx.prod = 0
  tx : l.tx.prod = 0
  krx : l.krx = []
  ktx : l.ktx = []
  options : ∀ j, (l.tx.slot j).options = 0

/-- A state before the first step: the application holds the buffers of the vector `w` in its
vector `v₀`, and nothing else holds anything. -/
structure Sys.Start (s : Sys ι ν δ T) (area : MmapArea) (v₀ : ν) (w : Vec (BufMmap T)) : Prop where
  area : s.area = area
  vec : s.vecs v₀ = w
  vecs : ∀ v, v ≠ v₀ → (s.vecs v).list = []
  deques : ∀ d, (s.deques d).list = []
  link : ∀ i, (s.link i).Fresh
  hist : ∀ i, s.hist i = ⟨[], [], [], []⟩

/-- A link with rings of `2 ^ e` slots that were never used. -/
def Link.init (e : Fin 32) : Link :=
  ⟨.empty e 0, .empty e 0, .empty e ⟨0, 0, 0⟩, .empty e ⟨0, 0, 0⟩, false, [], []⟩

/-- A state before the first step, with a deque as the crate has it at every name. -/
def Sys.init (area : MmapArea) (v₀ : ν) (w : Vec (BufMmap T)) (e : Fin 32) : Sys ι ν δ T where
  area := area
  mem _ := 0
  link _ := .init e
  vecs v := if v = v₀ then w else .withCapacity 0
  deques _ := ⟨[], pendingLen, Nat.zero_le _⟩
  hist _ := ⟨[], [], [], []⟩

omit [DecidableEq δ] [DecidableEq ι] [Inhabited T] in
theorem Sys.init_start (area : MmapArea) (v₀ : ν) (w : Vec (BufMmap T)) (e : Fin 32) :
    (Sys.init area v₀ w e : Sys ι ν δ T).Start area v₀ w where
  area := rfl
  vec := if_pos rfl
  vecs v hv := by
    simp only [init, if_neg hv]
    rfl
  deques _ := rfl
  link _ := ⟨rfl, rfl, rfl, rfl, rfl, rfl, fun _ => rfl⟩
  hist _ := rfl

end

end Afxdp
