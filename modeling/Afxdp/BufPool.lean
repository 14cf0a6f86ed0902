import Afxdp.Machine

/-!
# `BufPoolVec`

A pool of buffers over a `Vec`. `get` and `put` do the same between the pool and the caller's
vector, in the two directions: they take the last elements of the one, at most as many as asked
for, and append them to the other in the order they had (`moveTail`). So the opposite call with the
returned count puts the same block back (`moveTail_moveTail`), and calls that are bracketed in
this way cancel however they are nested (`brackets_cancel`).
-/

namespace Afxdp

variable {α : Type}

/-- `Vec::drain(start..)`: the elements from `start` on, and the vector without them. It panics
beyond the end. -/
def Vec.drain (v : Vec α) (start : Nat) : Except Panic (List α × Vec α) :=
  if start ≤ v.len then .ok (v.list.drop start, v.dropLast (v.len - start))
  else .error
    (.msg s!"range start index {start} out of range for slice of length {v.len}")

/-- `BufPoolVec`. -/
structure BufPoolVec (α : Type) where
  bufs : Vec α

namespace BufPoolVec

/-- `BufPoolVec::new`. -/
def new (capacity : Nat) : BufPoolVec α := ⟨Vec.withCapacity capacity⟩

/-- What `get` and `put` share: up to `num` elements from the end of `src` go to the end of `dst`,
and their number is returned. -/
def moveTail (p : Profile) (src dst : Vec α) (num : Nat) : Except Panic (Nat × Vec α × Vec α) := do
  let ready := min num src.len
  let start ← p.sub64 src.len ready
  let (tail, src) ← src.drain start
  return (ready, src, dst.pushAll tail)

/-- `BufPool::get`. -/
def get (p : Profile) (pool : BufPoolVec α) (bufs : Vec α) (num : Nat) :
    Except Panic (Nat × BufPoolVec α × Vec α) := do
  let (ready, rest, bufs) ← moveTail p pool.bufs bufs num
  return (ready, ⟨rest⟩, bufs)

/-- `BufPool::put`. -/
def put (p : Profile) (pool : BufPoolVec α) (bufs : Vec α) (num : Nat) :
    Except Panic (Nat × BufPoolVec α × Vec α) := do
  let (ready, rest, bufs) ← moveTail p bufs pool.bufs num
  return (ready, ⟨bufs⟩, rest)

/-- `BufPool::put_buf`. -/
def putBuf (pool : BufPoolVec α) (buf : α) : Nat × BufPoolVec α := (1, ⟨pool.bufs.push buf⟩)

/-- `BufPool::len`. -/
def len (pool : BufPoolVec α) : Nat := pool.bufs.len

/-- `BufPool::is_empty`. -/
def isEmpty (pool : BufPoolVec α) : Bool := pool.bufs.list.isEmpty

/-! ## What a call moves -/

/-- The last `n` elements of a vector. -/
def tail (v : Vec α) (n : Nat) : List α := v.list.drop (v.len - n)

theorem dropLast_append_tail (v : Vec α) (n : Nat) : (v.dropLast n).list ++ tail v n = v.list :=
  List.take_append_drop _ _

theorem tail_length {v : Vec α} {n : Nat} (h : n ≤ v.len) : (tail v n).length = n := by
  rw [tail, List.length_drop]
  exact Nat.sub_sub_self h

/-- Neither the subtraction nor the drain fails: the last `min num len` elements are moved. -/
theorem moveTail_eq (p : Profile) (src dst : Vec α) (num : Nat) :
    moveTail p src dst num = .ok (min num src.len, src.dropLast (min num src.len),
      dst.pushAll (tail src (min num src.len))) := by
  have hle : min num src.len ≤ src.len := Nat.min_le_right _ _
  have hdrain : src.drain (src.len - min num src.len) =
      .ok (tail src (min num src.len), src.dropLast (min num src.len)) := by
    rw [Vec.drain, if_pos (Nat.sub_le _ _), Nat.sub_sub_self hle, tail]
  simp only [moveTail, p.sub64_ok hle, hdrain, bind, Except.bind, pure, Except.pure]

theorem get_of {p : Profile} {pool : BufPoolVec α} {bufs rest bufs' : Vec α} {num r : Nat}
    (h : moveTail p pool.bufs bufs num = .ok (r, rest, bufs')) :
    pool.get p bufs num = .ok (r, ⟨rest⟩, bufs') := by
  simp only [get, h, bind, Except.bind, pure, Except.pure]

theorem put_of {p : Profile} {pool : BufPoolVec α} {bufs rest bufs' : Vec α} {num r : Nat}
    (h : moveTail p bufs pool.bufs num = .ok (r, rest, bufs')) :
    pool.put p bufs num = .ok (r, ⟨bufs'⟩, rest) := by
  simp only [put, h, bind, Except.bind, pure, Except.pure]

/-- Taking back as many elements as were moved restores both vectors. -/
theorem moveTail_moveTail (p : Profile) {src src' dst dst' src₀ dst₀ : Vec α} {num r : Nat}
    (h : moveTail p src dst num = .ok (r, src₀, dst₀)) (hsrc : src'.list = src₀.list)
    (hdst : dst'.list = dst₀.list) :
    ∃ dst₁ src₁, moveTail p dst' src' r = .ok (r, dst₁, src₁) ∧ src₁.list = src.list ∧
      dst₁.list = dst.list := by
  rw [moveTail_eq] at h
  cases h
  have hr : min num src.len ≤ src.len := Nat.min_le_right _ _
  have hlen : dst'.len = dst.len + min num src.len := by
    rw [Vec.len, hdst, Vec.pushAll_list, List.length_append, tail_length hr]
    rfl
  have hmin : min (min num src.len) dst'.len = min num src.len := Nat.min_eq_left (by omega)
  have hsub : dst'.len - min num src.len = dst.list.length := by
    rw [hlen, Nat.add_sub_cancel]
    rfl
  refine ⟨_, _, by rw [moveTail_eq, hmin], ?_, ?_⟩
  · rw [Vec.pushAll_list, tail, hsub, hdst, Vec.pushAll_list, List.drop_left, hsrc]
    exact dropLast_append_tail src _
  · show dst'.list.take (dst'.len - min num src.len) = dst.list
    rw [hsub, hdst, Vec.pushAll_list, List.take_left]

end BufPoolVec

/-! ## Bracketed calls -/

/-- A pool and the vector of its one caller. -/
structure PoolState (α : Type) where
  pool : BufPoolVec α
  bufs : Vec α

/-- The two calls that take a count. -/
inductive PoolOp
  | get
  | put
deriving DecidableEq, Repr

namespace PoolOp

/-- The opposite call. -/
def opposite : PoolOp → PoolOp
  | .get => .put
  | .put => .get

/-- Make the call. -/
def exec (p : Profile) (s : PoolState α) (num : Nat) :
    PoolOp → Except Panic (Nat × PoolState α)
  | .get => do
    let (r, pool, bufs) ← s.pool.get p s.bufs num
    return (r, ⟨pool, bufs⟩)
  | .put => do
    let (r, pool, bufs) ← s.pool.put p s.bufs num
    return (r, ⟨pool, bufs⟩)

variable {p : Profile} {s : PoolState α} {num r : Nat} {pool : BufPoolVec α} {bufs : Vec α}

theorem exec_get_of (h : s.pool.get p s.bufs num = .ok (r, pool, bufs)) :
    exec p s num .get = .ok (r, ⟨pool, bufs⟩) := by
  simp only [exec, h, bind, Except.bind, pure, Except.pure]

theorem exec_put_of (h : s.pool.put p s.bufs num = .ok (r, pool, bufs)) :
    exec p s num .put = .ok (r, ⟨pool, bufs⟩) := by
  simp only [exec, h, bind, Except.bind, pure, Except.pure]

end PoolOp

/-- The same elements in the same order in both places. -/
def PoolState.Same (s t : PoolState α) : Prop :=
  s.pool.bufs.list = t.pool.bufs.list ∧ s.bufs.list = t.bufs.list

theorem PoolState.Same.trans {s t u : PoolState α} (h : s.Same t) (h' : t.Same u) : s.Same u :=
  ⟨h.1.trans h'.1, h.2.trans h'.2⟩

/-- A well-bracketed sequence of calls: nothing, or an opening call that asks for `num`, the calls
inside, the closing call, and the calls after it. -/
inductive Brackets
  | done
  | enclose (op : PoolOp) (num : Nat) (inner rest : Brackets)
deriving DecidableEq, Repr

/-- Make the calls. A closing call is the opposite of its opening call and asks for what that one
returned; what both returned is recorded. -/
def Brackets.exec (p : Profile) : Brackets → PoolState α →
    Except Panic (List (Nat × Nat) × PoolState α)
  | .done, s => .ok ([], s)
  | .enclose op num inner rest, s => do
    let (r, s) ← op.exec p s num
    let (inside, s) ← inner.exec p s
    let (r', s) ← op.opposite.exec p s r
    let (behind, s) ← rest.exec p s
    return ((r, r') :: inside ++ behind, s)

/-- An opening call returns, and its closing call then undoes it, also on other vectors with the
same elements. -/
theorem PoolOp.exec_opposite (p : Profile) (op : PoolOp) (s : PoolState α) (num : Nat) :
    ∃ r s₁, op.exec p s num = .ok (r, s₁) ∧ ∀ s₂ : PoolState α, s₂.Same s₁ →
      ∃ s₃, op.opposite.exec p s₂ r = .ok (r, s₃) ∧ s₃.Same s := by
  cases op with
  | get =>
    have h := BufPoolVec.moveTail_eq p s.pool.bufs s.bufs num
    refine ⟨_, ⟨⟨_⟩, _⟩, exec_get_of (BufPoolVec.get_of h), ?_⟩
    intro s₂ hs
    obtain ⟨dst, src, hback, hsrc, hdst⟩ := BufPoolVec.moveTail_moveTail p h hs.1 hs.2
    exact ⟨⟨⟨src⟩, dst⟩, exec_put_of (BufPoolVec.put_of hback), hsrc, hdst⟩
  | put =>
    have h := BufPoolVec.moveTail_eq p s.bufs s.pool.bufs num
    refine ⟨_, ⟨⟨_⟩, _⟩, exec_put_of (BufPoolVec.put_of h), ?_⟩
    intro s₂ hs
    obtain ⟨dst, src, hback, hsrc, hdst⟩ := BufPoolVec.moveTail_moveTail p h hs.2 hs.1
    exact ⟨⟨⟨dst⟩, src⟩, exec_get_of (BufPoolVec.get_of hback), hdst, hsrc⟩

/-- Bracketed calls cancel: none panics, every closing call returns what its opening call returned,
and at the end the pool and the vector hold what they held at the start, in the same order. -/
theorem brackets_cancel (p : Profile) (calls : Brackets) (s : PoolState α) :
    ∃ rs s', calls.exec p s = .ok (rs, s') ∧ (∀ r ∈ rs, r.2 = r.1) ∧
      s'.pool.bufs.list = s.pool.bufs.list ∧ s'.bufs.list = s.bufs.list := by
  induction calls generalizing s with
  | done => exact ⟨[], s, rfl, fun r hr => absurd hr List.not_mem_nil, rfl, rfl⟩
  | enclose op num inner rest ihInner ihRest =>
      obtain ⟨r, s₁, hopen, hclose⟩ := op.exec_opposite p s num
      obtain ⟨inside, s₂, hinner, hin, hsame⟩ := ihInner s₁
      obtain ⟨s₃, hback, hs₃⟩ := hclose s₂ hsame
      obtain ⟨behind, s₄, hrest, hbehind, hs₄⟩ := ihRest s₃
      refine ⟨(r, r) :: inside ++ behind, s₄, ?_, ?_, PoolState.Same.trans hs₄ hs₃⟩
      · simp only [Brackets.exec, hopen, hinner, hback, hrest, bind, Except.bind, pure,
          Except.pure]
      · intro q hq
        rcases List.mem_append.1 hq with hq | hq
        · rcases List.mem_cons.1 hq with rfl | hq
          · rfl
          · exact hin q hq
        · exact hbehind q hq

end Afxdp
