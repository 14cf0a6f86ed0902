import Mathlib.Data.List.Basic

/-!
# Bounded queues

What two threads rely on that share a bounded queue: a `push` is refused exactly if the queue is
full and otherwise goes to the end, and a `pop` takes the oldest element if there is one. A type of
queues is an instance of `Fifo`, and its operations are used through these laws only. `Bounded` is
the instance that keeps its elements in a list.
-/

namespace Afxdp.Queue

universe u v

/-- The queues of a type `Q` with elements `α`. -/
class Fifo (Q : Type u) (α : outParam (Type v)) where
  capacity : Q → Nat
  contents : Q → List α
  push : Q → α → Option Q
  pop : Q → Option (α × Q)
  length_le : ∀ q, (contents q).length ≤ capacity q
  push_none : ∀ {q x}, push q x = none → (contents q).length = capacity q
  push_some : ∀ {q x q'}, push q x = some q' →
    contents q' = contents q ++ [x] ∧ capacity q' = capacity q
  pop_none : ∀ {q}, pop q = none → contents q = []
  pop_some : ∀ {q x q'}, pop q = some (x, q') →
    contents q = x :: contents q' ∧ capacity q' = capacity q

section
variable {Q : Type u} {α : Type v} [Fifo Q α] {q q' : Q} {x : α}

open Fifo

/-- A `push` that may be refused, as a change of the queue. -/
def offer (q : Q) (x : α) : Q := (push q x).getD q

theorem offer_capacity (q : Q) (x : α) : capacity (offer q x) = capacity q := by
  rw [offer]
  cases hp : push q x with
  | none => rfl
  | some q' => exact (push_some hp).2

/-- It puts the element at the end, unless the queue is full. -/
theorem contents_offer (q : Q) (x : α) :
    contents (offer q x) = if (contents q).length < capacity q then contents q ++ [x]
      else contents q := by
  rw [offer]
  cases hp : push q x with
  | none => exact (if_neg (by rw [push_none hp]; exact Nat.lt_irrefl _)).symm
  | some q' =>
      obtain ⟨hc, hcap⟩ := push_some hp
      have hle := length_le q'
      rw [hc, hcap, List.length_append, List.length_singleton] at hle
      rw [if_pos (by omega)]
      exact hc

/-- What is in the queue afterwards was there or is the new element. -/
theorem mem_offer {y : α} (h : y ∈ contents (offer q x)) : y ∈ contents q ∨ y = x := by
  rw [contents_offer] at h
  split at h
  · rw [List.mem_append, List.mem_singleton] at h
    exact h
  · exact .inl h

end

/-- A list of bounded length as a queue. -/
structure Bounded (α : Type u) where
  capacity : Nat
  list : List α
  le : list.length ≤ capacity

namespace Bounded

variable {α : Type u}

/-- An empty queue. -/
def new (capacity : Nat) : Bounded α := ⟨capacity, [], Nat.zero_le _⟩

/-- Put an element at the end, if there is room. -/
def push (q : Bounded α) (x : α) : Option (Bounded α) :=
  if h : q.list.length < q.capacity then
    some ⟨q.capacity, q.list ++ [x], by rw [List.length_append]; exact h⟩
  else none

/-- Take the first element. -/
def pop (q : Bounded α) : Option (α × Bounded α) :=
  match h : q.list with
  | [] => none
  | x :: xs => some (x, ⟨q.capacity, xs, by
      have hle := q.le
      rw [h, List.length_cons] at hle
      omega⟩)

instance : Fifo (Bounded α) α where
  capacity := capacity
  contents := list
  push := push
  pop := pop
  length_le := le
  push_none := by
    intro q x h
    rw [push] at h
    split at h
    · cases h
    · next hlt =>
        have hle := q.le
        omega
  push_some := by
    intro q x q' h
    rw [push] at h
    split at h
    · cases h
      exact ⟨rfl, rfl⟩
    · cases h
  pop_none := by
    intro q h
    unfold pop at h
    split at h
    · assumption
    · cases h
  pop_some := by
    intro q x q' h
    unfold pop at h
    split at h
    · cases h
    · next hl =>
        cases h
        exact ⟨hl, rfl⟩

end Bounded

end Afxdp.Queue
