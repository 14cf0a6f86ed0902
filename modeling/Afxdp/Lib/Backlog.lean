import Mathlib.Order.Basic

/-!
# A backlog in front of a buffer that takes all or nothing

A producer with a backlog offers a batch, as large as its backlog and a limit allow, to a buffer of
`size` places, which takes the whole offer or nothing of it, and a consumer drains the buffer
(`round`). An offer that fits the empty buffer is taken once the buffer is drained far enough, and
the offers get no larger, so with a consumer that keeps draining the backlog is empty after
finitely many rounds (`exists_waiting_zero`). An offer that does not fit the empty buffer is never
taken, and does not change (`waiting_eq`). Hence the backlog is cleared exactly if the first offer
fits (`cleared_iff`).
-/

namespace Afxdp.Backlog

/-- How much waits to be offered, and how much is in the buffer. -/
structure State where
  waiting : Nat
  used : Nat

variable (size batch : Nat)

/-- How much is offered. -/
def State.request (b : State) : Nat := min b.waiting batch

/-- An offer is taken if there is room for all of it. -/
def State.offer (b : State) : State :=
  if b.used + b.request batch ≤ size then
    ⟨b.waiting - b.request batch, b.used + b.request batch⟩
  else b

/-- The consumer takes `n` out, or what there is. -/
def State.drain (n : Nat) (b : State) : State := ⟨b.waiting, b.used - n⟩

/-- One offer, and then the consumer drains. -/
def State.round (n : Nat) (b : State) : State := (b.offer size batch).drain n

/-- The consumer drains something again and again. -/
def KeepsDraining (drains : Nat → Nat) : Prop := ∀ k, ∃ m, k ≤ m ∧ 1 ≤ drains m

/-- A sequence of backlogs, round after round. -/
def Rounds (drains : Nat → Nat) (s : Nat → State) : Prop :=
  ∀ k, s (k + 1) = (s k).round size batch (drains k)

variable {size batch : Nat} {b : State} {n : Nat} {drains : Nat → Nat} {s : Nat → State}

theorem offer_of_le (h : b.used + b.request batch ≤ size) : b.offer size batch =
    ⟨b.waiting - b.request batch, b.used + b.request batch⟩ :=
  if_pos h

theorem offer_of_lt (h : size < b.used + b.request batch) : b.offer size batch = b :=
  if_neg (Nat.not_le_of_lt h)

/-- A round adds nothing to the backlog. -/
theorem round_waiting_le : (b.round size batch n).waiting ≤ b.waiting := by
  rw [State.round, State.offer]
  split
  · exact Nat.sub_le _ _
  · exact Nat.le_refl _

/-- So the offers get no larger. -/
theorem round_request_le : (b.round size batch n).request batch ≤ b.request batch := by
  have h : (b.round size batch n).waiting ≤ b.waiting := round_waiting_le
  rw [State.request, State.request]
  omega

/-- What decreases: a place in the backlog counts twice, a place in the buffer once. -/
def potential (b : State) : Nat := 2 * b.waiting + b.used

theorem round_potential_le : potential (b.round size batch n) ≤ potential b := by
  have h : b.request batch ≤ b.waiting := Nat.min_le_left _ _
  rw [State.round, State.offer]
  split <;> simp only [potential, State.drain] <;> omega

/-- A round in which the consumer drains something makes progress, if the offer fits the empty
buffer: either the offer is taken, or there is something to drain. -/
theorem round_potential_lt (hbatch : 1 ≤ batch) (hfit : b.request batch ≤ size)
    (hwait : b.waiting ≠ 0) (hn : 1 ≤ n) : potential (b.round size batch n) < potential b := by
  have hle : b.request batch ≤ b.waiting := Nat.min_le_left _ _
  have hpos : 1 ≤ b.request batch := by
    rw [State.request]
    omega
  rw [State.round, State.offer]
  split
  · simp only [potential, State.drain]
    omega
  · next hfull =>
      have hused : 1 ≤ b.used := by omega
      simp only [potential, State.drain]
      omega

/-- Over the rounds the offers keep fitting. -/
theorem Rounds.request_le (h : Rounds size batch drains s) (k : Nat) :
    (s k).request batch ≤ (s 0).request batch := by
  induction k with
  | zero => exact Nat.le_refl _
  | succ k ih =>
      rw [h k]
      exact Nat.le_trans round_request_le ih

theorem Rounds.potential_le (h : Rounds size batch drains s) (k d : Nat) :
    potential (s (k + d)) ≤ potential (s k) := by
  induction d with
  | zero => exact Nat.le_refl _
  | succ d ih =>
      rw [← Nat.add_assoc, h (k + d)]
      exact Nat.le_trans round_potential_le ih

/-- With a consumer that keeps draining, a backlog whose first offer fits the empty buffer is
cleared. -/
theorem exists_waiting_zero (h : Rounds size batch drains s) (hbatch : 1 ≤ batch)
    (hfit : (s 0).request batch ≤ size) (hdrain : KeepsDraining drains) :
    ∃ k, (s k).waiting = 0 := by
  -- from every round on, by induction on what is left
  suffices ∀ p k, potential (s k) = p → ∃ j, (s j).waiting = 0 from this _ 0 rfl
  intro p
  induction p using Nat.strongRecOn with
  | ind p ih =>
      intro k hp
      obtain ⟨m, hm, hn⟩ := hdrain k
      obtain ⟨d, rfl⟩ := Nat.exists_eq_add_of_le hm
      rcases eq_or_ne (s (k + d)).waiting 0 with hzero | hwait
      · exact ⟨_, hzero⟩
      · have hle := h.potential_le k d
        have hlt := round_potential_lt hbatch (Nat.le_trans (h.request_le (k + d)) hfit) hwait hn
        rw [← h (k + d)] at hlt
        exact ih (potential (s (k + d + 1))) (by omega) _ rfl

/-- An offer that does not fit the empty buffer is never taken. -/
theorem waiting_eq (h : Rounds size batch drains s) (hbig : size < (s 0).request batch) (k : Nat) :
    (s k).waiting = (s 0).waiting := by
  induction k with
  | zero => rfl
  | succ k ih =>
      have hreq : (s k).request batch = (s 0).request batch := by
        rw [State.request, ih, ← State.request]
      rw [h k, State.round, offer_of_lt (by omega)]
      exact ih

/-- With a consumer that keeps draining a backlog is cleared exactly if the first offer fits the
empty buffer. -/
theorem cleared_iff (h : Rounds size batch drains s) (hbatch : 1 ≤ batch)
    (hwait : (s 0).waiting ≠ 0) (hdrain : KeepsDraining drains) :
    (∃ k, (s k).waiting = 0) ↔ (s 0).request batch ≤ size := by
  constructor
  · rintro ⟨k, hk⟩
    by_contra hbig
    rw [waiting_eq h (Nat.lt_of_not_le hbig) k] at hk
    exact hwait hk
  · intro hfit
    exact exists_waiting_zero h hbatch hfit hdrain

end Afxdp.Backlog
