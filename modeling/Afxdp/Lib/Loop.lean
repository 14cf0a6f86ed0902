import Mathlib.Data.List.Basic

/-!
# Counted loops that can fail

`forRange body n x` is `for _ in 0..n` with one variable carried from iteration to iteration, in
a monad of failing stateful computations whose state survives a failure. A run is described by
the value `x j` the variable has and the state `S j` the loop is in before iteration `j`:
`forRange_ok` when every iteration succeeds, `forRange_error` when one of them fails.
-/

namespace Afxdp.Loop

universe u

variable {ε σ ι : Type u}

/-- Run `body` `n` times, passing the loop variable along. -/
def forRange (body : ι → EStateM ε σ ι) : Nat → ι → EStateM ε σ PUnit
  | 0, _ => pure ⟨⟩
  | n + 1, x => do
    let x ← body x
    forRange body n x

variable (body : ι → EStateM ε σ ι) (x : Nat → ι) (S : Nat → σ)

/-- One successful iteration comes off the front of a loop. -/
theorem forRange_succ {n : Nat} {i i' : ι} {s s' : σ} (h : body i s = .ok i' s') :
    forRange body (n + 1) i s = forRange body n i' s' := by
  simp only [forRange, bind, EStateM.bind, h]

/-- A loop whose iterations all succeed ends in the last state. -/
theorem forRange_ok {n : Nat} (h : ∀ j, j < n → body (x j) (S j) = .ok (x (j + 1)) (S (j + 1))) :
    forRange body n (x 0) (S 0) = .ok ⟨⟩ (S n) := by
  induction n generalizing x S with
  | zero => rfl
  | succ n ih =>
      rw [forRange_succ body (h 0 (by omega))]
      exact ih (fun j => x (j + 1)) (fun j => S (j + 1)) fun j hj => h (j + 1) (by omega)

/-- A loop fails where its first failing iteration does. -/
theorem forRange_error {n k : Nat} {e : ε} {s' : σ} (hk : k < n)
    (h : ∀ j, j < k → body (x j) (S j) = .ok (x (j + 1)) (S (j + 1)))
    (he : body (x k) (S k) = .error e s') : forRange body n (x 0) (S 0) = .error e s' := by
  induction k generalizing n x S with
  | zero =>
      obtain ⟨m, rfl⟩ := Nat.exists_eq_add_of_lt hk
      simp only [forRange, bind, EStateM.bind, he]
  | succ k ih =>
      obtain ⟨m, rfl⟩ := Nat.exists_eq_add_of_lt hk
      rw [show k + 1 + m + 1 = (k + m + 1) + 1 by omega, forRange_succ body (h 0 (by omega))]
      exact ih (fun j => x (j + 1)) (fun j => S (j + 1)) (by omega)
        (fun j hj => h (j + 1) (by omega)) he

end Afxdp.Loop
