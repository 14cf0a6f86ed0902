import Mathlib.Data.Nat.ModEq
import Mathlib.Data.Set.Function

/-!
# Indices reduced to a table

A running index is reduced to a table of `n` slots. Taken modulo `n`, any `n` consecutive indices
meet every slot once (`bijOn_add_mod`). Masking with `n - 1` is as good exactly where it is the
same, for a power of two: a mask that leaves every slot number alone has no gap in its bits
(`isPowerOfTwo_of_and_pred`).
-/

namespace Afxdp.Mask

/-- A window of `n` consecutive indices meets every residue modulo `n` once. -/
theorem bijOn_add_mod {n : Nat} (s : Nat) :
    Set.BijOn (fun i => (s + i) % n) {i | i < n} {i | i < n} := by
  refine ⟨?_, ?_, ?_⟩
  · intro i hi
    exact Nat.mod_lt _ (Nat.zero_lt_of_lt hi)
  · intro i hi j hj hij
    have h : i ≡ j [MOD n] := Nat.ModEq.add_left_cancel' s hij
    exact Nat.ModEq.eq_of_lt_of_lt h hi hj
  · intro j hj
    have hn : 0 < n := Nat.zero_lt_of_lt hj
    have hs := Nat.mod_lt s hn
    refine ⟨(j + (n - s % n)) % n, Nat.mod_lt _ hn, ?_⟩
    calc (s + (j + (n - s % n)) % n) % n
        = (n * (s / n) + s % n + (j + (n - s % n))) % n := by
          rw [Nat.add_mod_mod, Nat.div_add_mod]
      _ = (j + n * (s / n + 1)) % n := by
          congr 1
          rw [Nat.mul_succ]
          omega
      _ = j := by rw [Nat.add_mul_mod_self_left, Nat.mod_eq_of_lt hj]

/-- If masking with `n - 1` leaves every number below `n` alone, `n` is a power of two. -/
theorem isPowerOfTwo_of_and_pred {n : Nat} (hn : n ≠ 0) (h : ∀ j, j < n → j &&& (n - 1) = j) :
    n.isPowerOfTwo := by
  rcases Nat.eq_zero_or_pos (n - 1) with h0 | hpos
  · exact ⟨0, by omega⟩
  · -- the number whose bits are all the ones below the top bit of `n - 1`
    have hlo : 2 ^ (n - 1).log2 ≤ n - 1 := Nat.log2_self_le (by omega)
    have hhi : n - 1 < 2 ^ ((n - 1).log2 + 1) := Nat.lt_log2_self
    have hlow := h (2 ^ (n - 1).log2 - 1) (by omega)
    rw [Nat.and_comm, Nat.and_two_pow_sub_one_eq_mod, Nat.mod_eq_sub_mod hlo] at hlow
    rw [Nat.pow_succ] at hhi
    rw [Nat.mod_eq_of_lt (by omega)] at hlow
    refine ⟨(n - 1).log2 + 1, ?_⟩
    rw [Nat.pow_succ]
    omega

end Afxdp.Mask
