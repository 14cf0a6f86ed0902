import Mathlib.Data.List.Basic
import Mathlib.Logic.Function.Basic

/-!
# Windows into a byte memory

A memory is a function from addresses to values, a window is a run of consecutive addresses.
`readAt` reads one. The frame rules say that a write outside a window does not change what is
read through it (`readAt_update`), and that two windows inside different cells of a grid of equal
cells do not meet (`Window.Inside.disjoint_grid`).
-/

namespace Afxdp.Mem

universe u

/-- The addresses `start, …, start + len - 1`. -/
structure Window where
  start : Nat
  len : Nat
deriving DecidableEq, Repr

namespace Window

/-- `a` is an address of the window. -/
def Has (w : Window) (a : Nat) : Prop := w.start ≤ a ∧ a < w.start + w.len

/-- The window lies in `[lo, hi)`. -/
def Inside (w : Window) (lo hi : Nat) : Prop := lo ≤ w.start ∧ w.start + w.len ≤ hi

/-- The two windows share no address. -/
def Disjoint (w v : Window) : Prop := ∀ a, w.Has a → ¬ v.Has a

instance (w : Window) (a : Nat) : Decidable (w.Has a) :=
  inferInstanceAs (Decidable (_ ∧ _))

instance (w : Window) (lo hi : Nat) : Decidable (w.Inside lo hi) :=
  inferInstanceAs (Decidable (_ ∧ _))

/-- Windows that do not reach each other are disjoint. -/
theorem disjoint_of_le {w v : Window} (h : w.start + w.len ≤ v.start) : w.Disjoint v :=
  fun _ hw hv => absurd (Nat.lt_of_lt_of_le hw.2 h) (Nat.not_lt_of_le hv.1)

theorem Disjoint.symm {w v : Window} (h : w.Disjoint v) : v.Disjoint w :=
  fun a hv hw => h a hw hv

/-- A window inside another one is disjoint from what the other one is disjoint from. -/
theorem Disjoint.mono_right {w v u : Window} (h : w.Disjoint v)
    (hu : u.Inside v.start (v.start + v.len)) : w.Disjoint u :=
  fun a hw ha => h a hw ⟨Nat.le_trans hu.1 ha.1, Nat.lt_of_lt_of_le ha.2 hu.2⟩

theorem Inside.mono {w : Window} {lo hi lo' hi' : Nat} (h : w.Inside lo hi) (hl : lo' ≤ lo)
    (hh : hi ≤ hi') : w.Inside lo' hi' :=
  ⟨Nat.le_trans hl h.1, Nat.le_trans h.2 hh⟩

/-- Windows in different cells of a grid of cells of `n` addresses are disjoint. -/
theorem Inside.disjoint_grid {w v : Window} {n j k : Nat} (hw : w.Inside (j * n) ((j + 1) * n))
    (hv : v.Inside (k * n) ((k + 1) * n)) (hjk : j ≠ k) : w.Disjoint v := by
  rintro a ⟨hw1, hw2⟩ ⟨hv1, hv2⟩
  rcases Nat.lt_or_gt_of_ne hjk with h | h
  · have : (j + 1) * n ≤ k * n := Nat.mul_le_mul_right n h
    have := hw.2; have := hv.1
    omega
  · have : (k + 1) * n ≤ j * n := Nat.mul_le_mul_right n h
    have := hw.1; have := hv.2
    omega

end Window

variable {β : Type u}

/-- The values at `n` consecutive addresses from `a` on. -/
def readAt (m : Nat → β) (a n : Nat) : List β := (List.range n).map fun i => m (a + i)

@[simp] theorem readAt_length (m : Nat → β) (a n : Nat) : (readAt m a n).length = n := by
  simp [readAt]

/-- Memories that agree on the window read the same. -/
theorem readAt_congr {m m' : Nat → β} {a n : Nat} (h : ∀ x, a ≤ x → x < a + n → m' x = m x) :
    readAt m' a n = readAt m a n := by
  refine List.map_congr_left fun i hi => h _ (by omega) ?_
  rw [List.mem_range] at hi
  omega

/-- A write outside the window is not read. -/
theorem readAt_update {m : Nat → β} {a n x : Nat} {v : β} (h : ¬ (Window.mk a n).Has x) :
    readAt (Function.update m x v) a n = readAt m a n := by
  refine readAt_congr fun y h1 h2 => Function.update_of_ne ?_ _ _
  rintro rfl
  exact h ⟨h1, h2⟩

/-- A write inside the window changes the one value that is read there. -/
theorem readAt_update_inside (m : Nat → β) (a n j : Nat) (v : β) :
    readAt (Function.update m (a + j) v) a n = (readAt m a n).set j v := by
  refine List.ext_getElem (by simp) ?_
  intro i h1 h2
  simp only [readAt, List.getElem_map, List.getElem_range, List.getElem_set,
    Function.update_apply, Nat.add_right_inj]
  exact if_congr eq_comm rfl rfl

/-- A shorter read at the same address is a prefix. -/
theorem readAt_take (m : Nat → β) (a : Nat) {k n : Nat} (h : k ≤ n) :
    (readAt m a n).take k = readAt m a k := by
  rw [readAt, readAt, ← List.map_take, List.take_range, Nat.min_eq_left h]

/-- Reading what follows the first `k` values. -/
theorem readAt_drop (m : Nat → β) (a k n : Nat) :
    (readAt m a n).drop k = readAt m (a + k) (n - k) := by
  refine List.ext_getElem (by simp) ?_
  intro i h1 h2
  simp [readAt, Nat.add_assoc]

/-- Reading two windows that follow each other. -/
theorem readAt_append (m : Nat → β) (a k n : Nat) :
    readAt m a (k + n) = readAt m a k ++ readAt m (a + k) n := by
  rw [← List.take_append_drop k (readAt m a (k + n)), readAt_take m a (Nat.le_add_right k n),
    readAt_drop, Nat.add_sub_cancel_left]

/-! ## Stores of several values -/

/-- The memory with the values `xs` at the addresses from `a` on. -/
def writeAt (m : Nat → β) (a : Nat) (xs : List β) : Nat → β := fun x =>
  if a ≤ x then (xs[x - a]?).getD (m x) else m x

/-- The values are stored one after the other. -/
theorem writeAt_cons (m : Nat → β) (a : Nat) (x : β) (xs : List β) :
    writeAt m a (x :: xs) = writeAt (Function.update m a x) (a + 1) xs := by
  funext y
  rcases Nat.lt_trichotomy y a with h | rfl | h
  · rw [writeAt, writeAt, if_neg (by omega), if_neg (by omega), Function.update_of_ne (by omega)]
  · rw [writeAt, writeAt, if_pos (Nat.le_refl _), if_neg (by omega), Function.update_self,
      Nat.sub_self, List.getElem?_cons_zero, Option.getD_some]
  · obtain ⟨d, rfl⟩ : ∃ d, y = a + 1 + d := ⟨y - (a + 1), by omega⟩
    rw [writeAt, writeAt, if_pos (by omega), if_pos (by omega), Function.update_of_ne (by omega),
      Nat.add_sub_cancel_left, Nat.add_assoc, Nat.add_sub_cancel_left, Nat.add_comm 1,
      List.getElem?_cons_succ]

/-- A store is not seen outside its window. -/
theorem writeAt_of_not_has {m : Nat → β} {a x : Nat} {xs : List β}
    (h : ¬ (Window.mk a xs.length).Has x) : writeAt m a xs x = m x := by
  rw [writeAt]
  split
  · next hle =>
      have hout : xs.length ≤ x - a := by
        by_contra hlt
        exact h ⟨hle, by show x < a + xs.length; omega⟩
      rw [List.getElem?_eq_none hout, Option.getD_none]
  · rfl

/-- What was stored is read back. -/
theorem readAt_writeAt_self {m : Nat → β} {a n : Nat} {xs : List β} (h : xs.length = n) :
    readAt (writeAt m a xs) a n = xs := by
  subst h
  refine List.ext_getElem (by simp) ?_
  intro i h1 h2
  simp [readAt, writeAt, List.getElem?_eq_getElem h2]

/-- A store outside a window is not read through it. -/
theorem readAt_writeAt_of_disjoint {m : Nat → β} {a b n : Nat} {xs : List β}
    (h : (Window.mk b n).Disjoint ⟨a, xs.length⟩) : readAt (writeAt m a xs) b n = readAt m b n :=
  readAt_congr fun x h1 h2 => writeAt_of_not_has (h x ⟨h1, h2⟩)

/-! ## Cells of a grid -/

/-- An offset inside a cell does not change the cell. -/
theorem cell_of_offset {n k o : Nat} (ho : o < n) : (k * n + o) / n = k := by
  rw [Nat.mul_comm, Nat.mul_add_div (by omega), Nat.div_eq_of_lt ho, Nat.add_zero]

theorem offset_of_cell {n k o : Nat} (ho : o < n) : (k * n + o) % n = o := by
  rw [Nat.mul_comm, Nat.mul_add_mod, Nat.mod_eq_of_lt ho]

end Afxdp.Mem
