import Mathlib.Data.Finset.Card
import Mathlib.Data.Finset.Max
import Mathlib.Data.Multiset.Replicate

/-!
# Reference-counted cells

A cell holds a reference to at most one other cell, its parent; the other references are held from
outside. A cell counts the references to it. Giving up the last one drops it, and then gives up the
reference that it holds, which may drop the parent (`Released`). `Counted` says what the counts
count and what was dropped so far; it is kept by making a cell, by copying a reference and by
giving one up, in whatever order. So no cell is dropped twice (`Counted.nodup`), a cell is dropped
after all its children (`Counted.order`), and once there is no reference from outside every cell
was dropped (`Counted.all_dropped`).
-/

namespace Afxdp.Refcount

universe u

variable {α : Type u} [DecidableEq α] (parent : α → Option α)

/-- Giving up a reference to a cell turns the counts `c` into `c'` and drops the cells `d`, in this
order. -/
inductive Released : (α → Nat) → α → (α → Nat) → List α → Prop
  /-- It was not the last one. -/
  | shared {c : α → Nat} {x : α} (h : c x ≠ 1) :
    Released c x (Function.update c x (c x - 1)) []
  /-- It was the last one of a cell without a parent. -/
  | root {c : α → Nat} {x : α} (h : c x = 1) (hp : parent x = none) :
    Released c x (Function.update c x 0) [x]
  /-- It was the last one: the cell gives up its reference to its parent. -/
  | last {c c' : α → Nat} {x p : α} {d : List α} (h : c x = 1) (hp : parent x = some p)
    (hr : Released (Function.update c x 0) p c' d) : Released c x c' (x :: d)

variable {parent} in
/-- The cell itself is dropped exactly if it was the last reference. -/
theorem Released.mem_iff {c c' : α → Nat} {x : α} {d : List α} (h : Released parent c x c' d) :
    x ∈ d ↔ c x = 1 := by
  cases h with
  | shared h => simp [h]
  | root h => simp [h]
  | last h => simp [h]

/-- The live cells that hold a reference to `x`. -/
def children (made : Finset α) (c : α → Nat) (x : α) : Finset α :=
  made.filter fun y => parent y = some x ∧ 0 < c y

/-- The counts `c` of the cells `made` count the references `refs` from outside and those of live
cells, and `log` lists the cells that were dropped. -/
structure Counted (made : Finset α) (c : α → Nat) (refs : Multiset α) (log : List α) :
    Prop where
  count : ∀ x, c x = refs.count x + (children parent made c x).card
  made_of_pos : ∀ x, 0 < c x → x ∈ made
  dropped : ∀ x, x ∈ log ↔ x ∈ made ∧ c x = 0
  nodup : log.Nodup
  order : ∀ pre x post, log = pre ++ x :: post → ∀ y ∈ made, parent y = some x → y ∈ pre

variable {parent} {made : Finset α} {c c' : α → Nat} {refs refs' : Multiset α} {log d : List α}
  {x y : α}

theorem mem_children : y ∈ children parent made c x ↔ y ∈ made ∧ parent y = some x ∧ 0 < c y :=
  Finset.mem_filter

/-- A cell that is referenced from outside is live. -/
theorem Counted.pos (h : Counted parent made c refs log) (hx : x ∈ refs) : 0 < c x := by
  have hc := h.count x
  have hpos := Multiset.count_pos.2 hx
  omega

/-- A live cell was not dropped. -/
theorem Counted.not_dropped (h : Counted parent made c refs log) (hx : x ∈ refs) : x ∉ log := by
  intro hmem
  have hpos := h.pos hx
  have hzero := ((h.dropped x).1 hmem).2
  omega

/-- Before the first cell is made. -/
theorem Counted.empty : Counted parent ∅ (fun _ => 0) 0 [] where
  count _ := rfl
  made_of_pos _ h := absurd h (Nat.lt_irrefl 0)
  dropped _ := by simp
  nodup := List.nodup_nil
  order := by simp

/-- References from outside come and go while every cell stays live or dead. -/
theorem Counted.congr (h : Counted parent made c refs log) (hpos : ∀ y, 0 < c' y ↔ 0 < c y)
    (hrefs : ∀ y, c' y + refs.count y = c y + refs'.count y) :
    Counted parent made c' refs' log := by
  have hchildren : ∀ y, children parent made c' y = children parent made c y := by
    intro y
    ext z
    rw [mem_children, mem_children, hpos z]
  refine ⟨?_, fun y hy => h.made_of_pos y ((hpos y).1 hy), ?_, h.nodup, h.order⟩
  · intro y
    have h1 := h.count y
    have h2 := hrefs y
    rw [hchildren]
    omega
  · intro y
    have hzero : c' y = 0 ↔ c y = 0 := by
      have := hpos y
      omega
    rw [hzero]
    exact h.dropped y

/-- A reference is copied. -/
theorem Counted.clone (h : Counted parent made c refs log) (hx : x ∈ refs) :
    Counted parent made (Function.update c x (c x + 1)) (x ::ₘ refs) log := by
  have hlive := h.pos hx
  refine h.congr ?_ ?_
  · intro y
    rcases eq_or_ne y x with rfl | hy
    · rw [Function.update_self]
      omega
    · rw [Function.update_of_ne hy]
  · intro y
    rcases eq_or_ne y x with rfl | hy
    · rw [Function.update_self, Multiset.count_cons_self]
      omega
    · rw [Function.update_of_ne hy, Multiset.count_cons_of_ne hy]

/-- A reference that is not the last one is given up. -/
theorem Counted.release_shared (h : Counted parent made c refs log) (hx : x ∈ refs)
    (hc : c x ≠ 1) : Counted parent made (Function.update c x (c x - 1)) (refs.erase x) log := by
  have hlive := h.pos hx
  have hcount := Multiset.count_pos.2 hx
  refine h.congr ?_ ?_
  · intro y
    rcases eq_or_ne y x with rfl | hy
    · rw [Function.update_self]
      omega
    · rw [Function.update_of_ne hy]
  · intro y
    rcases eq_or_ne y x with rfl | hy
    · rw [Function.update_self, Multiset.count_erase_self]
      omega
    · rw [Function.update_of_ne hy, Multiset.count_erase_of_ne hy]

/-- The last reference to a cell is given up: the cell is dropped, and the reference it holds to its
parent counts as one from outside from now on. -/
theorem Counted.release_last (h : Counted parent made c refs log) (hx : x ∈ refs) (hc : c x = 1)
    (hrefs : ∀ y, refs'.count y = (refs.erase x).count y + if parent x = some y then 1 else 0) :
    Counted parent made (Function.update c x 0) refs' (log ++ [x]) := by
  have hcount := Multiset.count_pos.2 hx
  have hmade : x ∈ made := h.made_of_pos x (by omega)
  -- nothing else refers to the cell
  have hone : refs.count x = 1 ∧ children parent made c x = ∅ := by
    have := h.count x
    rw [← Finset.card_eq_zero]
    omega
  have hself : parent x ≠ some x := by
    intro hp
    have hmem : x ∈ children parent made c x := mem_children.2 ⟨hmade, hp, by omega⟩
    rw [hone.2] at hmem
    exact Finset.notMem_empty x hmem
  have hdead : ∀ y ∈ made, parent y = some x → c y = 0 := by
    intro y hy hp
    by_contra hne
    have hmem : y ∈ children parent made c x := mem_children.2 ⟨hy, hp, Nat.pos_of_ne_zero hne⟩
    rw [hone.2] at hmem
    exact Finset.notMem_empty y hmem
  have hchildren : ∀ y, children parent made (Function.update c x 0) y =
      (children parent made c y).erase x := by
    intro y
    ext z
    rw [Finset.mem_erase, mem_children, mem_children]
    rcases eq_or_ne z x with rfl | hz
    · simp
    · simp [hz]
  refine ⟨?_, ?_, ?_, ?_, ?_⟩
  · intro y
    rw [hrefs y, hchildren]
    rcases eq_or_ne y x with rfl | hy
    · rw [Function.update_self, hone.2, if_neg hself, Multiset.count_erase_self]
      simp [hone.1]
    · rw [Function.update_of_ne hy, Multiset.count_erase_of_ne hy]
      have hcy := h.count y
      by_cases hp : parent x = some y
      · have hmem : x ∈ children parent made c y := mem_children.2 ⟨hmade, hp, by omega⟩
        have hcard := Finset.card_erase_add_one hmem
        rw [if_pos hp]
        omega
      · have hmem : x ∉ children parent made c y := fun hm => hp (mem_children.1 hm).2.1
        rw [if_neg hp, Finset.erase_eq_of_notMem hmem]
        omega
  · intro y hy
    by_cases hyx : y = x
    · exact hyx ▸ hmade
    · rw [Function.update_of_ne hyx] at hy
      exact h.made_of_pos y hy
  · intro y
    rw [List.mem_append, List.mem_singleton, h.dropped y]
    rcases eq_or_ne y x with rfl | hyx
    · simp [hmade]
    · simp [hyx]
  · rw [List.nodup_append]
    refine ⟨h.nodup, List.nodup_singleton x, ?_⟩
    intro z hz w hw hzw
    rw [hzw, List.mem_singleton.1 hw] at hz
    exact h.not_dropped hx hz
  · intro pre z post heq y hy hp
    rcases List.eq_nil_or_concat post with rfl | ⟨post, w, rfl⟩
    · -- the cell that is dropped now: its children are dead
      obtain ⟨rfl, hzx⟩ := List.append_inj' heq rfl
      obtain rfl : x = z := by simpa using hzx
      exact (h.dropped y).2 ⟨hy, hdead y hy hp⟩
    · rw [List.concat_eq_append, ← List.cons_append, ← List.append_assoc] at heq
      exact h.order pre z post (List.append_inj' heq rfl).1 y hy hp

/-- Giving up a reference, with all that this drops. -/
theorem Counted.released (h : Counted parent made c refs log) (hx : x ∈ refs)
    (hr : Released parent c x c' d) : Counted parent made c' (refs.erase x) (log ++ d) := by
  induction hr generalizing refs log with
  | shared hc =>
    rw [List.append_nil]
    exact h.release_shared hx hc
  | root hc hp =>
    refine h.release_last hx hc ?_
    intro y
    rw [hp, if_neg (Option.some_ne_none y).symm, Nat.add_zero]
  | @last c c' x p d hc hp hr ih =>
    have hlast : Counted parent made (Function.update c x 0) (p ::ₘ refs.erase x)
        (log ++ [x]) := by
      refine h.release_last hx hc ?_
      intro y
      rw [Multiset.count_cons, hp]
      simp only [Option.some.injEq, eq_comm]
    have hrest := ih hlast (Multiset.mem_cons_self p _)
    rwa [Multiset.erase_cons_head, List.append_assoc] at hrest

/-- A new cell is made, with `k` references from outside; the reference it holds was one from
outside. -/
theorem Counted.alloc (h : Counted parent made c refs log) (hy : y ∉ made) {k : Nat} (hk : 0 < k)
    (hp : ∀ x, parent y = some x → x ∈ refs)
    (hrefs : ∀ x, refs'.count x + (if parent y = some x then 1 else 0) =
      refs.count x + if x = y then k else 0) :
    Counted parent (insert y made) (Function.update c y k) refs' log := by
  have hzero : c y = 0 := by
    by_contra hne
    exact hy (h.made_of_pos y (Nat.pos_of_ne_zero hne))
  have hcy := h.count y
  have hself : parent y ≠ some y := by
    intro hps
    have := h.pos (hp y hps)
    omega
  have hchildren : ∀ x, children parent (insert y made) (Function.update c y k) x =
      if parent y = some x then insert y (children parent made c x)
      else children parent made c x := by
    intro x
    ext z
    rcases eq_or_ne z y with rfl | hz
    · split <;> simp [mem_children, *]
    · split <;> simp [mem_children, hz]
  have hfresh : ∀ x, y ∉ children parent made c x := fun x hm => hy (mem_children.1 hm).1
  refine ⟨?_, ?_, ?_, h.nodup, ?_⟩
  · intro x
    have hx := hrefs x
    have hcx := h.count x
    rw [hchildren]
    rcases eq_or_ne x y with rfl | hxy
    · rw [if_pos rfl, if_neg hself] at hx
      rw [Function.update_self, if_neg hself]
      omega
    · rw [if_neg hxy] at hx
      rw [Function.update_of_ne hxy]
      by_cases hps : parent y = some x
      · rw [if_pos hps] at hx
        rw [if_pos hps, Finset.card_insert_of_notMem (hfresh x)]
        omega
      · rw [if_neg hps] at hx
        rw [if_neg hps]
        omega
  · intro x hx
    by_cases hxy : x = y
    · exact hxy ▸ Finset.mem_insert_self y made
    · rw [Function.update_of_ne hxy] at hx
      exact Finset.mem_insert_of_mem (h.made_of_pos x hx)
  · intro x
    rw [h.dropped x]
    rcases eq_or_ne x y with rfl | hxy
    · simp [hy, Nat.ne_of_gt hk]
    · simp [hxy]
  · intro pre x post heq z hz hpz
    rcases Finset.mem_insert.1 hz with rfl | hz
    · -- the parent is live, so it was not dropped
      have hmem : x ∈ log := by simp [heq]
      exact absurd hmem (h.not_dropped (hp x hpz))
    · exact h.order pre x post heq z hz hpz

/-- Where no cell is its own ancestor and there is no reference from outside, every cell was
dropped. -/
theorem Counted.all_dropped (h : Counted parent made c 0 log) (rank : α → Nat)
    (hrank : ∀ x y, parent y = some x → rank x < rank y) (hx : x ∈ made) : x ∈ log := by
  rw [h.dropped x]
  refine ⟨hx, ?_⟩
  by_contra hne
  -- a live cell of the highest rank has no live child
  have hlive : (made.filter fun y => 0 < c y).Nonempty :=
    ⟨x, Finset.mem_filter.2 ⟨hx, Nat.pos_of_ne_zero hne⟩⟩
  obtain ⟨m, hm, hmax⟩ := Finset.exists_max_image _ rank hlive
  have hnone : children parent made c m = ∅ := by
    rw [Finset.eq_empty_iff_forall_notMem]
    intro y hy
    obtain ⟨hym, hp, hpos⟩ := mem_children.1 hy
    have hle := hmax y (Finset.mem_filter.2 ⟨hym, hpos⟩)
    have hlt := hrank m y hp
    omega
  have hcm := h.count m
  rw [hnone, Multiset.count_zero, Finset.card_empty] at hcm
  have hpos := (Finset.mem_filter.1 hm).2
  omega

end Afxdp.Refcount
