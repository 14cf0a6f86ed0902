import Mathlib.Data.List.GetD
import Mathlib.Data.Int.ModEq
import Mathlib.Logic.Function.Basic

/-!
# Single-producer single-consumer rings with free-running cursors

A ring of `2 ^ e` slots shared by one producer and one consumer. Both sides publish a 32-bit
cursor that is never reduced to the ring size and wraps at `2 ^ 32`; the slot of an index is
found by masking. The state keeps the number of entries each side has published since the ring
was made (`prod`, `cons`), and a cursor is such a count modulo `2 ^ 32` (`cursor`). Because the
ring size divides `2 ^ 32`, masking a cursor finds the slot of its count (`RingBuf.get_cursor`), so
the published contents (`RingBuf.entries`) behave as a queue: a batch that the producer writes to
the next slots and publishes is appended (`RingBuf.publish_entries`), and the consumer's release
drops a prefix (`RingBuf.release_entries`).
-/

namespace Afxdp.Spsc

universe u

/-- A shared ring. `prod` and `cons` count the entries published and consumed since the ring was
made; `slot` is the shared array. -/
structure RingBuf (δ : Type u) where
  /-- The number of slots. -/
  size : Nat
  /-- Entries the producer has published. -/
  prod : Nat
  /-- Entries the consumer has given back. -/
  cons : Nat
  /-- The shared array; only the indices below `size` are used. -/
  slot : Nat → δ
  size_pow : ∃ e, e < 32 ∧ size = 2 ^ e
  cons_le : cons ≤ prod
  prod_le : prod ≤ cons + size

/-- A ring of `2 ^ e` slots that was never used. -/
def RingBuf.empty {δ : Type u} (e : Fin 32) (x : δ) : RingBuf δ :=
  ⟨2 ^ e.val, 0, 0, fun _ => x, ⟨e, e.isLt, rfl⟩, Nat.le_refl 0, Nat.zero_le _⟩

/-- The 32-bit cursor a side publishes when its count is `n`. -/
def cursor (n : Nat) : UInt32 := UInt32.ofNat n

/-- Advancing a cursor by one is advancing its count by one, across the wrap too. -/
theorem cursor_succ (n : Nat) : cursor n + 1 = cursor (n + 1) :=
  (UInt32.ofNat_add n 1).symm

theorem cursor_toNat (n : Nat) : (cursor n).toNat = n % 2 ^ 32 := UInt32.toNat_ofNat'

/-- Below the wrap a cursor advances as a number. -/
theorem cursor_add_toNat {c j : Nat} (h : (cursor c).toNat + j < 2 ^ 32) :
    (cursor (c + j)).toNat = (cursor c).toNat + j := by
  rw [cursor_toNat] at h ⊢
  rw [cursor_toNat, Nat.add_mod]
  omega

namespace RingBuf

variable {δ : Type u} (r : RingBuf δ)

/-- The slot of a cursor value. -/
def mask (idx : UInt32) : Nat := idx.toNat &&& (r.size - 1)

/-- The element in the slot of a cursor value. -/
def get (idx : UInt32) : δ := r.slot (r.mask idx)

/-- The element in the slot of the `c`-th entry ever published. -/
def entry (c : Nat) : δ := r.slot (c % r.size)

/-- Published entries that are not consumed. -/
def used : Nat := r.prod - r.cons

/-- Slots the producer may write. -/
def free : Nat := r.cons + r.size - r.prod

/-- The published contents, oldest first. -/
def entries : List δ := (List.range r.used).map fun i => r.entry (r.cons + i)

/-- Write to the slot of `idx`. -/
def modify (idx : UInt32) (f : δ → δ) : RingBuf δ :=
  { r with slot := Function.update r.slot (r.mask idx) (f (r.get idx)) }

/-- The producer publishes `n` more entries. A count that would overtake the consumer is cut off,
so that every state is a ring; no lawful producer reaches the cut. -/
def submit (n : Nat) : RingBuf δ :=
  { r with
    prod := min (r.cons + r.size) (r.prod + n)
    cons_le := by have := r.cons_le; omega
    prod_le := Nat.min_le_left _ _ }

/-- The consumer gives `n` entries back, cut off at what is published. -/
def release (n : Nat) : RingBuf δ :=
  { r with
    cons := min r.prod (r.cons + n)
    cons_le := Nat.min_le_left _ _
    prod_le := by have := r.prod_le; omega }


/-! ## Indices -/

theorem size_dvd : r.size ∣ 2 ^ 32 := by
  obtain ⟨e, hlt, he⟩ := r.size_pow
  rw [he]; exact Nat.pow_dvd_pow 2 (Nat.le_of_lt hlt)

/-- Masking with `size - 1` reduces modulo the size. -/
theorem mask_eq (idx : UInt32) : r.mask idx = idx.toNat % r.size := by
  obtain ⟨e, -, he⟩ := r.size_pow
  rw [mask, he, Nat.and_two_pow_sub_one_eq_mod]

/-- The slot of a count's cursor is the slot of the count: the cursor's wrap is a multiple of the
size. -/
theorem mask_cursor (c : Nat) : r.mask (cursor c) = c % r.size := by
  rw [mask_eq, cursor_toNat, Nat.mod_mod_of_dvd _ r.size_dvd]

@[simp] theorem get_cursor (c : Nat) : r.get (cursor c) = r.entry c := by
  rw [get, mask_cursor, entry]

/-- Two counts less than a ring apart have different slots. -/
theorem mod_ne_mod {a b : Nat} (hab : a < b) (h : b < a + r.size) : a % r.size ≠ b % r.size := by
  intro he
  have hd : r.size ∣ b - a := (Nat.modEq_iff_dvd' (Nat.le_of_lt hab)).1 he
  have := Nat.le_of_dvd (by omega) hd
  omega

/-! ## Fields after an update -/

@[simp] theorem modify_prod (idx f) : (r.modify idx f).prod = r.prod := rfl
@[simp] theorem modify_cons (idx f) : (r.modify idx f).cons = r.cons := rfl
@[simp] theorem modify_size (idx f) : (r.modify idx f).size = r.size := rfl
@[simp] theorem submit_cons (n) : (r.submit n).cons = r.cons := rfl
@[simp] theorem submit_size (n) : (r.submit n).size = r.size := rfl
@[simp] theorem submit_entry (n c) : (r.submit n).entry c = r.entry c := rfl
@[simp] theorem release_prod (n) : (r.release n).prod = r.prod := rfl
@[simp] theorem release_entry (n c) : (r.release n).entry c = r.entry c := rfl

/-- Rings with the same counts and the same array are the same. -/
theorem ext {r r' : RingBuf δ} (hs : r.size = r'.size) (hp : r.prod = r'.prod)
    (hc : r.cons = r'.cons) (hl : r.slot = r'.slot) : r = r' := by
  obtain ⟨_, _, _, _, _, _, _⟩ := r
  obtain ⟨_, _, _, _, _, _, _⟩ := r'
  cases hs; cases hp; cases hc; cases hl; rfl

@[simp] theorem submit_zero : r.submit 0 = r :=
  ext rfl (Nat.min_eq_right r.prod_le) rfl rfl

@[simp] theorem release_zero : r.release 0 = r :=
  ext rfl rfl (Nat.min_eq_right r.cons_le) rfl

theorem submit_prod {n : Nat} (h : n ≤ r.free) : (r.submit n).prod = r.prod + n := by
  have := r.prod_le
  simp only [submit, free] at *; omega

theorem release_cons {n : Nat} (h : n ≤ r.used) : (r.release n).cons = r.cons + n := by
  have := r.cons_le
  simp only [release, used] at *; omega

theorem used_add_free : r.used + r.free = r.size := by
  have := r.cons_le; have := r.prod_le
  simp only [used, free]; omega

theorem size_le : r.size ≤ 2 ^ 31 := by
  obtain ⟨e, hlt, he⟩ := r.size_pow
  rw [he]
  exact Nat.pow_le_pow_right (by decide) (by omega)

theorem size_pos : 1 ≤ r.size := by
  obtain ⟨e, -, he⟩ := r.size_pow
  rw [he]
  exact Nat.one_le_two_pow

theorem release_used (n : Nat) : (r.release n).used = r.used - n := by
  have := r.cons_le
  simp only [used, release]
  omega

/-- What is given back is free again. -/
theorem release_free {n : Nat} (h : n ≤ r.used) : (r.release n).free = r.free + n := by
  have hused := (r.release n).used_add_free
  have hsize : (r.release n).size = r.size := rfl
  rw [release_used, hsize, ← used_add_free] at hused
  omega

/-! ## Contents -/

@[simp] theorem entries_length : r.entries.length = r.used := by simp [entries]

theorem mem_entries {x : δ} :
    x ∈ r.entries ↔ ∃ c, r.cons ≤ c ∧ c < r.prod ∧ r.entry c = x := by
  simp only [entries, List.mem_map, List.mem_range, used]
  constructor
  · rintro ⟨i, hi, rfl⟩
    exact ⟨r.cons + i, by omega, by omega, rfl⟩
  · rintro ⟨c, h1, h2, rfl⟩
    exact ⟨c - r.cons, by omega, by rw [Nat.add_sub_cancel' h1]⟩

/-- A ring that was never used has no contents. -/
theorem entries_eq_nil (h : r.prod = 0) : r.entries = [] := by
  rw [entries, used, h, Nat.zero_sub]
  rfl

/-- Rings with the same counts and the same published entries have the same contents. -/
theorem entries_congr {r r' : RingBuf δ} (hp : r'.prod = r.prod) (hc : r'.cons = r.cons)
    (he : ∀ c, r.cons ≤ c → c < r.prod → r'.entry c = r.entry c) : r'.entries = r.entries := by
  have hu : r'.used = r.used := by rw [used, used, hp, hc]
  rw [entries, entries, hu, hc]
  refine List.map_congr_left fun i hi => he _ (by omega) ?_
  rw [List.mem_range, used] at hi
  omega

/-- The oldest `n` entries, slot by slot. -/
theorem take_entries {n : Nat} (h : n ≤ r.used) :
    r.entries.take n = (List.range n).map fun i => r.entry (r.cons + i) := by
  rw [entries, ← List.map_take, List.take_range, Nat.min_eq_left h]

/-- A release drops a prefix of the contents. -/
theorem release_entries {n : Nat} (h : n ≤ r.used) :
    (r.release n).entries = r.entries.drop n := by
  have hu : (r.release n).used = r.used - n := by
    rw [used, release_cons _ h, release_prod, used]; omega
  refine List.ext_getElem (by simp [hu]) ?_
  intro i h1 h2
  simp only [entries, List.getElem_map, List.getElem_range, List.getElem_drop, release_entry,
    release_cons _ h, Nat.add_assoc]

/-- A submission appends the slots it publishes. -/
theorem submit_entries {n : Nat} (h : n ≤ r.free) :
    (r.submit n).entries = r.entries ++ (List.range n).map fun i => r.entry (r.prod + i) := by
  have hu : (r.submit n).used = r.used + n := by
    have := r.cons_le
    rw [used, submit_prod _ h, submit_cons, used]; omega
  have hp : r.cons + r.used = r.prod := by have := r.cons_le; rw [used]; omega
  simp only [entries, hu, submit_cons, submit_entry, List.range_add, List.map_append, List.map_map,
    Function.comp_def]
  refine congrArg₂ _ rfl (List.map_congr_left ?_)
  intro i _
  rw [← hp, Nat.add_assoc]

/-- A write to the slot of one count leaves the entries less than a ring away alone. -/
theorem modify_entry_of_ne {f : δ → δ} {c d : Nat} (hne : c ≠ d) (h1 : c < d + r.size)
    (h2 : d < c + r.size) : (r.modify (cursor d) f).entry c = r.entry c := by
  have hm : c % r.size ≠ d % r.size := by
    rcases Nat.lt_or_gt_of_ne hne with h | h
    · exact r.mod_ne_mod h h2
    · exact (r.mod_ne_mod h h1).symm
  simp only [modify, entry, mask_cursor, Function.update_apply, if_neg hm]

/-- A write to the slot of a count is seen at that count. -/
@[simp] theorem modify_entry_self (f : δ → δ) (d : Nat) :
    (r.modify (cursor d) f).entry d = f (r.entry d) := by
  simp [modify, entry, mask_cursor, get]

/-! ## Batches of writes -/

/-- The writes `fs` to the consecutive slots from the count `c` on. -/
def modifyFrom (r : RingBuf δ) (c : Nat) : List (δ → δ) → RingBuf δ
  | [] => r
  | f :: fs => (r.modify (cursor c) f).modifyFrom (c + 1) fs

@[simp] theorem modifyFrom_prod (r : RingBuf δ) (c : Nat) (fs : List (δ → δ)) :
    (r.modifyFrom c fs).prod = r.prod := by
  induction fs generalizing r c with
  | nil => rfl
  | cons f fs ih => rw [modifyFrom, ih, modify_prod]

@[simp] theorem modifyFrom_cons (r : RingBuf δ) (c : Nat) (fs : List (δ → δ)) :
    (r.modifyFrom c fs).cons = r.cons := by
  induction fs generalizing r c with
  | nil => rfl
  | cons f fs ih => rw [modifyFrom, ih, modify_cons]

@[simp] theorem modifyFrom_size (r : RingBuf δ) (c : Nat) (fs : List (δ → δ)) :
    (r.modifyFrom c fs).size = r.size := by
  induction fs generalizing r c with
  | nil => rfl
  | cons f fs ih => rw [modifyFrom, ih, modify_size]

@[simp] theorem modifyFrom_free (r : RingBuf δ) (c : Nat) (fs : List (δ → δ)) :
    (r.modifyFrom c fs).free = r.free := by simp [free]

/-- The last write of a batch goes to the slot after the others. -/
theorem modifyFrom_concat (r : RingBuf δ) (c : Nat) (fs : List (δ → δ)) (f : δ → δ) :
    r.modifyFrom c (fs ++ [f]) = (r.modifyFrom c fs).modify (cursor (c + fs.length)) f := by
  induction fs generalizing r c with
  | nil => rfl
  | cons g fs ih =>
      rw [List.cons_append, modifyFrom, ih, modifyFrom, List.length_cons]
      congr 2
      omega

/-- A batch of writes leaves an entry it does not reach alone. -/
theorem modifyFrom_entry_of_lt (r : RingBuf δ) {c d : Nat} (fs : List (δ → δ)) (h1 : d < c)
    (h2 : c + fs.length ≤ d + r.size) : (r.modifyFrom c fs).entry d = r.entry d := by
  induction fs generalizing r c with
  | nil => rfl
  | cons f fs ih =>
      rw [List.length_cons] at h2
      rw [modifyFrom, ih _ (by omega) (by simp only [modify_size]; omega),
        modify_entry_of_ne _ (by omega) (by omega) (by omega)]

/-- The `i`-th write of a batch no longer than the ring applies to the slot as it was. -/
theorem modifyFrom_entry (r : RingBuf δ) {c i : Nat} (fs : List (δ → δ)) (hi : i < fs.length)
    (h : fs.length ≤ r.size) : (r.modifyFrom c fs).entry (c + i) = fs[i] (r.entry (c + i)) := by
  induction fs generalizing r c i with
  | nil => simp at hi
  | cons f fs ih =>
      simp only [List.length_cons] at h hi
      cases i with
      | zero =>
          rw [modifyFrom, Nat.add_zero, modifyFrom_entry_of_lt _ _ (by omega)
            (by simp only [modify_size]; omega)]
          exact r.modify_entry_self f c
      | succ i =>
          have hs : c + (i + 1) = c + 1 + i := by omega
          rw [modifyFrom, hs, ih _ (by omega) (by simp only [modify_size]; omega),
            modify_entry_of_ne _ (by omega) (by omega) (by omega)]
          rfl

/-- What holds of every slot and is kept by every write holds of every slot after a batch. -/
theorem modifyFrom_slot {Q : δ → Prop} (r : RingBuf δ) (c : Nat) {fs : List (δ → δ)}
    (hf : ∀ f ∈ fs, ∀ x, Q x → Q (f x)) (h : ∀ j, Q (r.slot j)) (j : Nat) :
    Q ((r.modifyFrom c fs).slot j) := by
  induction fs generalizing r c with
  | nil => exact h j
  | cons f fs ih =>
      refine ih _ _ (fun g hg => hf g (List.mem_cons_of_mem _ hg)) ?_
      intro k
      show Q (Function.update r.slot (r.mask (cursor c)) (f (r.get (cursor c))) k)
      by_cases hk : k = r.mask (cursor c)
      · rw [hk, Function.update_self]
        exact hf f List.mem_cons_self _ (h _)
      · rw [Function.update_of_ne hk]
        exact h k

/-- The producer writes a batch to the next slots and publishes it. -/
def publish (r : RingBuf δ) (fs : List (δ → δ)) : RingBuf δ :=
  (r.modifyFrom r.prod fs).submit fs.length

@[simp] theorem publish_nil (r : RingBuf δ) : r.publish [] = r := r.submit_zero

@[simp] theorem publish_cons (r : RingBuf δ) (fs : List (δ → δ)) :
    (r.publish fs).cons = r.cons := by simp [publish]

@[simp] theorem publish_size (r : RingBuf δ) (fs : List (δ → δ)) :
    (r.publish fs).size = r.size := by simp [publish]

theorem publish_prod (r : RingBuf δ) (fs : List (δ → δ)) (h : fs.length ≤ r.free) :
    (r.publish fs).prod = r.prod + fs.length := by
  rw [publish, submit_prod _ (by rwa [modifyFrom_free]), modifyFrom_prod]

/-- Publishing a batch that fits keeps the entries that were published before. -/
theorem publish_used (r : RingBuf δ) (fs : List (δ → δ)) (h : fs.length ≤ r.free) :
    (r.publish fs).used = r.used + fs.length := by
  have := r.cons_le
  rw [used, r.publish_prod fs h, publish_cons, used]
  omega

theorem publish_entry_of_lt (r : RingBuf δ) (fs : List (δ → δ)) {c : Nat} (hc : r.cons ≤ c)
    (hlt : c < r.prod) (h : fs.length ≤ r.free) : (r.publish fs).entry c = r.entry c := by
  have := r.prod_le
  rw [free] at h
  exact modifyFrom_entry_of_lt _ _ hlt (by omega)

/-- The entries of a published batch. -/
theorem publish_entry (r : RingBuf δ) (fs : List (δ → δ)) {i : Nat} (hi : i < fs.length)
    (h : fs.length ≤ r.free) :
    (r.publish fs).entry (r.prod + i) = fs[i] (r.entry (r.prod + i)) :=
  modifyFrom_entry _ _ hi (by have := r.used_add_free; omega)

/-- A batch that fits is appended to the contents. -/
theorem publish_entries (r : RingBuf δ) (fs : List (δ → δ)) (h : fs.length ≤ r.free) :
    (r.publish fs).entries =
      r.entries ++ (List.range fs.length).map fun i => (fs.getD i id) (r.entry (r.prod + i)) := by
  have hfs := r.modifyFrom_free r.prod fs
  rw [publish, submit_entries _ (by omega)]
  refine congrArg₂ _ (entries_congr (by simp) (by simp) fun c hc hlt =>
    r.publish_entry_of_lt fs hc hlt h) (List.map_congr_left ?_)
  intro i hi
  rw [List.mem_range] at hi
  rw [modifyFrom_prod, List.getD_eq_getElem _ _ hi]
  exact r.publish_entry fs hi h

/-- A batch of values that do not depend on the slots is appended as it is. -/
theorem publish_entries_const (r : RingBuf δ) (xs : List δ) (h : xs.length ≤ r.free) :
    (r.publish (xs.map fun x _ => x)).entries = r.entries ++ xs := by
  rw [publish_entries _ _ (by simpa using h)]
  refine congrArg₂ _ rfl (List.ext_getElem (by simp) ?_)
  intro i h1 h2
  simp [List.getElem?_eq_getElem h2]

/-! ## One entry at a time -/

/-- The producer publishes `x`. -/
def push (r : RingBuf δ) (x : δ) : RingBuf δ := r.publish [fun _ => x]

@[simp] theorem push_cons (x : δ) : (r.push x).cons = r.cons := r.publish_cons _

theorem push_prod {x : δ} (h : 1 ≤ r.free) : (r.push x).prod = r.prod + 1 :=
  r.publish_prod [fun _ => x] h

theorem push_entries {x : δ} (h : 1 ≤ r.free) : (r.push x).entries = r.entries ++ [x] :=
  r.publish_entries_const [x] h

/-- A ring with contents has its oldest entry at the consumer's count. -/
theorem entries_eq_cons (h : 1 ≤ r.used) :
    r.entries = r.entry r.cons :: (r.release 1).entries := by
  have h0 : 0 < r.entries.length := by rw [entries_length]; omega
  have he : r.entries[0] = r.entry r.cons := by simp [entries]
  rw [release_entries _ h, ← he, List.getElem_cons_drop, List.drop_zero]

end RingBuf

end Afxdp.Spsc
