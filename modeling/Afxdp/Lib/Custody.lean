import Mathlib.Algebra.BigOperators.Group.Finset.Piecewise
import Mathlib.Algebra.Order.Group.Multiset
import Mathlib.Data.Finset.Card
import Mathlib.Data.Multiset.AddSub

/-!
# Tokens in places

A distribution puts a multiset of tokens in every place. `Custody` says that no token is in two
places or twice in one; `Moves` is the elementary change, a multiset of tokens leaving one place
and arriving in another. A move keeps the custody (`Moves.custody`) and loses or makes no token
(`Moves.present`), so in every state reached by moves a token that was present at the start is in
exactly one place, once (`Custody.sole`). Places and tokens are arbitrary; there may be infinitely
many of both. Moves inside a group of places keep the tokens of the group (`Shifts.sum_of_frame`).
-/

namespace Afxdp.Tokens

universe u v

variable {P : Type u} {α : Type v}

/-- No token is in two places, or twice in one. -/
structure Custody (c : P → Multiset α) : Prop where
  nodup : ∀ p, (c p).Nodup
  excl : ∀ p q a, a ∈ c p → a ∈ c q → p = q

/-- The tokens `m` leave `p` and arrive in `q`; every other place is as it was. -/
structure Moves (c c' : P → Multiset α) (p q : P) (m : Multiset α) : Prop where
  ne : p ≠ q
  src : c p = c' p + m
  dst : c' q = c q + m
  frame : ∀ r, r ≠ p → r ≠ q → c' r = c r

variable {c c' : P → Multiset α} {p q : P} {m : Multiset α}

/-- A token of the changed distribution was there before: in its own place, or in the source if it
moved. -/
theorem Moves.mem (h : Moves c c' p q m) {r : P} {a : α} (ha : a ∈ c' r) :
    a ∈ c r ∨ (r = q ∧ a ∈ m ∧ a ∈ c p) := by
  rcases eq_or_ne r p with rfl | hp
  · exact .inl (by rw [h.src]; exact Multiset.mem_add.2 (.inl ha))
  rcases eq_or_ne r q with rfl | hq
  · rw [h.dst, Multiset.mem_add] at ha
    exact ha.imp id fun hm => ⟨rfl, hm, by rw [h.src]; exact Multiset.mem_add.2 (.inr hm)⟩
  · exact .inl (h.frame r hp hq ▸ ha)

/-- What stays in the source is disjoint from what left it. -/
theorem Moves.disjoint (h : Moves c c' p q m) (hc : Custody c) {a : α} (ha : a ∈ c' p) :
    a ∉ m := by
  have hn := hc.nodup p
  rw [h.src, Multiset.nodup_add] at hn
  exact Multiset.disjoint_left.1 hn.2.2 ha

/-- A move keeps the custody. -/
theorem Moves.custody (h : Moves c c' p q m) (hc : Custody c) : Custody c' := by
  have hpn := hc.nodup p
  rw [h.src, Multiset.nodup_add] at hpn
  have hm : ∀ {a}, a ∈ m → a ∈ c p := fun ha => by
    rw [h.src]; exact Multiset.mem_add.2 (.inr ha)
  refine ⟨?_, ?_⟩
  · intro r
    by_cases hp : r = p
    · subst hp; exact hpn.1
    rcases eq_or_ne r q with rfl | hq
    · rw [h.dst, Multiset.nodup_add]
      exact ⟨hc.nodup r, hpn.2.1, Multiset.disjoint_left.2 fun {a} ha hma =>
        hp (hc.excl r p a ha (hm hma))⟩
    · rw [h.frame r hp hq]; exact hc.nodup r
  · intro r t a hr ht
    rcases h.mem hr with hr' | ⟨rfl, hrm, hrp⟩ <;> rcases h.mem ht with ht' | ⟨rfl, htm, htp⟩
    · exact hc.excl r t a hr' ht'
    · -- `a` was in `r` and in the source, so `r` is the source, which it has left
      obtain rfl := hc.excl r p a hr' htp
      exact absurd htm (h.disjoint hc hr)
    · obtain rfl := hc.excl t p a ht' hrp
      exact absurd hrm (h.disjoint hc ht)
    · rfl

/-- A move loses no token and makes none. -/
theorem Moves.present (h : Moves c c' p q m) (a : α) : (∃ r, a ∈ c' r) ↔ ∃ r, a ∈ c r := by
  constructor
  · rintro ⟨r, hr⟩
    rcases h.mem hr with hr | ⟨-, -, hp⟩
    · exact ⟨r, hr⟩
    · exact ⟨p, hp⟩
  · rintro ⟨r, hr⟩
    rcases eq_or_ne r p with rfl | hp
    · rw [h.src, Multiset.mem_add] at hr
      rcases hr with hr | hm
      · exact ⟨r, hr⟩
      · exact ⟨q, by rw [h.dst]; exact Multiset.mem_add.2 (.inr hm)⟩
    rcases eq_or_ne r q with rfl | hq
    · exact ⟨r, by rw [h.dst]; exact Multiset.mem_add.2 (.inl hr)⟩
    · exact ⟨r, h.frame r hp hq ▸ hr⟩

/-- What leaves the one place and what arrives in the other is the same. -/
theorem Moves.point [DecidableEq P] (h : Moves c c' p q m) (r : P) :
    c' r + (if r = p then m else 0) = c r + (if r = q then m else 0) := by
  rcases eq_or_ne r p with rfl | hp
  · rw [if_pos rfl, if_neg h.ne, add_zero, h.src]
  rcases eq_or_ne r q with rfl | hq
  · rw [if_neg hp, if_pos rfl, add_zero, h.dst]
  · rw [if_neg hp, if_neg hq, h.frame r hp hq]

/-- A move that leaves the places outside a group as they are keeps the tokens of the group. -/
theorem Moves.sum_of_frame [DecidableEq P] {G : Finset P} (h : Moves c c' p q m)
    (hframe : ∀ r, r ∉ G → c' r = c r) : ∑ r ∈ G, c' r = ∑ r ∈ G, c r := by
  have hsum := Finset.sum_congr (rfl : G = G) fun r _ => h.point r
  rw [Finset.sum_add_distrib, Finset.sum_add_distrib, Finset.sum_ite_eq', Finset.sum_ite_eq']
    at hsum
  -- an end of the move that is not in the group is as it was, so nothing moved
  by_cases hp : p ∈ G
  · by_cases hq : q ∈ G
    · rw [if_pos hp, if_pos hq] at hsum
      exact add_right_cancel hsum
    · have hm : c q + m = c q + 0 := by rw [add_zero, ← h.dst, hframe q hq]
      obtain rfl := add_left_cancel hm
      simpa using hsum
  · have hm : c' p + m = c' p + 0 := by rw [add_zero, ← h.src, hframe p hp]
    obtain rfl := add_left_cancel hm
    simpa using hsum

/-- A move keeps all tokens together as they were. -/
theorem Moves.sum_eq [Fintype P] [DecidableEq P] (h : Moves c c' p q m) :
    ∑ r, c' r = ∑ r, c r :=
  h.sum_of_frame fun r hr => absurd (Finset.mem_univ r) hr

/-- Nothing changes, or tokens move. -/
def Shifts (c c' : P → Multiset α) : Prop := c' = c ∨ ∃ p q m, Moves c c' p q m

theorem Shifts.custody (h : Shifts c c') (hc : Custody c) : Custody c' := by
  rcases h with rfl | ⟨p, q, m, h⟩
  · exact hc
  · exact h.custody hc

theorem Shifts.present (h : Shifts c c') (a : α) : (∃ r, a ∈ c' r) ↔ ∃ r, a ∈ c r := by
  rcases h with rfl | ⟨p, q, m, h⟩
  · exact Iff.rfl
  · exact h.present a

theorem Shifts.sum_eq [Fintype P] [DecidableEq P] (h : Shifts c c') :
    ∑ r, c' r = ∑ r, c r := by
  rcases h with rfl | ⟨p, q, m, h⟩
  · rfl
  · exact h.sum_eq

/-- Under custody a token is in its place exactly once and nowhere else. -/
theorem Custody.sole [DecidableEq α] (hc : Custody c) {a : α} (ha : a ∈ c p) :
    (c p).count a = 1 ∧ ∀ r, r ≠ p → (c r).count a = 0 :=
  ⟨Multiset.count_eq_one_of_mem (hc.nodup p) ha, fun r hr =>
    Multiset.count_eq_zero_of_notMem fun har => hr (hc.excl r p a har ha)⟩

/-- A place holds no more tokens than there are, and fewer as soon as one of them is elsewhere. -/
theorem Custody.card_lt [DecidableEq α] (hc : Custody c) {S : Finset α}
    (hS : ∀ r, ∀ a ∈ c r, a ∈ S) {a : α} (ha : a ∈ c q) (hpq : p ≠ q) : (c p).card < S.card := by
  have hsub : (c p).toFinset ⊆ S.erase a := fun b hb => by
    rw [Multiset.mem_toFinset] at hb
    refine Finset.mem_erase.2 ⟨?_, hS p b hb⟩
    rintro rfl
    exact hpq (hc.excl p q b hb ha)
  calc (c p).card = (c p).toFinset.card := (Multiset.toFinset_card_of_nodup (hc.nodup p)).symm
    _ ≤ (S.erase a).card := Finset.card_le_card hsub
    _ < S.card := Finset.card_erase_lt_of_mem (hS q a ha)

/-! ## Groups of places -/

section
variable {G : Finset P}

theorem Shifts.sum_of_frame [DecidableEq P] (h : Shifts c c') (hframe : ∀ r, r ∉ G → c' r = c r) :
    ∑ r ∈ G, c' r = ∑ r ∈ G, c r := by
  rcases h with rfl | ⟨p, q, m, h⟩
  · rfl
  · exact h.sum_of_frame hframe

/-- Different groups hold different tokens. -/
theorem Custody.disjoint_sum (hc : Custody c) {H : Finset P} (hGH : Disjoint G H) :
    Disjoint (∑ r ∈ G, c r) (∑ r ∈ H, c r) := by
  refine Multiset.disjoint_left.2 fun {a} hG hH => ?_
  obtain ⟨r, hr, har⟩ := Multiset.mem_sum.1 hG
  obtain ⟨t, ht, hat⟩ := Multiset.mem_sum.1 hH
  obtain rfl := hc.excl r t a har hat
  exact Finset.disjoint_left.1 hGH hr ht

/-- A group holds no token twice. -/
theorem Custody.nodup_sum (hc : Custody c) (G : Finset P) : (∑ r ∈ G, c r).Nodup := by
  classical
  induction G using Finset.induction_on with
  | empty => exact Multiset.nodup_zero
  | insert p G hp ih =>
      rw [Finset.sum_insert hp, Multiset.nodup_add]
      refine ⟨hc.nodup p, ih, ?_⟩
      have hdisj := hc.disjoint_sum (Finset.disjoint_singleton_left.2 hp)
      rwa [Finset.sum_singleton] at hdisj

/-- So it holds at most as many tokens as there are. -/
theorem Custody.card_sum_le (hc : Custody c) {S : Finset α} (hS : ∀ r, ∀ a ∈ c r, a ∈ S)
    (G : Finset P) : (∑ r ∈ G, c r).card ≤ S.card := by
  classical
  have hsub : (∑ r ∈ G, c r).toFinset ⊆ S := by
    intro a ha
    obtain ⟨r, -, har⟩ := Multiset.mem_sum.1 (Multiset.mem_toFinset.1 ha)
    exact hS r a har
  rw [← Multiset.toFinset_card_of_nodup (hc.nodup_sum G)]
  exact Finset.card_le_card hsub

end

end Afxdp.Tokens
