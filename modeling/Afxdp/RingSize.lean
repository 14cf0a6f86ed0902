import Afxdp.Handles
import Afxdp.Lib.Mask

/-!
# The ring sizes that the constructors accept

The slot of a ring index is found by masking the index with the size less one, and the indices run
through all of `u32` and wrap. This is sound for a size if any window of that many consecutive
indices, across the wrap too, has every slot once (`SoundSize`): then no two live indices share a
slot. `is_pow_of_two` accepts exactly the sizes for which it is (`isPowOfTwo_iff_sound`), and the
constructors refuse all others.
-/

namespace Afxdp.Lifetime

open Mask (bijOn_add_mod isPowerOfTwo_of_and_pred)

/-- The slot of the `i`-th index from `s` on: the index wraps at `2 ^ 32` and is then masked. -/
def maskedIndex (size s i : UInt32) : UInt32 := (s + i) &&& (size - 1)

/-- Any `size` consecutive indices have all the slots, each once. -/
def SoundSize (size : UInt32) : Prop :=
  size ≠ 0 ∧ ∀ s : UInt32, Set.BijOn (maskedIndex size s) {i | i < size} {i | i < size}

variable {size : UInt32}

theorem toNat_sub_one (h : size ≠ 0) : (size - 1).toNat = size.toNat - 1 := by
  have hpos : size.toNat ≠ 0 := fun h0 => h (UInt32.toNat_inj.1 h0)
  refine UInt32.toNat_sub_of_le _ _ (UInt32.le_iff_toNat_le.2 ?_)
  simp
  omega

/-- The check is the bit trick for powers of two. -/
theorem isPowOfTwo_iff (size : UInt32) : isPowOfTwo size = true ↔ size.toNat.isPowerOfTwo := by
  rw [← Nat.ne_zero_and_sub_one_eq_zero_iff_isPowerOfTwo]
  unfold isPowOfTwo
  rcases eq_or_ne size 0 with rfl | h
  · simp
  · have hpos : size.toNat ≠ 0 := fun h0 => h (UInt32.toNat_inj.1 h0)
    rw [if_neg h, beq_iff_eq, ← UInt32.toNat_inj, UInt32.toNat_and, toNat_sub_one h]
    exact (and_iff_right hpos).symm

/-- For a power of two masking is reduction modulo the size: the wrap is at a multiple of it. -/
theorem maskedIndex_toNat (h : size.toNat.isPowerOfTwo) (s i : UInt32) :
    (maskedIndex size s i).toNat = (s.toNat + i.toNat) % size.toNat := by
  obtain ⟨e, he⟩ := h
  have hne : size ≠ 0 := by
    rintro rfl
    exact absurd he (Nat.two_pow_pos e).ne
  have hlt : 2 ^ e < 2 ^ 32 := he ▸ size.toNat_lt
  have hdvd : 2 ^ e ∣ 2 ^ 32 :=
    Nat.pow_dvd_pow 2 (Nat.le_of_lt ((Nat.pow_lt_pow_iff_right (by decide)).1 hlt))
  rw [maskedIndex, UInt32.toNat_and, toNat_sub_one hne, UInt32.toNat_add, he,
    Nat.and_two_pow_sub_one_eq_mod, Nat.mod_mod_of_dvd _ hdvd]

theorem soundSize_of_isPowerOfTwo (h : size.toNat.isPowerOfTwo) : SoundSize size := by
  have hne : size ≠ 0 := by
    rintro rfl
    exact Nat.not_isPowerOfTwo_zero h
  refine ⟨hne, fun s => ?_⟩
  obtain ⟨hmaps, hinj, hsurj⟩ := bijOn_add_mod (n := size.toNat) s.toNat
  refine ⟨?_, ?_, ?_⟩
  · intro i hi
    refine UInt32.lt_iff_toNat_lt.2 ?_
    rw [maskedIndex_toNat h]
    exact hmaps (UInt32.lt_iff_toNat_lt.1 hi)
  · intro i hi j hj hij
    refine UInt32.toNat_inj.1 (hinj (UInt32.lt_iff_toNat_lt.1 hi) (UInt32.lt_iff_toNat_lt.1 hj) ?_)
    show (s.toNat + i.toNat) % size.toNat = (s.toNat + j.toNat) % size.toNat
    rw [← maskedIndex_toNat h, ← maskedIndex_toNat h, hij]
  · intro j hj
    obtain ⟨k, hk, hkj⟩ := hsurj (UInt32.lt_iff_toNat_lt.1 hj)
    have hk' : k < size.toNat := hk
    have hkn : (UInt32.ofNat k).toNat = k :=
      Nat.mod_eq_of_lt (Nat.lt_trans hk' size.toNat_lt)
    refine ⟨UInt32.ofNat k, UInt32.lt_iff_toNat_lt.2 (by rwa [hkn]), UInt32.toNat_inj.1 ?_⟩
    rw [maskedIndex_toNat h, hkn]
    exact hkj

/-- Already the window that starts at zero needs a mask without gaps. -/
theorem isPowerOfTwo_of_soundSize (h : SoundSize size) : size.toNat.isPowerOfTwo := by
  obtain ⟨hne, hbij⟩ := h
  have hpos : size.toNat ≠ 0 := fun h0 => hne (UInt32.toNat_inj.1 h0)
  refine isPowerOfTwo_of_and_pred hpos ?_
  intro j hj
  have hjn : (UInt32.ofNat j).toNat = j := Nat.mod_eq_of_lt (Nat.lt_trans hj size.toNat_lt)
  obtain ⟨i, -, hi⟩ := (hbij 0).surjOn
    (show UInt32.ofNat j < size from UInt32.lt_iff_toNat_lt.2 (by rwa [hjn]))
  -- `j` is a masked number, and masking twice is masking once
  have hij : i.toNat &&& (size.toNat - 1) = j := by
    have := congrArg UInt32.toNat hi
    rwa [maskedIndex, UInt32.zero_add, UInt32.toNat_and, toNat_sub_one hne, hjn] at this
  rw [← hij, Nat.and_assoc, Nat.and_self]

theorem isPowOfTwo_iff_soundSize (size : UInt32) : isPowOfTwo size = true ↔ SoundSize size :=
  (isPowOfTwo_iff size).trans ⟨soundSize_of_isPowerOfTwo, isPowerOfTwo_of_soundSize⟩

/-! ## The constructors -/

/-- The constructors of a socket refuse a size for which masked indexing is not sound, and only
such a size, with `RingNotPowerOfTwo`. -/
theorem socketNewWith_refuses (s : App) (a u : Nat) (ifName : List UInt8) (sizes : List UInt32)
    (rings : List Ring) (ret : Option Int) :
    (socketNewWith s a u ifName sizes rings ret).1 = .error (.socket .ringNotPowerOfTwo) ↔
      ∃ size ∈ sizes, ¬ SoundSize size := by
  have hall : sizes.all isPowOfTwo = true ↔ ∀ size ∈ sizes, SoundSize size := by
    simp only [List.all_eq_true, isPowOfTwo_iff_soundSize]
  have hex : (∃ size ∈ sizes, ¬ SoundSize size) ↔ ¬ sizes.all isPowOfTwo = true := by
    rw [hall]
    simp only [not_forall, exists_prop]
  rw [hex]
  unfold socketNewWith
  by_cases h : sizes.all isPowOfTwo = true
  · rw [if_neg (by simp [h])]
    split
    · simp [h]
    · cases ret <;> simp [h]
  · rw [if_pos (by simp [h])]
    simp [h]

/-- `Umem::new` does the same. -/
theorem umemNew_refuses (s : App) (a : Nat) (completionRingSize fillRingSize : UInt32)
    (ret : Option Int) :
    (umemNew s a completionRingSize fillRingSize ret).1 =
        .error (.umem .ringNotPowerOfTwo) ↔
      ¬ (SoundSize completionRingSize ∧ SoundSize fillRingSize) := by
  rw [← isPowOfTwo_iff_soundSize, ← isPowOfTwo_iff_soundSize]
  unfold umemNew
  by_cases h : isPowOfTwo completionRingSize = true ∧ isPowOfTwo fillRingSize = true
  · rw [if_neg (by simp [h.1, h.2])]
    cases ret <;> simp [h.1, h.2]
  · rw [if_pos (by simpa [or_iff_not_imp_left] using h)]
    simp only [h, not_false_iff]

/-- `is_pow_of_two` accepts exactly the sizes for which masked indexing is sound, so the
constructors refuse exactly the others. -/
theorem isPowOfTwo_iff_sound :
    (∀ size : UInt32, isPowOfTwo size = true ↔
      size ≠ 0 ∧ ∀ s : UInt32,
        Set.BijOn (fun i => (s + i) &&& (size - 1)) {i | i < size} {i | i < size}) ∧
    (∀ s a c f ret, (umemNew s a c f ret).1 = .error (.umem .ringNotPowerOfTwo) ↔
      ¬ (SoundSize c ∧ SoundSize f)) ∧
    (∀ s a u ifName rx tx ret,
      (socketNew s a u ifName rx tx ret).1 = .error (.socket .ringNotPowerOfTwo) ↔
        ¬ (SoundSize rx ∧ SoundSize tx)) ∧
    (∀ s a u ifName rx ret,
      (socketNewRx s a u ifName rx ret).1 = .error (.socket .ringNotPowerOfTwo) ↔
        ¬ SoundSize rx) ∧
    (∀ s a u ifName tx ret,
      (socketNewTx s a u ifName tx ret).1 = .error (.socket .ringNotPowerOfTwo) ↔
        ¬ SoundSize tx) := by
  refine ⟨isPowOfTwo_iff_soundSize, umemNew_refuses, ?_, ?_, ?_⟩
  · intro s a u ifName rx tx ret
    rw [socketNew, socketNewWith_refuses, not_and_or]
    simp
  · intro s a u ifName rx ret
    rw [socketNewRx, socketNewWith_refuses]
    simp
  · intro s a u ifName tx ret
    rw [socketNewTx, socketNewWith_refuses]
    simp

end Afxdp.Lifetime
