import Mathlib.Tactic
import Mathlib.Data.Nat.Dist

/-!
# Bitmaps

A bit vector read as a set of positions: what the usual masks select, and
how the counts of trailing and leading zeros find the set bit nearest to a
position.
-/

namespace CachingDex.Lib

variable {w : ℕ} {x : BitVec w}

/-! ## Masks -/

theorem getLsbD_one_shiftLeft {i j : ℕ} (hi : i < w) :
    (1#w <<< i).getLsbD j = decide (j = i) := by
  simp only [BitVec.getLsbD_shiftLeft, BitVec.getLsbD_one]
  by_cases h : j = i
  · subst h
    simp [hi]
    omega
  · have : ¬ (i ≤ j ∧ j - i = 0) := by omega
    simp [h]
    omega

theorem getLsbD_lowMask {i j : ℕ} (hi : i < w) :
    (1#w <<< i - 1).getLsbD j = decide (j < i) := by
  have hlt : 2 ^ i < 2 ^ w := Nat.pow_lt_pow_right (by omega) hi
  have hpos : 0 < 2 ^ i := Nat.two_pow_pos i
  have hmask : (1#w <<< i - 1) = BitVec.ofNat w (2 ^ i - 1) := by
    apply BitVec.eq_of_toNat_eq
    have hone : (1 : BitVec w).toNat = 1 := BitVec.toNat_one (by omega)
    have hshift : (1#w <<< i).toNat = 2 ^ i := by
      rw [BitVec.toNat_shiftLeft, Nat.shiftLeft_eq,
        BitVec.toNat_one (by omega), one_mul, Nat.mod_eq_of_lt hlt]
    rw [BitVec.toNat_sub, hone, hshift, BitVec.toNat_ofNat,
      Nat.mod_eq_of_lt (by omega : 2 ^ i - 1 < 2 ^ w)]
    have : 2 ^ w - 1 + 2 ^ i = 2 ^ i - 1 + 2 ^ w := by omega
    rw [this, Nat.add_mod_right, Nat.mod_eq_of_lt (by omega)]
  rw [hmask, BitVec.getLsbD_ofNat, Nat.testBit_two_pow_sub_one]
  have : j < i → j < w := fun h => h.trans hi
  simpa using this

/-- The part of a bitmap from a position on. -/
theorem getLsbD_and_not_lowMask {i j : ℕ} (hi : i < w) :
    (x &&& ~~~(1#w <<< i - 1)).getLsbD j =
      (x.getLsbD j && decide (i ≤ j)) := by
  rw [BitVec.getLsbD_and, BitVec.getLsbD_not, getLsbD_lowMask hi]
  by_cases hj : j < w
  · have : (!decide (j < i)) = decide (i ≤ j) := by simp [← decide_not]
    simp [hj, this]
  · simp [BitVec.getLsbD_of_ge _ _ (Nat.le_of_not_lt hj)]

/-- The part of a bitmap before a position. -/
theorem getLsbD_and_lowMask {i j : ℕ} (hi : i < w) :
    (x &&& (1#w <<< i - 1)).getLsbD j =
      (x.getLsbD j && decide (j < i)) := by
  rw [BitVec.getLsbD_and, getLsbD_lowMask hi]

/-! ## The lowest and the highest set bit -/

theorem ctz_le_of_getLsbD {j : ℕ} (h : x.getLsbD j = true) :
    x.ctz.toNat ≤ j := by
  by_contra hlt
  rw [BitVec.getLsbD_false_of_lt_ctz (by omega)] at h
  cases h

theorem le_sub_clz_of_getLsbD {j : ℕ} (h : x.getLsbD j = true) :
    j ≤ w - 1 - x.clz.toNat := by
  have hlow : 2 ^ j ≤ x.toNat := Nat.ge_two_pow_of_testBit h
  have hhigh := BitVec.toNat_lt_two_pow_sub_clz (x := x)
  have := (Nat.pow_lt_pow_iff_right (by omega : 1 < 2)).mp
    (hlow.trans_lt hhigh)
  omega

/-! ## The nearest set bit -/

/-- The set bit nearest to a position, the lower one of two. -/
structure NearestBit (x : BitVec w) (pos i : ℕ) : Prop where
  isSet : x.getLsbD i = true
  nearest : ∀ j, x.getLsbD j = true → i.dist pos ≤ j.dist pos
  lower : ∀ j, x.getLsbD j = true → j.dist pos = i.dist pos → i ≤ j

section Sides

variable {pos : ℕ} {right left : BitVec w}

/-- The lowest set bit on the right is the nearest one, if every set bit on
the left is farther away. -/
theorem nearestBit_ctz
    (hright : ∀ j, right.getLsbD j = (x.getLsbD j && decide (pos ≤ j)))
    (hne : right ≠ 0)
    (hleft : ∀ j < pos, x.getLsbD j = true →
      right.ctz.toNat - pos < pos - j) :
    NearestBit x pos right.ctz.toNat := by
  have hbit := BitVec.getLsbD_true_ctz_of_ne_zero hne
  rw [hright, Bool.and_eq_true, decide_eq_true_eq] at hbit
  obtain ⟨hset, hle⟩ := hbit
  have hfirst : ∀ j, pos ≤ j → x.getLsbD j = true → right.ctz.toNat ≤ j := by
    intro j hj hx
    apply ctz_le_of_getLsbD
    rw [hright]
    simp [hj, hx]
  constructor
  · exact hset
  · intro j hj
    rcases Nat.lt_or_ge j pos with hlt | hge
    · have := hleft j hlt hj
      simp only [Nat.dist]
      omega
    · have := hfirst j hge hj
      simp only [Nat.dist]
      omega
  · intro j hj hdist
    rcases Nat.lt_or_ge j pos with hlt | hge
    · have := hleft j hlt hj
      simp only [Nat.dist] at hdist
      omega
    · exact hfirst j hge hj

/-- The highest set bit on the left is the nearest one, if no set bit on the
right is nearer. -/
theorem nearestBit_clz
    (hleft : ∀ j, left.getLsbD j = (x.getLsbD j && decide (j < pos)))
    (hne : left ≠ 0)
    (hright : ∀ j, pos ≤ j → x.getLsbD j = true →
      pos - (w - 1 - left.clz.toNat) ≤ j - pos) :
    NearestBit x pos (w - 1 - left.clz.toNat) := by
  have hw : 0 < w := by
    rcases Nat.eq_zero_or_pos w with rfl | h
    · exact absurd (BitVec.eq_of_zero_length rfl) hne
    · exact h
  have hbit := BitVec.getLsbD_true_clz_of_ne_zero hw hne
  rw [hleft, Bool.and_eq_true, decide_eq_true_eq] at hbit
  obtain ⟨hset, hlt⟩ := hbit
  have hlast : ∀ j < pos, x.getLsbD j = true →
      j ≤ w - 1 - left.clz.toNat := by
    intro j hj hx
    apply le_sub_clz_of_getLsbD
    rw [hleft]
    simp [hj, hx]
  constructor
  · exact hset
  · intro j hj
    rcases Nat.lt_or_ge j pos with hbelow | hge
    · have := hlast j hbelow hj
      simp only [Nat.dist]
      omega
    · have := hright j hge hj
      simp only [Nat.dist]
      omega
  · intro j hj hdist
    rcases Nat.lt_or_ge j pos with hbelow | hge
    · have := hlast j hbelow hj
      simp only [Nat.dist] at hdist
      omega
    · omega

end Sides

end CachingDex.Lib
