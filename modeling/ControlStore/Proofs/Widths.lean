import ControlStore.Bits
import ControlStore.Proofs.Checked
import Mathlib.Order.Basic

/-! # Widths and powers of two

A number has length at most `w` if it lies below `2 ^ w`, so a selector between `count` things is at most `w` bits
wide if `count ≤ 2 ^ w` (`selectorWidth_le_iff`).  The bits of a word below its leading zeros are as many as its
number needs (`sub_clz_eq_bitLength`).  So the logarithm that is found from the leading zeros of the predecessor
does not depend on the word the number is held in, and it is the width of the selector
(`ceilLog2_eq_selectorWidth`, `widthOfCount_eq`). -/

namespace ControlStore

theorem twoPow_eq (n : Nat) : twoPow n = 2 ^ n := Nat.one_shiftLeft n

theorem bitLength_le_iff {n w : Nat} : bitLength n ≤ w ↔ n < 2 ^ w := by
  rw [bitLength_le_iff_lt_twoPow, twoPow_eq]

theorem lowBits_eq_mod (n width : Nat) : lowBits n width = n % 2 ^ width := by
  unfold lowBits
  split
  · next h => exact (Nat.mod_eq_of_lt (bitLength_le_iff.mp h)).symm
  · rw [twoPow_eq]

theorem Bits.value_lt (b : Bits) : b.value < 2 ^ b.width := bitLength_le_iff.mp b.fits

@[simp] theorem Bits.value_ofNat (value width : Nat) : (Bits.ofNat value width).value = value % 2 ^ width :=
  lowBits_eq_mod value width

theorem Width.limit_eq : Width.limit = 2 ^ 32 := twoPow_eq 32

/-! ### Selectors -/

/-- The number of bits of a selector between `count` symbols: the least `r` with
`count ≤ 2 ^ r`. -/
def selectorWidth (count : Nat) : Nat := bitLength (count - 1)

theorem selectorWidth_le_iff {count r : Nat} : selectorWidth count ≤ r ↔ count ≤ 2 ^ r := by
  unfold selectorWidth
  rw [bitLength_le_iff]
  have := Nat.two_pow_pos r
  omega

theorem le_two_pow_selectorWidth (count : Nat) : count ≤ 2 ^ selectorWidth count :=
  selectorWidth_le_iff.mp (Nat.le_refl _)

theorem selectorWidth_mono {count more : Nat} (h : count ≤ more) : selectorWidth count ≤ selectorWidth more :=
  selectorWidth_le_iff.mpr (Nat.le_trans h (le_two_pow_selectorWidth more))

/-- A selector between pairs is at most as wide as two selectors side by side. -/
theorem selectorWidth_mul_le (a b : Nat) : selectorWidth (a * b) ≤ selectorWidth a + selectorWidth b := by
  rw [selectorWidth_le_iff, Nat.pow_add]
  exact Nat.mul_le_mul (le_two_pow_selectorWidth a) (le_two_pow_selectorWidth b)

/-! ### Leading zeros -/

section
variable {w : Nat} (x : BitVec w)

/-- Below the leading zeros stands the highest set bit, unless the word is zero. -/
theorem sub_clz_le_iff (r : Nat) : w - x.clz.toNat ≤ r ↔ x.toNat < 2 ^ r := by
  constructor
  · intro hr
    calc x.toNat < 2 ^ (w - x.clz.toNat) := BitVec.toNat_lt_two_pow_sub_clz
      _ ≤ 2 ^ r := Nat.pow_le_pow_right (by decide) hr
  · intro hx
    by_cases hzero : x = 0#w
    · have hclz : x.clz.toNat = w := by
        rw [BitVec.clz_eq_iff_eq_zero.mpr hzero]
        exact Nat.mod_eq_of_lt Nat.lt_two_pow_self
      omega
    · by_contra hr
      have hle : 2 ^ r ≤ x.toNat :=
        calc 2 ^ r ≤ 2 ^ (w - 1 - x.clz.toNat) := Nat.pow_le_pow_right (by decide) (by omega)
          _ ≤ x.toNat := BitVec.two_pow_sub_clz_le_toNat_of_ne_zero (by omega) hzero
      omega

/-- The bits of a word below its leading zeros are those that its number needs. -/
theorem sub_clz_eq_bitLength : w - x.clz.toNat = bitLength x.toNat :=
  eq_of_forall_ge_iff fun r => (sub_clz_le_iff x r).trans bitLength_le_iff.symm

end

/-! ### The logarithm of a count -/

theorem ceilLog2_eq_ok {w x : Nat} (hpos : 0 < x) : ceilLog2 w x = .ok (w - leadingZeros w (x - 1)) :=
  if_neg (Nat.ne_of_gt hpos)

/-- The logarithm of a count is the width of its selector, taken in any word that holds the count. -/
theorem ceilLog2_eq_selectorWidth {w count : Nat} (hpos : 0 < count) (hcount : count < 2 ^ w) :
    ceilLog2 w count = .ok (selectorWidth count) := by
  have hpred : (BitVec.ofNat w (count - 1)).toNat = count - 1 := Nat.mod_eq_of_lt (by omega)
  rw [ceilLog2_eq_ok hpos, leadingZeros, sub_clz_eq_bitLength, hpred, selectorWidth]

/-- In a byte: the least number, the highest power of two, and the numbers next to it. -/
example : ceilLog2 8 1 = .ok 0 ∧ ceilLog2 8 127 = .ok 7 ∧ ceilLog2 8 128 = .ok 7 ∧ ceilLog2 8 129 = .ok 8 :=
  ⟨rfl, rfl, rfl, rfl⟩

@[simp] theorem widthOfCount_eq {count : Nat} (hpos : 0 < count) : widthOfCount count hpos = selectorWidth count :=
  Checked.get_eq (ceilLog2_eq_selectorWidth hpos (bitLength_le_iff.mp (Nat.le_max_right 64 _))) _

end ControlStore
