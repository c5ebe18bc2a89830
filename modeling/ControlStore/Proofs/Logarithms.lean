import ControlStore.Proofs.Encoding
import ControlStore.Proofs.Images
import Mathlib.Order.Bounds.Basic

/-! # Logarithms of machine words

The logarithm that is found from the leading zeros of the predecessor does not depend on the word the number is
held in (`ceilLog2_eq_selectorWidth`), and it is the least exponent of a power of two that reaches the number.
Selectors and addresses are sized by it: symbols fit their selectors, addresses fit their port, and a selector
between pairs needs no more bits than two selectors (`ceilLog2_exact`). -/

namespace ControlStore

/-- The leading zeros are those of the word less one: a positive word can be counted down. -/
theorem leadingZeros_pred {w x : Nat} (hpos : 0 < x) (hx : x < 2 ^ w) :
    leadingZeros w (x - 1) = (BitVec.ofNat w x - 1#w).clz.toNat := by
  have hone : 1 < 2 ^ w := by
    cases w with
    | zero => omega
    | succ w => exact Nat.one_lt_two_pow (Nat.succ_ne_zero w)
  unfold leadingZeros
  rw [BitVec.ofNat_sub_ofNat_of_le x 1 hone hpos]

theorem isLeast_selectorWidth (count : Nat) : IsLeast {r | count ≤ 2 ^ r} (selectorWidth count) :=
  ⟨le_two_pow_selectorWidth count, fun _ hr => selectorWidth_le_iff.mpr hr⟩

/-- Every positive number of a word of any size has a logarithm, found from the leading zeros of the word less
one: the least exponent of a power of two that reaches the number, and no more than the size of the word.  The
width of a selector is this logarithm of the count, and every symbol below the count fits it, so every symbol of
a field has a selector value.  The width of the address port is this logarithm of the depth, or one if that is
zero, and every address below the depth fits it.  A selector between pairs is at most as wide as two selectors
side by side. -/
theorem ceilLog2_exact :
    (∀ w x : Nat, 1 ≤ x → x < 2 ^ w → ∃ r, ceilLog2 w x = .ok r ∧
      r = w - (BitVec.ofNat w x - 1#w).clz.toNat ∧ IsLeast {n | x ≤ 2 ^ n} r ∧ r ≤ w) ∧
    (∀ count : Nat, 1 ≤ count → count < 2 ^ 64 → ceilLog2 64 count = .ok (selectorWidth count) ∧
      ∀ symbol < count, symbol < 2 ^ selectorWidth count) ∧
    (∀ (f : MicroField) (symbol : Nat), symbol < f.table.count → ∃ b, f.selector symbol = .ok b ∧
      b.value = symbol ∧ b.width = selectorWidth f.table.count) ∧
    (∀ store : Rom, (store.depth < 2 ^ 64 →
        ∃ r, ceilLog2 64 (max store.depth 1) = .ok r ∧ store.addressWidth = max r 1) ∧
      ∀ address < store.depth, address < 2 ^ store.addressWidth) ∧
    ∀ a b : Nat, 1 ≤ a → 1 ≤ b → a * b < 2 ^ 64 →
      selectorWidth (a * b) ≤ selectorWidth a + selectorWidth b := by
  refine ⟨fun w x hpos hx => ?_, fun count hpos hcount => ?_, fun f symbol hsymbol => ?_, fun store => ?_,
    fun a b _ _ _ => selectorWidth_mul_le a b⟩
  · have hlog := ceilLog2_eq_selectorWidth hpos hx
    have hformula : selectorWidth x = w - leadingZeros w (x - 1) :=
      Except.ok.inj (hlog.symm.trans (ceilLog2_eq_ok hpos))
    rw [leadingZeros_pred hpos hx] at hformula
    exact ⟨_, hlog, hformula, isLeast_selectorWidth x, selectorWidth_le_iff.mpr (Nat.le_of_lt hx)⟩
  · refine ⟨ceilLog2_eq_selectorWidth hpos hcount, fun symbol hsymbol => ?_⟩
    exact Nat.lt_of_lt_of_le hsymbol (le_two_pow_selectorWidth count)
  · exact ⟨f.label symbol, MicroField.selector_eq_ok hsymbol, MicroField.value_label hsymbol,
      (MicroField.width_label hsymbol).trans (SymbolTable.width_eq f.table)⟩
  · refine ⟨fun hdepth => ?_, fun address => Rom.lt_two_pow_addressWidth⟩
    have hpos : 0 < max store.depth 1 := by omega
    exact ⟨_, ceilLog2_eq_selectorWidth hpos (by omega), store.addressWidth_eq⟩

/-- Numbers in the upper half of a byte and of a word of 64 bits, a field of two symbols, a store whose depth is
no power of two, and counts whose pairs need fewer bits than both counts together. -/
theorem ceilLog2_exact_at_edges :
    (∃ r, ceilLog2 8 129 = .ok r ∧ r = 8 - (BitVec.ofNat 8 129 - 1#8).clz.toNat ∧
      IsLeast {n | 129 ≤ 2 ^ n} r ∧ r ≤ 8) ∧
    (ceilLog2 64 (2 ^ 63 + 1) = .ok (selectorWidth (2 ^ 63 + 1)) ∧
      ∀ symbol < 2 ^ 63 + 1, symbol < 2 ^ selectorWidth (2 ^ 63 + 1)) ∧
    (∃ b, (MicroField.mk MergeTree.first.table 0 0).selector 1 = .ok b ∧ b.value = 1 ∧
      b.width = selectorWidth MergeTree.first.table.count) ∧
    ((∃ r, ceilLog2 64 (max (Rom.blank 5 4).depth 1) = .ok r ∧ (Rom.blank 5 4).addressWidth = max r 1) ∧
      ∀ address < (Rom.blank 5 4).depth, address < 2 ^ (Rom.blank 5 4).addressWidth) ∧
    selectorWidth (3 * 5) ≤ selectorWidth 3 + selectorWidth 5 := by
  obtain ⟨hlog, hcount, hfield, hstore, hpairs⟩ := ceilLog2_exact
  exact ⟨hlog 8 129 (by decide) (by decide), hcount _ (by decide) (by decide),
    hfield ⟨MergeTree.first.table, 0, 0⟩ 1 (by decide), ⟨(hstore _).1 (by decide), (hstore _).2⟩,
    hpairs 3 5 (by decide) (by decide) (by decide)⟩

end ControlStore
