import ControlStore.Fault

/-! # Literals of a fixed width

`Bits` is an unsigned number together with the number of bits it is stored in; that the number fits
is part of the type.  The test is made on the length of the number, never on a power of two, since a
width may be any 32-bit number. -/

namespace ControlStore

/-- An unsigned literal of a fixed width. -/
structure Bits where
  width : Nat
  value : Nat
  fits : bitLength value ≤ width
deriving DecidableEq

namespace Bits

theorem eq_of_width_value {a b : Bits} (hwidth : a.width = b.width) (hvalue : a.value = b.value) : a = b := by
  obtain ⟨width, value, hfits⟩ := a
  cases hwidth
  cases hvalue
  rfl

/-- The literal `value` in `width` bits, if it fits. -/
def ofNat? (value width : Nat) : Option Bits :=
  if h : bitLength value ≤ width then some ⟨width, value, h⟩ else none

theorem ofNat?_eq_some_iff {value width : Nat} {b : Bits} :
    ofNat? value width = some b ↔ b.value = value ∧ b.width = width := by
  unfold ofNat?
  split
  · next h =>
    constructor
    · rintro ⟨⟩; exact ⟨rfl, rfl⟩
    · obtain ⟨w, v, hv⟩ := b
      rintro ⟨rfl, rfl⟩; rfl
  · next h =>
    simp only [reduceCtorEq, false_iff]
    rintro ⟨rfl, rfl⟩
    exact h b.fits

/-- The lowest `width` bits of `value`. -/
def ofNat (value width : Nat) : Bits := ⟨width, lowBits value width, bitLength_lowBits_le value width⟩

/-- The literal zero in `width` bits. -/
def zero (width : Nat) : Bits := ⟨width, 0, Nat.zero_le width⟩

/-- The `width`-bit literal in which only bit `index` is set. -/
def oneHot (index width : Nat) : Checked Bits :=
  if h : index < width then .ok ⟨width, twoPow index, bitLength_twoPow_le h⟩
  else .error (.oneHotIndex index width)

/-- Literals are ordered by value, then by width. -/
def order (a b : Bits) : Ordering := (compare a.value b.value).then (compare a.width b.width)

/-- A literal is written as its width, a tick, and its value in hexadecimal. -/
def text (b : Bits) : String := toString b.width ++ "'h" ++ hex b.value

end Bits

end ControlStore
