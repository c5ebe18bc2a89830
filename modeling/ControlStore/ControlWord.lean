import ControlStore.Bits
import ControlStore.Width

/-! # Control words

The bit vector stored at one address of the control store.  Bit 0 is the least significant bit of
the value word.

A field `[offset, offset + width)` may be written more than once, but only with the value it already
has; a field that reads zero counts as not yet written.  A word is shown as its digits, leading zeros
included, and only if there are not too many. -/

namespace ControlStore

/-- A vector of `width` bits, read as the number `bits`. -/
structure ControlWord where
  width : Nat
  bits : Nat
deriving DecidableEq

namespace ControlWord

/-- The word whose bits are all zero. -/
def zeros (width : Nat) : ControlWord := ⟨width, 0⟩

/-! ### Fields -/

/-- The number in the field `[offset, offset + width)`. -/
def read (w : ControlWord) (offset width : Nat) : Checked Nat := do
  let stop ← Width.add offset width
  if stop ≤ w.width then
    return lowBits (w.bits >>> offset) width
  else
    throw (.fieldOutsideWord offset stop w.width)

/-- The word after `value` was stored at `offset`. -/
def write (w : ControlWord) (offset : Nat) (value : Bits) : Checked ControlWord := do
  let current ← w.read offset value.width
  if current = 0 ∨ current = value.value then
    return { w with bits := w.bits ||| value.value <<< offset }
  else
    throw (.conflictingWrite offset current value.value)

/-! ### Text -/

/-- The number of hexadecimal digits of a word of `width` bits; an empty word still has one. -/
def digitCount (width : Nat) : Nat := (max width 1 + 3) / 4

/-- The hexadecimal digits of a word, filled up with zeros to the digits of its width. -/
def digits (w : ControlWord) : String := hexPadded (digitCount w.width) w.bits

/-- The most digits that a word is written with. -/
def digitLimit : Nat := 65535

/-- The text of a word. -/
def text (w : ControlWord) : Checked String :=
  if digitCount w.width ≤ digitLimit then .ok w.digits else .error .tooManyDigits

end ControlWord

end ControlStore
