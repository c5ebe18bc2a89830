/-! # Numbers

Powers of two, the length of a number in bits, and its hexadecimal digits.

Numbers are written with lowercase digits and no leading zero, zero itself as one digit; a control
word is written with a fixed number of digits, filled up with zeros on the left.  The digits of a
number are those of its upper half followed by those of its lower half, so that long numbers are cut
into short ones quickly. -/

namespace ControlStore

/-! ### Powers of two -/

/-- The power of two with the given exponent. -/
def twoPow (n : Nat) : Nat := 1 <<< n

theorem twoPow_succ (n : Nat) : twoPow (n + 1) = twoPow n + twoPow n := by
  unfold twoPow
  rw [Nat.shiftLeft_succ]
  omega

theorem twoPow_pos (n : Nat) : 0 < twoPow n := by
  induction n with
  | zero => decide
  | succ n ih =>
      rw [twoPow_succ]
      omega

/-- The number of bits needed to write `n`: zero for zero. -/
def bitLength (n : Nat) : Nat := if n = 0 then 0 else n.log2 + 1

theorem bitLength_le_iff_lt_twoPow {n w : Nat} : bitLength n ≤ w ↔ n < twoPow w := by
  unfold bitLength twoPow
  rw [Nat.one_shiftLeft]
  split
  · next h => exact iff_of_true (Nat.zero_le w) (h ▸ Nat.two_pow_pos w)
  · next h => rw [Nat.add_one_le_iff, Nat.log2_lt h]

theorem bitLength_twoPow_le {index width : Nat} (h : index < width) : bitLength (twoPow index) ≤ width := by
  rw [bitLength_le_iff_lt_twoPow]
  unfold twoPow
  rw [Nat.one_shiftLeft, Nat.one_shiftLeft]
  exact Nat.pow_lt_pow_right Nat.one_lt_two h

/-- The lowest `width` bits of `n`.  The power is formed only if there are bits to cut off, since a
width may be any 32-bit number. -/
def lowBits (n width : Nat) : Nat := if bitLength n ≤ width then n else n % twoPow width

theorem bitLength_lowBits_le (n width : Nat) : bitLength (lowBits n width) ≤ width := by
  unfold lowBits
  split
  · next h => exact h
  · exact bitLength_le_iff_lt_twoPow.mpr (Nat.mod_lt n (twoPow_pos width))

/-! ### Hexadecimal digits -/

/-- The lowest hexadecimal digits of `n`, most significant first; there are `twoPow level` of them. -/
def hexBlock : (level n : Nat) → List Char
  | 0, n => [Nat.digitChar (n % 16)]
  | level + 1, n =>
    let half := 4 * twoPow level
    hexBlock level (n >>> half) ++ hexBlock level (n % twoPow half)

theorem length_hexBlock (level n : Nat) : (hexBlock level n).length = twoPow level := by
  induction level generalizing n with
  | zero => rfl
  | succ level ih => rw [hexBlock, List.length_append, ih, ih, twoPow_succ]

/-- A level whose block holds all digits of `n`. -/
def hexLevel (n : Nat) : Nat := (n.log2 / 4 + 1).log2 + 1

/-- The hexadecimal digits of `n`, most significant first. -/
def hexDigits (n : Nat) : List Char :=
  match (hexBlock (hexLevel n) n).dropWhile (· = '0') with
  | [] => ['0']
  | digits => digits

/-- `n` in hexadecimal, without leading zeros. -/
def hex (n : Nat) : String := String.ofList (hexDigits n)

/-- `n` in hexadecimal with at least `count` digits. -/
def hexPadded (count n : Nat) : String := String.ofList ((hexDigits n).leftpad count '0')

end ControlStore
