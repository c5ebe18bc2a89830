import ControlStore.Fault

/-! # Widths

Widths and offsets are stored in 32 bits, so their sums are checked.  `widthOfCount count` is the
number of bits that tell `count` things apart, the least `r` with `count ≤ 2 ^ r`; there has to be at
least one. -/

namespace ControlStore

/-- The number of zero bits above the highest set bit of `n`, written in `size` bits. -/
def leadingZeros (size n : Nat) : Nat := (BitVec.ofNat size n).clz.toNat

/-- The least `r` with `x ≤ 2 ^ r`, for `x` stored in `size` bits. -/
def ceilLog2 (size x : Nat) : Checked Nat :=
  if x = 0 then .error .zeroLogarithm else .ok (size - leadingZeros size (x - 1))

theorem ceilLog2_ok (size : Nat) {x : Nat} (h : 0 < x) : ∃ r, ceilLog2 size x = .ok r :=
  ⟨_, if_neg (Nat.ne_of_gt h)⟩

/-- The size of the word that a count is stored in: 64 bits, or as many as the count needs. -/
def countSize (count : Nat) : Nat := max 64 (bitLength count)

/-- The number of bits that tell `count` things apart. -/
def widthOfCount (count : Nat) (h : 0 < count) : Nat :=
  (ceilLog2 (countSize count) count).get (ceilLog2_ok (countSize count) h)

namespace Width

/-- Widths lie below this bound. -/
def limit : Nat := twoPow 32

/-- The sum of two widths. -/
def add (a b : Nat) : Checked Nat := if a + b < limit then .ok (a + b) else .error .sumTooLarge

theorem add_eq_ok_iff {a b c : Nat} : add a b = .ok c ↔ a + b = c ∧ c < limit := by
  unfold add
  split <;> simp <;> omega

/-- The difference of two widths. -/
def sub (a b : Nat) : Checked Nat := if b ≤ a then .ok (a - b) else .error .differenceNegative

theorem sub_eq_ok_iff {a b c : Nat} : sub a b = .ok c ↔ c + b = a := by
  unfold sub
  split <;> simp <;> omega

/-- The sum of a list of widths. -/
def sum (ws : List Nat) : Checked Nat := ws.foldlM add 0

end Width

end ControlStore
