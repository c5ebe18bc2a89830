import ControlStore.Source.Grammar
import ControlStore.Proofs.Widths
import Mathlib.Data.Nat.Digits.Defs
import Mathlib.Tactic.IntervalCases
import Mathlib.Tactic.Ring

/-! # Hexadecimal text reads back

The digits of a number are cut out of it in halves, and leading zeros are dropped or filled up.  Neither
changes the number that the digits denote (`Source.numberOf`): a block of digits denotes the lowest digits of
its number (`numberOf_hexBlock`), and a zero in front adds nothing (`numberOf_dropWhile`,
`numberOf_leftpad`).  A number without leading zeros has as many digits as it needs, so it is filled up to
any number of digits that can hold it (`hexPadded_spec`). -/

namespace ControlStore

open Source

/-! ### The number of a list of digits -/

/-- The digits are written with the most significant one first. -/
theorem numberOf_eq_ofDigits (base : Nat) (digits : List Char) :
    numberOf base digits = Nat.ofDigits base (digits.map digitValue).reverse := by
  have hstep : (fun n x => n * base + digitValue x) = fun n x => digitValue x + base * n := by
    funext n x
    ring
  rw [numberOf, hstep, Nat.ofDigits_eq_foldr, List.foldr_reverse, List.foldl_map]
  rfl

theorem numberOf_append (base : Nat) (upper lower : List Char) :
    numberOf base (upper ++ lower) = numberOf base upper * base ^ lower.length + numberOf base lower := by
  simp only [numberOf_eq_ofDigits, List.map_append, List.reverse_append, Nat.ofDigits_append, List.length_reverse,
    List.length_map]
  ring

theorem numberOf_cons (base : Nat) (x : Char) (digits : List Char) :
    numberOf base (x :: digits) = digitValue x * base ^ digits.length + numberOf base digits := by
  rw [← List.singleton_append, numberOf_append]
  simp [numberOf]

theorem numberOf_zero_cons (base : Nat) (digits : List Char) :
    numberOf base ('0' :: digits) = numberOf base digits := by
  have hzero : digitValue '0' = 0 := rfl
  rw [numberOf_cons, hzero, Nat.zero_mul, Nat.zero_add]

theorem numberOf_dropWhile (base : Nat) (digits : List Char) :
    numberOf base (digits.dropWhile (· = '0')) = numberOf base digits := by
  induction digits with
  | nil => rfl
  | cons x digits ih =>
      rw [List.dropWhile_cons]
      split
      · next hx =>
        obtain rfl : x = '0' := by simpa using hx
        rw [ih, numberOf_zero_cons]
      · rfl

theorem numberOf_leftpad (base count : Nat) (digits : List Char) :
    numberOf base (digits.leftpad count '0') = numberOf base digits := by
  unfold List.leftpad
  induction count - digits.length with
  | zero => rfl
  | succ k ih => rw [List.replicate_succ, List.cons_append, numberOf_zero_cons, ih]

/-! ### Digits of a number -/

/-- The lowercase hexadecimal digits. -/
def isLowerHexDigit (x : Char) : Bool := x.isDigit || ('a' ≤ x && x ≤ 'f')

theorem digitValue_digitChar {d : Nat} (h : d < 16) : digitValue (Nat.digitChar d) = d := by
  interval_cases d <;> rfl

theorem isLowerHexDigit_digitChar {d : Nat} (h : d < 16) : isLowerHexDigit (Nat.digitChar d) = true := by
  interval_cases d <;> rfl

theorem exists_digit_of_mem_hexBlock {level n : Nat} {x : Char} (h : x ∈ hexBlock level n) :
    ∃ d < 16, x = Nat.digitChar d := by
  induction level generalizing n with
  | zero => exact ⟨n % 16, Nat.mod_lt _ (by decide), List.mem_singleton.mp h⟩
  | succ level ih => exact (List.mem_append.mp h).elim ih ih

/-- A block denotes the lowest digits of its number. -/
theorem numberOf_hexBlock (level n : Nat) : numberOf 16 (hexBlock level n) = n % 16 ^ 2 ^ level := by
  induction level generalizing n with
  | zero =>
      have hdigit : n % 16 < 16 := Nat.mod_lt _ (by decide)
      rw [hexBlock, numberOf_cons, digitValue_digitChar hdigit]
      simp [numberOf]
  | succ level ih =>
      have hhalf : 2 ^ (4 * 2 ^ level) = 16 ^ 2 ^ level := by rw [Nat.pow_mul]
      have hwhole : 16 ^ 2 ^ (level + 1) = 16 ^ 2 ^ level * 16 ^ 2 ^ level := by
        rw [Nat.pow_succ, Nat.mul_two, Nat.pow_add]
      simp only [hexBlock, twoPow_eq]
      rw [numberOf_append, ih, ih, length_hexBlock, twoPow_eq, Nat.shiftRight_eq_div_pow, hhalf, hwhole, Nat.mod_mod,
        Nat.mod_mul, Nat.mul_comm, Nat.add_comm]

/-- The block of a number holds all of its digits. -/
theorem lt_hexLevel (n : Nat) : n < 16 ^ 2 ^ hexLevel n := by
  have hdigits : n.log2 / 4 + 1 < 2 ^ hexLevel n := Nat.lt_log2_self
  calc n < 2 ^ (n.log2 + 1) := Nat.lt_log2_self
    _ ≤ 2 ^ (4 * (n.log2 / 4 + 1)) := Nat.pow_le_pow_right (by decide) (by omega)
    _ = 16 ^ (n.log2 / 4 + 1) := by rw [Nat.pow_mul]
    _ ≤ 16 ^ 2 ^ hexLevel n := Nat.pow_le_pow_right (by decide) (Nat.le_of_lt hdigits)

/-- Zero is one digit, and every other number starts with a digit that is not zero. -/
theorem hexDigits_cases (n : Nat) : (n = 0 ∧ hexDigits n = ['0']) ∨
    ∃ d rest, hexDigits n = Nat.digitChar d :: rest ∧ 0 < d ∧ d < 16 ∧ numberOf 16 (hexDigits n) = n ∧
      ∀ x ∈ rest, isLowerHexDigit x = true := by
  have hnumber : numberOf 16 ((hexBlock (hexLevel n) n).dropWhile (· = '0')) = n := by
    rw [numberOf_dropWhile, numberOf_hexBlock, Nat.mod_eq_of_lt (lt_hexLevel n)]
  unfold hexDigits
  cases hdrop : (hexBlock (hexLevel n) n).dropWhile (· = '0') with
  | nil =>
      rw [hdrop] at hnumber
      exact .inl ⟨hnumber.symm, rfl⟩
  | cons x rest =>
      have hmem : ∀ y ∈ x :: rest, ∃ d < 16, y = Nat.digitChar d := by
        intro y hy
        rw [← hdrop] at hy
        exact exists_digit_of_mem_hexBlock (List.dropWhile_subset _ hy)
      obtain ⟨d, hd, rfl⟩ := hmem x List.mem_cons_self
      have hfirst := List.head?_dropWhile_not (fun y => decide (y = '0')) (hexBlock (hexLevel n) n)
      rw [hdrop] at hfirst hnumber
      refine .inr ⟨d, rest, rfl, Nat.pos_of_ne_zero ?_, hd, hnumber, fun y hy => ?_⟩
      · rintro rfl
        simp at hfirst
      · obtain ⟨e, he, rfl⟩ := hmem y (List.mem_cons_of_mem _ hy)
        exact isLowerHexDigit_digitChar he

theorem numberOf_hexDigits (n : Nat) : numberOf 16 (hexDigits n) = n := by
  rcases hexDigits_cases n with ⟨rfl, hzero⟩ | ⟨_, _, _, _, _, hnumber, _⟩
  · rw [hzero]
    rfl
  · exact hnumber

theorem isLowerHexDigit_of_mem_hexDigits {n : Nat} {x : Char} (h : x ∈ hexDigits n) :
    isLowerHexDigit x = true := by
  rcases hexDigits_cases n with ⟨-, hzero⟩ | ⟨d, rest, hdigits, -, hd, -, hrest⟩
  · rw [hzero] at h
    obtain rfl := List.mem_singleton.mp h
    rfl
  · rw [hdigits] at h
    rcases List.mem_cons.mp h with rfl | h
    · exact isLowerHexDigit_digitChar hd
    · exact hrest x h

theorem length_hexDigits_le {count n : Nat} (hcount : 0 < count) (h : n < 16 ^ count) :
    (hexDigits n).length ≤ count := by
  rcases hexDigits_cases n with ⟨-, hzero⟩ | ⟨d, rest, hdigits, hpos, hd, hnumber, -⟩
  · rw [hzero]
    exact hcount
  · rw [hdigits, numberOf_cons, digitValue_digitChar hd] at hnumber
    have hpow : 16 ^ rest.length < 16 ^ count := by
      have := Nat.le_mul_of_pos_left (16 ^ rest.length) hpos
      omega
    rw [hdigits, List.length_cons]
    exact (Nat.pow_lt_pow_iff_right (by decide)).mp hpow

/-- A number that fits `count` digits is written with `count` lowercase digits, and they denote it. -/
theorem hexPadded_spec {count n : Nat} (hcount : 0 < count) (h : n < 16 ^ count) :
    (hexPadded count n).toList.length = count ∧ (∀ x ∈ (hexPadded count n).toList, isLowerHexDigit x = true) ∧
      numberOf 16 (hexPadded count n).toList = n := by
  have hlength := length_hexDigits_le hcount h
  unfold hexPadded
  rw [String.toList_ofList, numberOf_leftpad]
  refine ⟨?_, fun x hx => ?_, ?_⟩
  · rw [List.length_leftpad]
    omega
  · have hzero : isLowerHexDigit '0' = true := rfl
    rcases List.mem_append.mp hx with hx | hx
    · rw [List.eq_of_mem_replicate hx, hzero]
    · exact isLowerHexDigit_of_mem_hexDigits hx
  · exact numberOf_hexDigits n

end ControlStore
