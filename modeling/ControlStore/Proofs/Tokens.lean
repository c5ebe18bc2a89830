import ControlStore.Proofs.HexText
import ControlStore.Proofs.Scanning
import Mathlib.Data.List.Forall2
import Mathlib.Tactic.IntervalCases

/-! # Names and numbers

A name is read as far as it goes, so `ident` gives the names that no letter, digit or underscore
follows.  The three notations of numbers are tried one after the other.  What is read is a number
(`number_sound`), and a number that no letter, digit or underscore follows is read
(`number_complete`): behind a `0` that is all of the number no mark can stand. -/

namespace ControlStore.Source

/-! ### Classes of characters -/

theorem startsToken_of {cls : Char → Bool} {x : Char} (hx : cls x = true)
    (hcls : [' ', '\t', '\n', '\r', '/'].all (!cls ·) = true) : startsToken x = true := by
  by_contra hnot
  have hmem : x ∈ [' ', '\t', '\n', '\r', '/'] := by
    simp only [startsToken, Parser.isBlank, Bool.and_eq_true, Bool.not_eq_true', bne_iff_ne,
      Bool.or_eq_false_iff, decide_eq_false_iff_not] at hnot
    simp only [List.mem_cons, List.not_mem_nil, or_false]
    tauto
  have hfalse := List.all_eq_true.mp hcls x hmem
  simp [hx] at hfalse

/-- Letters, digits and underscores start neither a blank nor a comment. -/
theorem Blanks.eq_or_not_faces {c c' : Cursor} (h : Blanks c c') :
    c = c' ∨ ¬ c.Faces isIdentChar := by
  have hcls : [' ', '\t', '\n', '\r', '/'].all (!isIdentChar ·) = true := by decide
  cases h with
  | none => exact .inl rfl
  | blank hx text more =>
    refine .inr ?_
    rw [text.faces_iff]
    intro hident
    have htoken := startsToken_of hident hcls
    simp [startsToken, hx] at htoken
  | comment text more =>
    obtain ⟨⟨body, htext, _⟩, _⟩ := text
    refine .inr ?_
    rw [htext.faces_iff]
    decide

theorem Blanks.not_faces {c c' : Cursor} (h : Blanks c c') (hc' : ¬ c'.Faces isIdentChar) :
    ¬ c.Faces isIdentChar := by
  rcases h.eq_or_not_faces with rfl | hfaces
  · exact hc'
  · exact hfaces

/-! ### Digits -/

theorem toNat_of_isDigit {x : Char} (h : x.isDigit = true) : 48 ≤ x.toNat ∧ x.toNat ≤ 57 := by
  simpa [Char.isDigit, UInt32.le_iff_toNat_le] using h

theorem digitOf_digitValue {x : Char} (h : isHexDigit x = true) : DigitOf 16 x (digitValue x) := by
  have hx : Char.ofNat x.toNat = x := Char.ofNat_toNat x
  simp only [isHexDigit, Char.isDigit, Bool.or_eq_true, Bool.and_eq_true, decide_eq_true_eq,
    Char.le_def, UInt32.le_iff_toNat_le, ge_iff_le] at h
  have hn : 48 ≤ x.toNat ∧ x.toNat ≤ 57 ∨ 97 ≤ x.toNat ∧ x.toNat ≤ 102 ∨
      65 ≤ x.toNat ∧ x.toNat ≤ 70 := by
    rcases h with (h | h) | h
    · exact .inl h
    · exact .inr (.inl h)
    · exact .inr (.inr h)
  rw [← hx]
  generalize x.toNat = n at hn
  unfold DigitOf
  rcases hn with ⟨hlow, hhigh⟩ | ⟨hlow, hhigh⟩ | ⟨hlow, hhigh⟩ <;> interval_cases n <;> decide

/-- What a digit of at most sixteen is, in the classes of characters that numbers are read by. -/
theorem DigitOf.classes {base v : Nat} {x : Char} (hbase : base ≤ 16) (h : DigitOf base x v) :
    digitValue x = v ∧ isIdentChar x = true ∧ isHexDigit x = true ∧ (v < 10 → x.isDigit = true) ∧
      (v < 2 → x = '0' ∨ x = '1') := by
  obtain ⟨hv, hx⟩ := h
  have hv' : v < 16 := by omega
  clear hv
  interval_cases v <;> rcases hx with rfl | rfl <;> decide

theorem isHexDigit_iff {x : Char} : isHexDigit x = true ↔ ∃ v, DigitOf 16 x v := by
  constructor
  · exact fun h => ⟨digitValue x, digitOf_digitValue h⟩
  · rintro ⟨v, hv⟩
    exact (hv.classes (Nat.le_refl 16)).2.2.1

theorem isDigit_iff {x : Char} : x.isDigit = true ↔ ∃ v, DigitOf 10 x v := by
  constructor
  · intro h
    have hdigit := digitOf_digitValue (show isHexDigit x = true by simp [isHexDigit, h])
    have hvalue : digitValue x = x.toNat - 48 := by simp [digitValue, h]
    have hrange := toNat_of_isDigit h
    exact ⟨digitValue x, by omega, hdigit.2⟩
  · rintro ⟨v, hv⟩
    exact (hv.classes (by decide)).2.2.2.1 hv.1

theorem isBit_iff {x : Char} : (decide (x = '0') || decide (x = '1')) = true ↔ ∃ v, DigitOf 2 x v := by
  rw [Bool.or_eq_true, decide_eq_true_eq, decide_eq_true_eq]
  constructor
  · rintro (rfl | rfl)
    · exact ⟨0, by decide, .inl rfl⟩
    · exact ⟨1, by decide, .inl rfl⟩
  · rintro ⟨v, hv⟩
    exact (hv.classes (by decide)).2.2.2.2 hv.1

theorem map_digitValue {base : Nat} (hbase : base ≤ 16) {digits : List Char} {values : List Nat}
    (h : List.Forall₂ (DigitOf base) digits values) : digits.map digitValue = values := by
  induction h with
  | nil => rfl
  | cons hx _ ih => rw [List.map_cons, (hx.classes hbase).1, ih]

theorem numberOf_eq {base : Nat} (hbase : base ≤ 16) {digits : List Char} {values : List Nat}
    (h : List.Forall₂ (DigitOf base) digits values) :
    numberOf base digits = Nat.ofDigits base values.reverse := by
  rw [numberOf_eq_ofDigits, map_digitValue hbase h]

theorem exists_values {cls : Char → Bool} {base : Nat}
    (hcls : ∀ x, cls x = true ↔ ∃ v, DigitOf base x v) {digits : List Char} :
    (∀ x ∈ digits, cls x = true) ↔ ∃ values, List.Forall₂ (DigitOf base) digits values := by
  constructor
  · intro h
    induction digits with
    | nil => exact ⟨[], .nil⟩
    | cons x digits ih =>
      obtain ⟨v, hv⟩ := (hcls x).mp (h x List.mem_cons_self)
      obtain ⟨values, hvalues⟩ := ih fun y hy => h y (List.mem_cons_of_mem x hy)
      exact ⟨v :: values, .cons hv hvalues⟩
  · rintro ⟨values, h⟩ x hx
    induction h with
    | nil => simp at hx
    | cons hv hrest ih =>
      rcases List.mem_cons.mp hx with rfl | hx
      · exact (hcls _).mpr ⟨_, hv⟩
      · exact ih hx

/-- Where no name goes on, no digit follows. -/
theorem not_faces_digit {cls : Char → Bool} {base : Nat} (hbase : base ≤ 16)
    (hcls : ∀ x, cls x = true ↔ ∃ v, DigitOf base x v) {c : Cursor}
    (h : ¬ c.Faces isIdentChar) : ¬ c.Faces cls := by
  simp only [Cursor.Faces, Option.any_eq_true] at h ⊢
  rintro ⟨x, hx, hdigit⟩
  obtain ⟨v, hv⟩ := (hcls x).mp hdigit
  exact h ⟨x, hx, (hv.classes hbase).2.1⟩

namespace Parser

variable {c c' : Cursor} {t : Attempts}

/-! ### Names -/

theorem ident_iff {i : Ident} :
    (ident c t).1 = some (i, c') ↔ i.Spelled c c' ∧ ¬ c'.Faces isIdentChar := by
  simp only [ident, rule_fst, bind_iff, position_iff, notFollowedBy_iff, takeWhile1_iff, pure_iff]
  constructor
  · rintro ⟨_, _, ⟨rfl, rfl⟩, _, _, ⟨hstart, rfl⟩, name, _, ⟨hne, htext, hall, hstop⟩, _, _, ⟨rfl, rfl⟩,
      rfl, rfl⟩
    cases name with
    | nil => exact absurd rfl hne
    | cons x xs =>
      rw [htext.faces_iff] at hstart
      exact ⟨.intro (by simpa using hstart) (fun y hy => hall y (List.mem_cons_of_mem x hy)) htext,
        hstop⟩
  · rintro ⟨⟨hx, hxs, htext⟩, hstop⟩
    refine ⟨_, _, ⟨rfl, rfl⟩, (), _, ⟨?_, rfl⟩, _, _, ⟨List.cons_ne_nil _ _, htext, ?_, hstop⟩, _, _,
      ⟨rfl, rfl⟩, rfl, rfl⟩
    · rw [htext.faces_iff, hx]
      decide
    · intro y hy
      rcases List.mem_cons.mp hy with rfl | hy
      · exact isIdentChar_of_isIdentStart hx
      · exact hxs y hy

/-! ### Numbers -/

section
variable {cls : Char → Bool} {base : Nat}

theorem digits_iff (hbase : base ≤ 16) (hcls : ∀ x, cls x = true ↔ ∃ v, DigitOf base x v)
    {v : Nat} :
    ((do return numberOf base (← takeWhile1 cls) : Parser Nat) c t).1 = some (v, c') ↔
      Numeral [] base v c c' ∧ ¬ c'.Faces cls := by
  simp only [bind_iff, takeWhile1_iff, pure_iff, exists_values hcls]
  constructor
  · rintro ⟨digits, _, ⟨hne, htext, ⟨values, hvalues⟩, hstop⟩, rfl, rfl⟩
    rw [numberOf_eq hbase hvalues]
    exact ⟨.intro hne hvalues htext, hstop⟩
  · rintro ⟨⟨hne, hvalues, htext⟩, hstop⟩
    exact ⟨_, c', ⟨hne, htext, ⟨_, hvalues⟩, hstop⟩, (numberOf_eq hbase hvalues).symm, rfl⟩

theorem marked_iff (hbase : base ≤ 16) (hcls : ∀ x, cls x = true ↔ ∃ v, DigitOf base x v)
    {mark : String} {v : Nat} :
    ((do word mark; return numberOf base (← takeWhile1 cls) : Parser Nat) c t).1 = some (v, c') ↔
      Numeral mark.toList base v c c' ∧ ¬ c'.Faces cls := by
  rw [bind_iff]
  simp only [word_iff, digits_iff hbase hcls]
  constructor
  · rintro ⟨_, c₁, hmark, ⟨hne, hvalues, htext⟩, hstop⟩
    exact ⟨.intro hne hvalues (hmark.append htext), hstop⟩
  · rintro ⟨⟨hne, hvalues, htext⟩, hstop⟩
    obtain ⟨c₁, hmark, hdigits⟩ := htext.split
    exact ⟨(), c₁, hmark, .intro hne hvalues hdigits, hstop⟩

end

theorem hex_iff {v : Nat} :
    (hex c t).1 = some (v, c') ↔ Numeral ['0', 'x'] 16 v c c' ∧ ¬ c'.Faces isHexDigit := by
  rw [hex, rule_fst, marked_iff (by decide) fun _ => isHexDigit_iff]
  rfl

theorem bin_iff {v : Nat} :
    (bin c t).1 = some (v, c') ↔
      Numeral ['0', 'b'] 2 v c c' ∧ ¬ c'.Faces fun x => x = '0' || x = '1' := by
  rw [bin, rule_fst, marked_iff (by decide) fun _ => isBit_iff]
  rfl

theorem dec_iff {v : Nat} :
    (dec c t).1 = some (v, c') ↔ Numeral [] 10 v c c' ∧ ¬ c'.Faces Char.isDigit := by
  rw [dec, rule_fst, digits_iff (by decide) fun _ => isDigit_iff]

theorem number_sound {n : Number} (h : (number c t).1 = some (n, c')) : n.Spelled c c' := by
  simp only [number, rule_fst, bind_iff, position_iff, orElse_iff, pure_iff, hex_iff, bin_iff,
    dec_iff] at h
  obtain ⟨_, _, ⟨rfl, rfl⟩, v, _, hvalue, _, _, ⟨rfl, rfl⟩, rfl, rfl⟩ := h
  rcases hvalue with ⟨hex, _⟩ | ⟨_, ⟨bin, _⟩ | ⟨_, dec, _⟩⟩
  · exact .intro .hex hex
  · exact .intro .bin bin
  · exact .intro .dec dec

/-- A decimal number that ends before a place where no name goes on is not the `0` of a mark. -/
theorem isDigit_second {v : Nat} (h : Numeral [] 10 v c c') (hstop : ¬ c'.Faces isIdentChar)
    {x y : Char} {rest : List Char} (hrest : c.rest = x :: y :: rest) (hy : isIdentChar y = true) :
    y.isDigit = true := by
  obtain ⟨hne, hvalues, htext⟩ := h
  have hdigits := (exists_values fun _ => isDigit_iff).mpr ⟨_, hvalues⟩
  have hboth := htext.rest.symm.trans hrest
  rename_i digits values
  match digits, hdigits with
  | [], _ => exact absurd rfl hne
  | [d], _ =>
    simp only [List.nil_append, List.cons_append, List.cons.injEq] at hboth
    exact absurd (by simp [Cursor.Faces, hboth.2, hy]) hstop
  | d :: e :: digits, hdigits =>
    simp only [List.nil_append, List.cons_append, List.cons.injEq] at hboth
    obtain ⟨_, rfl, _⟩ := hboth
    exact hdigits e (by simp)

theorem hex_eq_none (h : ∀ rest, c.rest ≠ '0' :: 'x' :: rest) (t : Attempts) :
    (hex c t).1 = none := by
  refine eq_none_of fun v c' hhex => ?_
  obtain ⟨⟨_, _, htext⟩, _⟩ := hex_iff.mp hhex
  exact h _ htext.rest

theorem bin_eq_none (h : ∀ rest, c.rest ≠ '0' :: 'b' :: rest) (t : Attempts) :
    (bin c t).1 = none := by
  refine eq_none_of fun v c' hbin => ?_
  obtain ⟨⟨_, _, htext⟩, _⟩ := bin_iff.mp hbin
  exact h _ htext.rest

theorem number_complete {n : Number} (h : n.Spelled c c') (hstop : ¬ c'.Faces isIdentChar)
    (t : Attempts) : (number c t).1 = some (n, c') := by
  obtain ⟨radix, numeral⟩ := h
  simp only [number, rule_fst, bind_iff, position_iff, orElse_iff, pure_iff]
  refine ⟨_, _, ⟨rfl, rfl⟩, _, _, ?_, _, _, ⟨rfl, rfl⟩, rfl, rfl⟩
  cases radix with
  | hex =>
    exact .inl (hex_iff.mpr ⟨numeral, not_faces_digit (by decide) (fun _ => isHexDigit_iff) hstop⟩)
  | bin =>
    refine .inr ⟨hex_eq_none ?_ t, .inl (bin_iff.mpr
      ⟨numeral, not_faces_digit (by decide) (fun _ => isBit_iff) hstop⟩)⟩
    intro rest hrest
    obtain ⟨_, _, htext⟩ := numeral
    simp [htext.rest] at hrest
  | dec =>
    refine .inr ⟨hex_eq_none ?_ t, .inr ⟨bin_eq_none ?_ _, dec_iff.mpr
      ⟨numeral, not_faces_digit (by decide) (fun _ => isDigit_iff) hstop⟩⟩⟩
    · intro rest hrest
      exact absurd (isDigit_second numeral hstop hrest (by decide)) (by decide)
    · intro rest hrest
      exact absurd (isDigit_second numeral hstop hrest (by decide)) (by decide)

end Parser

/-! ### How names and numbers start -/

theorem Ident.Spelled.starts {i : Ident} {c c' : Cursor} (h : i.Spelled c c') :
    ∃ x xs, Stretch (x :: xs) c c' ∧ isIdentStart x = true := by
  obtain ⟨hx, _, htext⟩ := h
  exact ⟨_, _, htext, hx⟩

theorem Ident.Spelled.settled {i : Ident} {c c' : Cursor} (h : i.Spelled c c') : c.Settled := by
  obtain ⟨x, xs, htext, hx⟩ := h.starts
  exact htext.settled (startsToken_of hx (by decide))

theorem Ident.Spelled.shorter {i : Ident} {c c' : Cursor} (h : i.Spelled c c') :
    c'.rest.length < c.rest.length := by
  obtain ⟨x, xs, htext, _⟩ := h.starts
  exact htext.shorter

theorem Number.Spelled.starts {n : Number} {c c' : Cursor} (h : n.Spelled c c') :
    ∃ x xs, Stretch (x :: xs) c c' ∧ x.isDigit = true := by
  obtain ⟨radix, ⟨hne, hvalues, htext⟩⟩ := h
  cases radix with
  | hex => exact ⟨'0', _, htext, rfl⟩
  | bin => exact ⟨'0', _, htext, rfl⟩
  | dec =>
    obtain ⟨x, xs, rfl⟩ := List.exists_cons_of_ne_nil hne
    have hdigits := (exists_values fun _ => isDigit_iff).mpr ⟨_, hvalues⟩
    exact ⟨x, xs, htext, hdigits x List.mem_cons_self⟩

theorem Number.Spelled.settled {n : Number} {c c' : Cursor} (h : n.Spelled c c') : c.Settled := by
  obtain ⟨x, xs, htext, hx⟩ := h.starts
  exact htext.settled (startsToken_of hx (by decide))

theorem Number.Spelled.shorter {n : Number} {c c' : Cursor} (h : n.Spelled c c') :
    c'.rest.length < c.rest.length := by
  obtain ⟨x, xs, htext, _⟩ := h.starts
  exact htext.shorter

end ControlStore.Source
