import ControlStore.Source.Grammar
import Mathlib.Data.Nat.Digits.Defs

/-! # How flow files are spelled

The grammar of flow files as relations between two cursors: `Spelled a c c'` says that the text from
`c` up to `c'` is a way to write `a`, and that the positions `a` remembers are those of the text.
The relations say nothing about how a text is read: no order of alternatives, no longest match.

`Blanks` is what may stand between two tokens.  A comment stops before the line end that closes it;
that line end is a blank of its own, and at the end of the text there is none. -/

namespace ControlStore.Source

/-- The text from `c` up to `c'` is `cs`. -/
structure Stretch (cs : List Char) (c c' : Cursor) : Prop where
  rest : c.rest = cs ++ c'.rest
  position : c'.position = c.position + Parser.byteCount cs

/-- The next character is in the class. -/
def Cursor.Faces (p : Char → Bool) (c : Cursor) : Prop := c.rest.head?.any p = true

/-! ### Blanks -/

/-- A comment without the line end that closes it, if there is one. -/
structure Comment (c c' : Cursor) : Prop where
  text : ∃ body, Stretch ('/' :: '/' :: body) c c' ∧ ∀ x ∈ body, Parser.isLineEnd x = false
  stop : c'.rest = [] ∨ c'.Faces Parser.isLineEnd

/-- Blank characters and comments, in any number and order. -/
inductive Blanks : Cursor → Cursor → Prop
  | none (c : Cursor) : Blanks c c
  | blank {x : Char} {c c₁ c' : Cursor} (hx : Parser.isBlank x = true) (text : Stretch [x] c c₁)
      (more : Blanks c₁ c') : Blanks c c'
  | comment {c c₁ c' : Cursor} (text : Comment c c₁) (more : Blanks c₁ c') : Blanks c c'

/-! ### Names and numbers -/

/-- A name is a letter or an underscore, and any letters, digits and underscores. -/
inductive Ident.Spelled : Ident → Cursor → Cursor → Prop
  | intro {x : Char} {xs : List Char} {c c' : Cursor} (start : isIdentStart x = true)
      (others : ∀ y ∈ xs, isIdentChar y = true) (text : Stretch (x :: xs) c c') :
      Spelled ⟨String.ofList (x :: xs), ⟨c.position, c'.position⟩⟩ c c'

/-- The notations of numbers: what stands before the digits, and the base of the digits. -/
inductive Radix : List Char → Nat → Prop
  | hex : Radix ['0', 'x'] 16
  | bin : Radix ['0', 'b'] 2
  | dec : Radix [] 10

/-- `x` is a way to write the digit `v`: digits above nine are letters of either case. -/
def DigitOf (base : Nat) (x : Char) (v : Nat) : Prop :=
  v < base ∧ (x = v.digitChar ∨ x = v.digitChar.toUpper)

/-- One or more digits, the most significant one first, after `mark`. -/
inductive Numeral (mark : List Char) (base : Nat) : Nat → Cursor → Cursor → Prop
  | intro {digits : List Char} {values : List Nat} {c c' : Cursor} (nonempty : digits ≠ [])
      (denote : List.Forall₂ (DigitOf base) digits values) (text : Stretch (mark ++ digits) c c') :
      Numeral mark base (Nat.ofDigits base values.reverse) c c'

/-- A number is a numeral in one of the notations. -/
inductive Number.Spelled : Number → Cursor → Cursor → Prop
  | intro {mark : List Char} {base value : Nat} {c c' : Cursor} (radix : Radix mark base)
      (numeral : Numeral mark base value c c') : Spelled ⟨value, ⟨c.position, c'.position⟩⟩ c c'

/-! ### Phrases -/

section
variable {α : Type}

/-- The word `s`, blanks, and an item. -/
inductive After (s : String) (Item : α → Cursor → Cursor → Prop) : α → Cursor → Cursor → Prop
  | intro {a : α} {c c₁ c₂ c' : Cursor} (head : Stretch s.toList c c₁) (gap : Blanks c₁ c₂)
      (item : Item a c₂ c') : After s Item a c c'

/-- Blanks and an item, or nothing at all. -/
inductive Optional (Item : α → Cursor → Cursor → Prop) : Option α → Cursor → Cursor → Prop
  | none (c : Cursor) : Optional Item none c c
  | some {a : α} {c c₁ c' : Cursor} (gap : Blanks c c₁) (item : Item a c₁ c') :
      Optional Item (some a) c c'

/-- Items with blanks before, between and after them. -/
inductive Items (Item : α → Cursor → Cursor → Prop) : List α → Cursor → Cursor → Prop
  | nil {c c' : Cursor} (gap : Blanks c c') : Items Item [] c c'
  | cons {a : α} {as : List α} {c c₁ c₂ c' : Cursor} (gap : Blanks c c₁) (item : Item a c₁ c₂)
      (more : Items Item as c₂ c') : Items Item (a :: as) c c'

/-- Items between braces. -/
inductive Braced (Item : α → Cursor → Cursor → Prop) : List α → Cursor → Cursor → Prop
  | intro {as : List α} {c c₁ c₂ c' : Cursor} (left : Stretch openBrace.toList c c₁)
      (items : Items Item as c₁ c₂) (right : Stretch closeBrace.toList c₂ c') : Braced Item as c c'

end

/-- The four forms of a right-hand side.  Something has to stand between `raw` and its number. -/
inductive RightSide.Spelled : RightSide → Cursor → Cursor → Prop
  | forward {signal : Ident} {c c' : Cursor} (text : After "<-" Ident.Spelled signal c c') :
      Spelled (.forward signal) c c'
  | raw {number : Number} {c c₁ c₂ c₃ c₄ c' : Cursor} (sign : Stretch "=".toList c c₁)
      (gap : Blanks c₁ c₂) (keyword : Stretch "raw".toList c₂ c₃) (apart : Blanks c₃ c₄)
      (nonempty : c₃ ≠ c₄) (text : number.Spelled c₄ c') : Spelled (.raw number) c c'
  | absent {c c₁ c₂ c' : Cursor} (sign : Stretch "=".toList c c₁) (gap : Blanks c₁ c₂)
      (keyword : Stretch "_".toList c₂ c') : Spelled .absent c c'
  | constant {number : Number} {c c' : Cursor} (text : After "=" Number.Spelled number c c') :
      Spelled (.constant number) c c'

/-- A target, a right-hand side and a semicolon. -/
inductive Assign.Spelled : Assign → Cursor → Cursor → Prop
  | intro {target : Ident} {source : RightSide} {c c₁ c₂ c₃ c₄ c' : Cursor}
      (left : target.Spelled c c₁) (gap : Blanks c₁ c₂) (right : source.Spelled c₂ c₃)
      (gap' : Blanks c₃ c₄) (stop : Stretch ";".toList c₄ c') :
      Spelled ⟨target, source, ⟨c.position, c'.position⟩⟩ c c'

/-- Assignments between braces. -/
inductive Block.Spelled : Block → Cursor → Cursor → Prop
  | intro {assignments : List Assign} {c c' : Cursor}
      (text : Braced Assign.Spelled assignments c c') :
      Spelled ⟨assignments, ⟨c.position, c'.position⟩⟩ c c'

/-- A name, a colon, a width, an initial value if there is one, and a semicolon. -/
inductive Declaration.Spelled : Declaration → Cursor → Cursor → Prop
  | intro {name : Ident} {width : Number} {init : Option Number}
      {c c₁ c₂ c₃ c₄ c₅ c₆ c₇ c' : Cursor} (left : name.Spelled c c₁) (gap : Blanks c₁ c₂)
      (colon : Stretch ":".toList c₂ c₃) (gap' : Blanks c₃ c₄) (right : width.Spelled c₄ c₅)
      (initial : Optional (After "=" Number.Spelled) init c₅ c₆) (gap'' : Blanks c₆ c₇)
      (stop : Stretch ";".toList c₇ c') : Spelled ⟨name, width, init⟩ c c'

/-- The declarations, the neutral block if there is one, the steps, and the end of the text. -/
inductive FlowFile.Spelled : FlowFile → Cursor → Prop
  | intro {signals : List Declaration} {neutral : Option Block} {steps : List Block}
      {c c₁ c₂ c₃ c' : Cursor} (gap : Blanks c c₁)
      (declarations : After "signals" (Braced Declaration.Spelled) signals c₁ c₂)
      (idle : Optional (After "neutral" Block.Spelled) neutral c₂ c₃)
      (blocks : Items (After "step" Block.Spelled) steps c₃ c') (stop : c'.rest = []) :
      Spelled ⟨signals, neutral, steps⟩ c

end ControlStore.Source
