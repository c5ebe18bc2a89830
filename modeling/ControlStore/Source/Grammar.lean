import ControlStore.Source.File
import ControlStore.Source.Parser

/-! # Reading flow files

```
file        = blanks signals neutral? step* end
signals     = "signals" "{" declaration* "}"
declaration = ident ":" number ("=" number)? ";"
neutral     = "neutral" block
step        = "step" block
block       = "{" assignment* "}"
assignment  = ident ("<-" ident | "=" "raw" number | "=" "_" | "=" number) ";"
```

Blanks and comments may stand between any two of these parts.  A name starts with a letter or an
underscore; a number is decimal, or hexadecimal after `0x`, or binary after `0b`. -/

namespace ControlStore.Source

/-! ### Characters, numbers and braces -/

/-- The characters a name may start with. -/
def isIdentStart (c : Char) : Bool := c.isAlpha || c = '_'

/-- The characters a name may go on with. -/
def isIdentChar (c : Char) : Bool := c.isAlphanum || c = '_'

theorem isIdentChar_of_isIdentStart {c : Char} (h : isIdentStart c = true) : isIdentChar c = true := by
  simp only [isIdentStart, isIdentChar, Char.isAlphanum, Bool.or_eq_true] at h ⊢
  exact h.imp_left .inl

/-- The hexadecimal digits of either case. -/
def isHexDigit (c : Char) : Bool := c.isDigit || ('a' ≤ c && c ≤ 'f') || ('A' ≤ c && c ≤ 'F')

/-- The value of a hexadecimal digit of either case. -/
def digitValue (c : Char) : Nat :=
  if c.isDigit then c.toNat - '0'.toNat
  else if 'a' ≤ c && c ≤ 'f' then c.toNat - 'a'.toNat + 10
  else c.toNat - 'A'.toNat + 10

/-- The number that the digits denote in the given base. -/
def numberOf (base : Nat) (digits : List Char) : Nat :=
  digits.foldl (fun n c => n * base + digitValue c) 0

/-- `{` -/
def openBrace : String := "\x7b"

/-- `}` -/
def closeBrace : String := "\x7d"

namespace Parser

/-- The hexadecimal digits after `0x`. -/
def hex : Parser Nat := rule .hex do
  word "0x"
  return numberOf 16 (← takeWhile1 isHexDigit)

/-- The binary digits after `0b`. -/
def bin : Parser Nat := rule .bin do
  word "0b"
  return numberOf 2 (← takeWhile1 fun c => c = '0' || c = '1')

/-- Decimal digits. -/
def dec : Parser Nat := rule .dec do
  return numberOf 10 (← takeWhile1 Char.isDigit)

/-- A number in one of the three notations. -/
def number : Parser Number := rule .number do
  let start ← position
  let value ← hex <|> bin <|> dec
  return ⟨value, ⟨start, ← position⟩⟩

/-- A name. -/
def ident : Parser Ident := rule .ident do
  let start ← position
  notFollowedBy fun c => !isIdentStart c
  let name ← takeWhile1 isIdentChar
  return ⟨String.ofList name, ⟨start, ← position⟩⟩

/-! ### Assignments and blocks -/

/-- The word `raw`, not as the beginning of a longer name. -/
def rawKeyword : Parser Unit := rule .rawKeyword do
  word "raw"
  notFollowedBy isIdentChar

/-- The sign `_`, not as the beginning of a longer name. -/
def absentKeyword : Parser Unit := rule .absentKeyword do
  word "_"
  notFollowedBy isIdentChar

/-- `<- signal` -/
def forward : Parser RightSide := rule .forward do
  word "<-"
  blanks
  return .forward (← ident)

/-- `= raw number` -/
def raw : Parser RightSide := rule .raw do
  word "="
  blanks
  rawKeyword
  blanks
  return .raw (← number)

/-- `= _` -/
def absent : Parser RightSide := rule .absent do
  word "="
  blanks
  absentKeyword
  return .absent

/-- `= number` -/
def constant : Parser RightSide := rule .constant do
  word "="
  blanks
  return .constant (← number)

/-- An assignment with its closing semicolon. -/
def assignment : Parser Assign := rule .assignment do
  let start ← position
  let target ← ident
  blanks
  let source ← forward <|> raw <|> absent <|> constant
  blanks
  word ";"
  return ⟨target, source, ⟨start, ← position⟩⟩

/-- Assignments between braces. -/
def block : Parser Block := rule .block do
  let start ← position
  word openBrace
  blanks
  let assignments ← many assignment
  blanks
  word closeBrace
  return ⟨assignments, ⟨start, ← position⟩⟩

/-! ### Files -/

/-- `= number` behind the width of a signal. -/
def init : Parser Number := rule .init do
  word "="
  blanks
  number

/-- The declaration of a signal. -/
def declaration : Parser Declaration := rule .declaration do
  let name ← ident
  blanks
  word ":"
  blanks
  let width ← number
  blanks
  let init ← optional init
  blanks
  word ";"
  return ⟨name, width, init⟩

/-- The declarations of all signals. -/
def signals : Parser (List Declaration) := rule .signals do
  word "signals"
  blanks
  word openBrace
  blanks
  let declarations ← many declaration
  blanks
  word closeBrace
  return declarations

/-- The neutral block. -/
def neutral : Parser Block := rule .neutral do
  word "neutral"
  blanks
  block

/-- The block of a control step. -/
def step : Parser Block := rule .step do
  word "step"
  blanks
  block

/-- A whole flow file. -/
def file : Parser FlowFile := rule .file do
  blanks
  let signals ← signals
  blanks
  let neutral ← optional neutral
  blanks
  let steps ← many step
  blanks
  rule .endOfInput endOfText
  return ⟨signals, neutral, steps⟩

end Parser

/-- The flow file written in `text`. -/
def FlowFile.parse (text : String) : Except SyntaxError FlowFile :=
  match Parser.file ⟨0, text.toList⟩ .none with
  | (some (file, _), _) => .ok file
  | (none, attempts) => .error (.ofAttempts attempts)

end ControlStore.Source
