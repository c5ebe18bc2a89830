import ControlStore.Source.Attempts

/-! # Parsers

A parser reads from a cursor and keeps the record of failed attempts.  Alternatives are tried in
order and the first that succeeds is taken; a repetition takes as many items as it can.  Blanks and
comments are skipped between the parts of a sequence where the grammar says so. -/

namespace ControlStore.Source

/-- A byte position in the text, and the characters from there on. -/
structure Cursor where
  position : Nat
  rest : List Char
deriving DecidableEq

/-- A parser: on success it gives a value and the cursor behind what it read. -/
def Parser (α : Type) := Cursor → Attempts → Option (α × Cursor) × Attempts

namespace Parser

variable {α : Type}

instance : Monad Parser where
  pure a := fun c t => (some (a, c), t)
  bind p f := fun c t =>
    match p c t with
    | (none, t) => (none, t)
    | (some (a, c), t) => f a c t

instance : OrElse (Parser α) where
  orElse p q := fun c t =>
    match p c t with
    | (none, t) => q () c t
    | (some r, t) => (some r, t)

/-- The current position. -/
def position : Parser Nat := fun c t => (some (c.position, c), t)

/-- Records a failure of `p` as a failure of `rule`. -/
def rule (r : Rule) (p : Parser α) : Parser α := fun c t =>
  match p c t with
  | (none, t') => (none, t'.fail r c.position (t.countAt c.position))
  | (some s, t') => (some s, t')

/-- The result of `p`, or nothing read if it fails. -/
def optional (p : Parser α) : Parser (Option α) := fun c t =>
  match p c t with
  | (none, t) => (some (none, c), t)
  | (some (a, c), t) => (some (some a, c), t)

/-- The end of the text. -/
def endOfText : Parser Unit := fun c t => (if c.rest.isEmpty then some ((), c) else none, t)

/-! ### Characters -/

-- The sum starts at the zero of the core library, also where another reading of it is in scope.
attribute [local instance (high)] Zero.ofOfNat0

/-- The number of bytes of a text. -/
def byteCount (cs : List Char) : Nat := (cs.map Char.utf8Size).sum

/-- The given characters, one after the other. -/
def word (s : String) : Parser Unit := fun c t =>
  match s.toList.isPrefixOf? c.rest with
  | none => (none, t)
  | some rest => (some ((), ⟨c.position + byteCount s.toList, rest⟩), t)

/-- The characters up to the first that is not in the class. -/
def takeWhile (p : Char → Bool) : Parser (List Char) := fun c t =>
  let taken := c.rest.takeWhile p
  (some (taken, ⟨c.position + byteCount taken, c.rest.dropWhile p⟩), t)

/-- At least one character of the class, as many as there are. -/
def takeWhile1 (p : Char → Bool) : Parser (List Char) := do
  let taken ← takeWhile p
  if taken.isEmpty then fun _ t => (none, t) else return taken

/-- Succeeds, without reading, unless a character of the class follows. -/
def notFollowedBy (p : Char → Bool) : Parser Unit := fun c t =>
  (if c.rest.head?.any p then none else some ((), c), t)

/-! ### Blanks and repetitions -/

/-- Spaces, tabs and the characters of line ends. -/
def isBlank (c : Char) : Bool := c = ' ' || c = '\t' || c = '\n' || c = '\r'

/-- The characters that end a line. -/
def isLineEnd (c : Char) : Bool := c = '\n' || c = '\r'

/-- Skips blanks and comments.  A comment runs from two slashes to the end of the line; `comment`
tells whether the position is inside one. -/
def skipBlanks (comment : Bool) (position : Nat) : List Char → Cursor
  | [] => ⟨position, []⟩
  | c :: rest =>
    if comment then skipBlanks (!isLineEnd c) (position + c.utf8Size) rest
    else if isBlank c then skipBlanks false (position + c.utf8Size) rest
    else
      match c, rest with
      | '/', '/' :: rest => skipBlanks true (position + 2) rest
      | c, rest => ⟨position, c :: rest⟩

/-- Blanks and comments, which may be missing. -/
def blanks : Parser Unit := fun c t => (some ((), skipBlanks false c.position c.rest), t)

/-- At most `limit` further items, each after blanks; blanks before a failing item are not read. -/
def upTo (p : Parser α) : (limit : Nat) → Cursor → Attempts → (List α × Cursor) × Attempts
  | 0, c, t => (([], c), t)
  | limit + 1, c, t =>
    match p (skipBlanks false c.position c.rest) t with
    | (none, t) => (([], c), t)
    | (some (a, c'), t) =>
      let ((as, c''), t) := upTo p limit c' t
      ((a :: as, c''), t)

/-- As many items as there are, with blanks between them.  Every item reads at least one character,
so the length of the text bounds their number, and one more attempt sees the last one fail. -/
def many (p : Parser α) : Parser (List α) := fun c t =>
  match p c t with
  | (none, t) => (some ([], c), t)
  | (some (a, c'), t) =>
    let ((as, c''), t) := upTo p (c'.rest.length + 1) c' t
    (some (a :: as, c''), t)

end Parser

end ControlStore.Source
