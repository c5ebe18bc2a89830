import ControlStore.Diagnostic

/-! # Flow files

The syntax tree of a flow file: declarations of signals, an optional neutral block, and one block
per control step.  Names, numbers, assignments and blocks remember the bytes they were read from. -/

namespace ControlStore.Source

/-- A name and where it stands. -/
structure Ident where
  name : String
  span : Span
deriving DecidableEq

/-- A number and where it stands. -/
structure Number where
  value : Nat
  span : Span
deriving DecidableEq

/-- The declaration `name : width;` or `name : width = init;`. -/
structure Declaration where
  name : Ident
  width : Number
  init : Option Number
deriving DecidableEq

/-- The right-hand side of an assignment. -/
inductive RightSide where
  /-- `= number` -/
  | constant (number : Number)
  /-- `= raw number` -/
  | raw (number : Number)
  /-- `<- signal` -/
  | forward (signal : Ident)
  /-- `= _` -/
  | absent
deriving DecidableEq

/-- An assignment, from its target to the closing semicolon. -/
structure Assign where
  target : Ident
  source : RightSide
  span : Span
deriving DecidableEq

/-- A block of assignments, from brace to brace. -/
structure Block where
  assignments : List Assign
  span : Span
deriving DecidableEq

/-- A flow file. -/
structure FlowFile where
  signals : List Declaration
  neutral : Option Block
  steps : List Block
deriving DecidableEq

end ControlStore.Source
