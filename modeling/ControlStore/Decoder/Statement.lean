import ControlStore.Bits
import ControlStore.Flow

/-! # Statements of decoder processes

The body of a process is a list of statements: stores of an expression into a wire, and switches
over the value of an expression.  Wires are signals of the design or signals allocated for the
decoder. -/

namespace ControlStore

/-- Signals allocated for a decoder are numbered in order of allocation. -/
abbrev LocalId := Nat

/-- A signal that a process reads or drives. -/
inductive Wire where
  /-- A signal declared in the flow matrix. -/
  | design (signal : SignalId)
  /-- A signal allocated for the decoder. -/
  | inner (index : LocalId)
deriving DecidableEq

/-- A set of wires, listed with the signals of the design first. -/
structure WireSet where
  design : NatSet
  inner : NatSet
deriving DecidableEq

namespace WireSet

/-- No wires. -/
def empty : WireSet := ⟨.empty, .empty⟩

/-- One more wire. -/
def insert (s : WireSet) : Wire → WireSet
  | .design i => { s with design := s.design.insert i () }
  | .inner i => { s with inner := s.inner.insert i () }

/-- Several more wires. -/
def insertAll (s : WireSet) (ws : List Wire) : WireSet := ws.foldl insert s

/-- The wires of a set in ascending order. -/
def toList (s : WireSet) : List Wire := s.design.keys.map .design ++ s.inner.keys.map .inner

end WireSet

/-- An expression. -/
inductive Expr where
  | literal (bits : Bits)
  /-- `width` bits of unknown value. -/
  | unknown (width : Nat)
  | read (wire : Wire)
  /-- The bits `[lsb, lsb + width)` of a wire. -/
  | slice (wire : Wire) (lsb width : Nat)
deriving DecidableEq

/-- The wire that an expression reads. -/
def Expr.wire? : Expr → Option Wire
  | read wire => some wire
  | slice wire _ _ => some wire
  | literal _ => none
  | unknown _ => none

/-- A statement. -/
inductive Stmt where
  | store (dst : Wire) (src : Expr)
  /-- Executes the case whose label equals the selector, the fallback if there is none. -/
  | switch (selector : Expr) (cases : List (Bits × List Stmt)) (fallback : Option (List Stmt))

/-! ### The wires that statements read and drive -/

mutual

/-- The wires that a statement reads, in order of occurrence. -/
def Stmt.reads : Stmt → List Wire
  | .store _ src => src.wire?.toList
  | .switch selector cases fallback =>
      selector.wire?.toList ++ readsOfCases cases ++ readsOfFallback fallback

/-- The wires that a list of statements reads. -/
def readsOf : List Stmt → List Wire
  | [] => []
  | stmt :: rest => stmt.reads ++ readsOf rest

/-- The wires that the cases of a switch read. -/
def readsOfCases : List (Bits × List Stmt) → List Wire
  | [] => []
  | (_, body) :: rest => readsOf body ++ readsOfCases rest

/-- The wires that the fallback of a switch reads. -/
def readsOfFallback : Option (List Stmt) → List Wire
  | none => []
  | some body => readsOf body

end

mutual

/-- The wires that a statement drives, in order of occurrence. -/
def Stmt.drives : Stmt → List Wire
  | .store dst _ => [dst]
  | .switch _ cases fallback => drivesOfCases cases ++ drivesOfFallback fallback

/-- The wires that a list of statements drives. -/
def drivesOf : List Stmt → List Wire
  | [] => []
  | stmt :: rest => stmt.drives ++ drivesOf rest

/-- The wires that the cases of a switch drive. -/
def drivesOfCases : List (Bits × List Stmt) → List Wire
  | [] => []
  | (_, body) :: rest => drivesOf body ++ drivesOfCases rest

/-- The wires that the fallback of a switch drives. -/
def drivesOfFallback : Option (List Stmt) → List Wire
  | none => []
  | some body => drivesOf body

end

/-! ### Procedures and processes -/

/-- A named list of statements. -/
structure Procedure where
  name : String
  body : List Stmt
  /-- Every wire that the body reads. -/
  reads : WireSet

/-- When a process is executed. -/
inductive ProcessKind where
  /-- Whenever a wire it is sensitive to changes. -/
  | comb
  /-- At every rising edge of a clock. -/
  | clocked (clock : Wire)
deriving DecidableEq

/-- A procedure that is executed again and again. -/
structure DecoderProcess where
  kind : ProcessKind
  procedure : Procedure
  sensitivity : WireSet

namespace DecoderProcess

/-- A process that is sensitive to everything it reads and to `extra`. -/
def comb (procedure : Procedure) (extra : List Wire) : DecoderProcess :=
  ⟨.comb, procedure, procedure.reads.insertAll extra⟩

/-- A process that is executed at the edges of `clock`. -/
def clocked (clock : Wire) (procedure : Procedure) : DecoderProcess :=
  ⟨.clocked clock, procedure, WireSet.empty.insert clock⟩

end DecoderProcess

end ControlStore
