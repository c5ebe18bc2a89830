import ControlStore.Decoder.Statement

/-! # Building procedures step by step

A builder records a sequence of events as a statement tree: stores and switches are allowed at top
level and inside a case, cases and at most one default case directly inside a switch, and everything
that was opened has to be closed.  What is open stands on a stack.  A switch may be opened directly
inside another one; this is noticed only when it is closed.

Decoders are written for any `Recorder` of stores and switches; `Recorder.events` records them as
events. -/

namespace ControlStore

/-- One step in the construction of a body. -/
inductive BuildEvent where
  | store (dst : Wire) (src : Expr)
  | beginSwitch (selector : Expr)
  | beginCase (label : Bits)
  | beginDefault
  | endCase
  | endSwitch
deriving DecidableEq

/-- A way to record the stores and switches of a body. -/
structure Recorder (α : Type) where
  store : Wire → Expr → α
  /-- A switch with a fallback. -/
  switch : Expr → List (Bits × List α) → List α → List α

/-- Records every store as an event, and a switch as the events that open and close its cases. -/
def Recorder.events : Recorder BuildEvent where
  store := .store
  switch selector cases fallback :=
    .beginSwitch selector
      :: cases.flatMap (fun (label, body) => .beginCase label :: body ++ [.endCase])
      ++ .beginDefault :: fallback ++ [.endCase, .endSwitch]

/-- Something that was opened and is not closed yet, with what was recorded in it so far. -/
inductive Frame where
  /-- The top level. -/
  | block (body : List Stmt)
  | switch (selector : Expr) (cases : List (Bits × List Stmt)) (fallback : Option (List Stmt))
  /-- A case of the switch around it; the default case has no label. -/
  | case (label : Option Bits) (body : List Stmt)

/-- A body under construction. -/
structure Builder where
  /-- What is open, the innermost first. -/
  stack : List Frame
  /-- The wires read so far. -/
  reads : WireSet

namespace Builder

/-- Nothing recorded yet. -/
def empty : Builder := ⟨[.block []], .empty⟩

/-- Records that `e` is read. -/
def noteRead (b : Builder) (e : Expr) : Builder := { b with reads := b.reads.insertAll e.wire?.toList }

/-- Appends a statement to the innermost open case, or at top level. -/
def push (b : Builder) (stmt : Stmt) : Checked Builder :=
  match b.stack with
  | .block body :: outer => .ok { b with stack := .block (body ++ [stmt]) :: outer }
  | .case label body :: outer => .ok { b with stack := .case label (body ++ [stmt]) :: outer }
  | _ => .error .statementOutsideCase

/-- Opens something. -/
def enter (b : Builder) (frame : Frame) : Builder := { b with stack := frame :: b.stack }

/-- Adds a finished case to the switch around it. -/
def addCase (b : Builder) (label : Option Bits) (body : List Stmt) : Checked Builder :=
  match b.stack, label with
  | .switch selector cases fallback :: outer, some label =>
    .ok { b with stack := .switch selector (cases ++ [(label, body)]) fallback :: outer }
  | .switch selector cases _ :: outer, none =>
    .ok { b with stack := .switch selector cases (some body) :: outer }
  | _, _ => .error .brokenNesting

/-- Records one event. -/
def step (b : Builder) : BuildEvent → Checked Builder
  | .store dst src => (b.noteRead src).push (.store dst src)
  | .beginSwitch selector => .ok ((b.noteRead selector).enter (.switch selector [] none))
  | .beginCase label =>
    match b.stack with
    | .switch _ _ _ :: _ => .ok (b.enter (.case (some label) []))
    | _ => .error .caseOutsideSwitch
  | .beginDefault =>
    match b.stack with
    | .switch _ _ none :: _ => .ok (b.enter (.case none []))
    | _ => .error .defaultOutsideSwitch
  | .endCase =>
    match b.stack with
    | .case label body :: outer => { b with stack := outer }.addCase label body
    | _ => .error .endOfCase
  | .endSwitch =>
    match b.stack with
    | .switch selector cases fallback :: outer =>
      { b with stack := outer }.push (.switch selector cases fallback)
    | _ => .error .endOfSwitch

/-- Records a sequence of events. -/
def run (b : Builder) (events : List BuildEvent) : Checked Builder := events.foldlM step b

/-- The procedure that was recorded. -/
def complete (b : Builder) (name : String) : Checked Procedure :=
  match b.stack with
  | [.block body] => .ok ⟨name, body, b.reads⟩
  | [_] => .error .brokenNesting
  | _ => .error .unterminatedSwitch

end Builder

/-- The procedure that a sequence of events records. -/
def Procedure.ofEvents (name : String) (events : List BuildEvent) : Checked Procedure := do
  let b ← Builder.empty.run events
  b.complete name

end ControlStore
