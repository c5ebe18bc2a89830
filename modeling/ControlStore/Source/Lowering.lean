import ControlStore.Matrix
import ControlStore.Source.File
import ControlStore.Width

/-! # From flow files to flow matrices

Names are resolved, widths and literals checked.  The first violation is reported: declarations in
order, then the neutral block, then the steps.  Within a declaration a repeated name comes before
the width and the width before the initial value; within an assignment an unknown target comes
before a second assignment to it, and that before the checks of the right-hand side. -/

namespace ControlStore.Source

/-- What is wrong with a flow file that could be read. -/
inductive LoweringError where
  | declaredTwice (name : Ident) (first : Span)
  | zeroWidth (width : Number)
  | widthTooLarge (width : Number)
  | literalTooWide (number : Number) (target : String) (width : Nat)
  | unknownSignal (name : Ident)
  | assignedTwice (second : Assign) (first block : Span)
  | selfForward (assign : Assign)
  | forwardWidth (source : Ident) (sourceWidth : Nat) (target : Ident) (targetWidth : Nat)
  | invalidFlow (error : InvalidFlow)
deriving DecidableEq

/-- How a violation is reported. -/
def LoweringError.diagnostic : LoweringError → Diagnostic
  | declaredTwice name first =>
      ((Diagnostic.error s!"signal `{name.name}` declared twice").withPrimary name.span
        "duplicate declaration").withSecondary first "first declared here"
  | zeroWidth width =>
      (Diagnostic.error "zero-width signal").withPrimary width.span "width must be positive"
  | widthTooLarge width =>
      (Diagnostic.error "unsupported signal width").withPrimary width.span "width too large"
  | literalTooWide number target width =>
      ((Diagnostic.error "literal overflows its signal").withPrimary number.span
        "literal too wide").withNote s!"`{target}` is {width} bits wide"
  | unknownSignal name =>
      (Diagnostic.error s!"unknown signal `{name.name}`").withPrimary name.span "not declared"
  | assignedTwice second first block =>
      (((Diagnostic.error s!"`{second.target.name}` assigned twice in one block").withPrimary
        second.span "second assignment").withSecondary first "first assignment").withSecondary
        block "in this block"
  | selfForward assign =>
      (Diagnostic.error s!"`{assign.target.name}` forwards itself").withPrimary assign.span
        "self-forwarding"
  | forwardWidth source sourceWidth target targetWidth =>
      ((Diagnostic.error "forward width mismatch").withPrimary source.span
        s!"{sourceWidth}-bit source").withSecondary target.span s!"{targetWidth}-bit target"
  | invalidFlow error => error.diagnostic

/-- A declared signal and where its name stands. -/
structure Declared where
  signal : Signal
  span : Span
deriving DecidableEq

/-- The signals declared so far, in order. -/
abbrev Scope := List Declared

namespace Scope

/-- The number and the declaration of the signal called `name`. -/
def find? (scope : Scope) (name : String) : Option (SignalId × Declared) :=
  (scope.zipIdx.find? fun (d, _) => d.signal.name = name).map fun (d, i) => (i, d)

/-- The number and the declaration of a signal that must be declared. -/
def resolve (scope : Scope) (name : Ident) : Except LoweringError (SignalId × Declared) :=
  match scope.find? name.name with
  | some found => .ok found
  | none => .error (.unknownSignal name)

end Scope

/-- A literal for the signal `target`. -/
def lowerLiteral (number : Number) (target : String) (width : Nat) :
    Except LoweringError { bits : Bits // bits.width = width } :=
  match h : Bits.ofNat? number.value width with
  | some bits => .ok ⟨bits, (Bits.ofNat?_eq_some_iff.mp h).2⟩
  | none => .error (.literalTooWide number target width)

/-- The width of a signal. -/
def lowerWidth (width : Number) : Except LoweringError Nat :=
  if width.value = 0 then .error (.zeroWidth width)
  else if width.value < Width.limit then .ok width.value
  else .error (.widthTooLarge width)

/-- Declares one more signal. -/
def lowerDeclaration (scope : Scope) (d : Declaration) : Except LoweringError Scope := do
  if let some (_, first) := scope.find? d.name.name then
    throw (.declaredTwice d.name first.span)
  let width ← lowerWidth d.width
  let signal ← match d.init with
    | some number => do
      let init ← lowerLiteral number d.name.name width
      pure ⟨d.name.name, width, init.1, init.2⟩
    | none => pure (Signal.zeroed d.name.name width)
  return scope ++ [⟨signal, d.name.span⟩]

/-- The flow that an assignment to `target` denotes. -/
def lowerSource (scope : Scope) (target : SignalId) (signal : Signal) (a : Assign) :
    Except LoweringError Flow :=
  match a.source with
  | .constant number => do return .constant (← lowerLiteral number a.target.name signal.width).1
  | .raw number => do return .raw (← lowerLiteral number a.target.name signal.width).1
  | .forward name => do
    let (source, declared) ← scope.resolve name
    if source = target then
      throw (.selfForward a)
    if declared.signal.width = signal.width then
      return .forward source
    else
      throw (.forwardWidth name declared.signal.width a.target signal.width)
  | .absent => .ok .absent

/-- The assignments of a block lowered so far, and where each target was assigned. -/
structure BlockState where
  flow : StepFlow
  assigned : NatMap Span

/-- Lowers one more assignment of a block. -/
def lowerAssign (scope : Scope) (block : Span) (state : BlockState) (a : Assign) :
    Except LoweringError BlockState := do
  let (target, declared) ← scope.resolve a.target
  if let some first := state.assigned.get? target then
    throw (.assignedTwice a first block)
  let flow ← lowerSource scope target declared.signal a
  return ⟨state.flow.insert target flow, state.assigned.insert target a.span⟩

/-- The step flow of a block. -/
def lowerBlock (scope : Scope) (block : Block) : Except LoweringError StepFlow := do
  let state ← block.assignments.foldlM (lowerAssign scope block.span) ⟨.empty, .empty⟩
  return state.flow

/-- The flow matrix of a flow file, before it is validated. -/
def FlowFile.matrix (file : FlowFile) : Except LoweringError FlowMatrix := do
  let scope ← file.signals.foldlM lowerDeclaration []
  let declared := (scope.map Declared.signal).foldl FlowMatrix.declare .empty
  let neutral ← match file.neutral with
    | some block => lowerBlock scope block
    | none => pure .empty
  let resting := neutral.entries.foldl (fun m (target, flow) => m.setNeutral target flow) declared
  let steps ← file.steps.mapM (lowerBlock scope)
  return steps.foldl FlowMatrix.pushStep resting

/-- The flow matrix that a flow file denotes, or the first violation. -/
def FlowFile.lower (file : FlowFile) : Except LoweringError FlowMatrix := do
  let matrix ← file.matrix
  match matrix.validate with
  | .ok _ => return matrix
  | .error e => throw (.invalidFlow e)

/-- The flow matrix that a flow file denotes, if it denotes one; the first violation is reported. -/
def FlowFile.lowerReporting (file : FlowFile) (r : Reporter) : Option FlowMatrix × Reporter :=
  match file.lower with
  | .ok matrix => (some matrix, r)
  | .error e => (none, r.emit e.diagnostic)

end ControlStore.Source
