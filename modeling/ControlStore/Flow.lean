import ControlStore.Bits
import ControlStore.NatMap

/-! # Flows

A flow says how one target is driven during one control step.  A step flow holds at most one flow
per target; a target it does not mention is `absent`, and `StepFlow.integrate` lays the flows of a
step over the neutral ones, an absent flow leaving the neutral one in force. -/

namespace ControlStore

/-- Signals are numbered in the order of their declarations. -/
abbrev SignalId := Nat

/-- How a target is driven during one control step. -/
inductive Flow where
  /-- A literal selected through the target's symbol. -/
  | constant (bits : Bits)
  /-- The target follows another signal. -/
  | forward (source : SignalId)
  /-- A literal stored verbatim in the target's lane of the value word. -/
  | raw (bits : Bits)
  /-- No assignment: the neutral flow applies. -/
  | absent
deriving DecidableEq

/-- What a target receives in one control step. -/
inductive Assignment where
  | value (bits : Bits)
  | signal (source : SignalId)
deriving DecidableEq

/-- What every target receives in one control step. -/
abbrev Assignments := NatMap Assignment

/-- The flows of one control step, at most one per target. -/
abbrev StepFlow := NatMap Flow

namespace StepFlow

/-- The flow of `target`; `absent` if none is given. -/
def lookup (f : StepFlow) (target : SignalId) : Flow := (f.get? target).getD .absent

/-- Sets the flow of `target` unless it is `absent`. -/
def override (f : StepFlow) (target : SignalId) (flow : Flow) : StepFlow :=
  if flow = .absent then f else f.insert target flow

/-- Lays `g` over `f`; absent flows of `g` leave those of `f` untouched. -/
def integrate (f g : StepFlow) : StepFlow :=
  g.entries.foldl (fun f e => override f e.1 e.2) f

/-- The literals that are stored verbatim. -/
def rawLiterals (f : StepFlow) : NatMap Bits :=
  f.filterMap fun _ flow =>
    match flow with
    | .raw bits => some bits
    | _ => none

end StepFlow

end ControlStore
