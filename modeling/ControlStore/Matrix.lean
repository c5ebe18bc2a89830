import ControlStore.Diagnostic
import ControlStore.Flow

/-! # Flow matrices

A flow matrix declares signals and gives one step flow per control step, each laid over a common
neutral flow.  `FlowMatrix.resolveStep` says what every target must receive in a step; a target that
neither the step nor the neutral flow assigns receives its initial value.  `FlowMatrix.validate`
checks that literals and forwarded signals have the widths of their targets. -/

namespace ControlStore

/-- A storage location or source signal of the design. -/
structure Signal where
  name : String
  width : Nat
  /-- The value assumed when neither the step nor the neutral flow assigns the signal. -/
  init : Bits
  init_width : init.width = width
deriving DecidableEq

/-- A signal whose initial value is zero. -/
def Signal.zeroed (name : String) (width : Nat) : Signal := ⟨name, width, .zero width, rfl⟩

/-- The flows of every control step, and the neutral flow they are laid over. -/
structure FlowMatrix where
  signals : List Signal
  neutral : StepFlow
  steps : List StepFlow
deriving DecidableEq

/-- What is wrong with one flow. -/
inductive FlowError where
  | undeclaredTarget (target : SignalId)
  | literalWidth (bits : Bits) (target : Signal)
  | selfForward (target : Signal)
  | undeclaredSource (source : SignalId)
  | forwardWidth (source target : Signal)
deriving DecidableEq

/-- The neutral block, or the block of a control step. -/
inductive BlockId where
  | neutral
  | step (index : Nat)
deriving DecidableEq

/-- A flow that does not fit its target, and the block it stands in. -/
structure InvalidFlow where
  block : BlockId
  error : FlowError
deriving DecidableEq

namespace FlowMatrix

/-- The matrix without signals and steps. -/
def empty : FlowMatrix := ⟨[], .empty, []⟩

/-- Declares a signal. -/
def addSignal (m : FlowMatrix) (name : String) (width : Nat) (init : Bits) :
    Checked (SignalId × FlowMatrix) :=
  if h : init.width = width then
    .ok (m.signals.length, { m with signals := m.signals ++ [⟨name, width, init, h⟩] })
  else
    .error .initialWidth

theorem addSignal_eq_ok (m : FlowMatrix) (s : Signal) : m.addSignal s.name s.width s.init =
    .ok (m.signals.length, { m with signals := m.signals ++ [s] }) := dif_pos s.init_width

/-- Declares a signal whose initial value is known to have its width. -/
def declare (m : FlowMatrix) (s : Signal) : FlowMatrix :=
  ((m.addSignal s.name s.width s.init).get ⟨_, m.addSignal_eq_ok s⟩).2

theorem declare_eq (m : FlowMatrix) (s : Signal) : m.declare s = { m with signals := m.signals ++ [s] } :=
  congrArg Prod.snd (Checked.get_eq (m.addSignal_eq_ok s) _)

/-- Sets the neutral flow of `target`. -/
def setNeutral (m : FlowMatrix) (target : SignalId) (flow : Flow) : FlowMatrix :=
  { m with neutral := m.neutral.insert target flow }

/-- Appends a control step. -/
def pushStep (m : FlowMatrix) (flow : StepFlow) : FlowMatrix := { m with steps := m.steps ++ [flow] }

/-- The signal with the given number. -/
def signal (m : FlowMatrix) (s : SignalId) : Checked Signal := fetch m.signals s

/-- The flow of a control step. -/
def flow (m : FlowMatrix) (step : Nat) : Checked StepFlow := fetch m.steps step

/-- The flow of a control step laid over the neutral flow. -/
def mergedFlow (m : FlowMatrix) (step : Nat) : Checked StepFlow := do
  return StepFlow.integrate m.neutral (← m.flow step)

/-- The merged flows of all control steps. -/
def mergedFlows (m : FlowMatrix) : List StepFlow := m.steps.map (StepFlow.integrate m.neutral)

/-- Every signal that the neutral flow or a step mentions, in order of declaration. -/
def targets (m : FlowMatrix) : List SignalId :=
  (NatSet.ofList ((m.steps ++ [m.neutral]).flatMap NatMap.keys)).keys

/-- What `target` receives through `flow`. -/
def resolve (m : FlowMatrix) (target : SignalId) (flow : Flow) : Checked Assignment :=
  match flow with
  | .constant bits => .ok (.value bits)
  | .raw bits => .ok (.value bits)
  | .forward source => .ok (.signal source)
  | .absent => do return .value (← m.signal target).init

/-- What every target must receive in a control step. -/
def resolveStep (m : FlowMatrix) (step : Nat) : Checked Assignments := do
  let flow ← m.mergedFlow step
  let entries ← m.targets.mapM fun t => do return (t, ← m.resolve t (StepFlow.lookup flow t))
  return NatMap.ofList entries

/-- Checks one flow against the declarations of its target and of the signal it forwards. -/
def checkFlow (m : FlowMatrix) (target : SignalId) (flow : Flow) : Except FlowError Unit :=
  match m.signals[target]? with
  | none => .error (.undeclaredTarget target)
  | some signal =>
    match flow with
    | .constant bits => if bits.width = signal.width then .ok () else .error (.literalWidth bits signal)
    | .raw bits => if bits.width = signal.width then .ok () else .error (.literalWidth bits signal)
    | .forward source =>
      if source = target then .error (.selfForward signal)
      else
        match m.signals[source]? with
        | none => .error (.undeclaredSource source)
        | some src => if src.width = signal.width then .ok () else .error (.forwardWidth src signal)
    | .absent => .ok ()

/-- Checks the flows of one block in the order of their targets. -/
def checkBlock (m : FlowMatrix) (block : BlockId) (flow : StepFlow) : Except InvalidFlow Unit :=
  flow.entries.forM fun e => (m.checkFlow e.1 e.2).mapError fun error => ⟨block, error⟩

/-- Checks the neutral flow and then every step. -/
def validate (m : FlowMatrix) : Except InvalidFlow Unit := do
  m.checkBlock .neutral m.neutral
  m.steps.zipIdx.forM fun (flow, step) => m.checkBlock (.step step) flow

end FlowMatrix

/-- How a flow error is explained. -/
def FlowError.message : FlowError → String
  | undeclaredTarget target => s!"undeclared target sig{target}"
  | literalWidth bits target =>
      s!"{bits.width}-bit literal assigned to {target.width}-bit signal `{target.name}`"
  | selfForward target => s!"signal `{target.name}` forwarded to itself"
  | undeclaredSource source => s!"undeclared source sig{source}"
  | forwardWidth source target =>
      s!"{source.width}-bit signal `{source.name}` forwarded to {target.width}-bit signal `{target.name}`"

/-- The name of a block in messages. -/
def BlockId.text : BlockId → String
  | neutral => "neutral flow"
  | step index => s!"c-step {index}"

/-- The diagnostic for an invalid flow. -/
def InvalidFlow.diagnostic (e : InvalidFlow) : Diagnostic :=
  (Diagnostic.error s!"invalid flow in {e.block.text}").withNote e.error.message

end ControlStore
