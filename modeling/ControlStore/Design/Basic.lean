import ControlStore.Design.Field
import ControlStore.Design.Report
import ControlStore.Symbol.Merging

/-! # Microcode designs

The layout of the control word: the value word at bit 0, followed by one selector field per group of
targets.  `Design.compute` packs the lanes, merges the groups and lays out the fields;
`Design.encode` gives the control word of a step, `Design.decode` what every target receives by a
word, and `Design.verifyStep` checks that the two agree with what the step requires. -/

namespace ControlStore

/-- A layout of the control word for a flow matrix. -/
structure Design where
  matrix : FlowMatrix
  /-- The lanes of the value word. -/
  packer : Packer
  /-- The content of every target in the neutral flow. -/
  neutral : Contents
  fields : List MicroField
  /-- The width of the control word. -/
  width : Nat
  /-- Whether a decoder was made for the design. -/
  decoderBuilt : Bool

namespace Design

/-- The assigned lanes. -/
def packing (d : Design) : Packing := d.packer.packing.getD .empty

/-- The content of every target in the neutral flow; a target without one keeps its initial
value. -/
def neutralContents (m : FlowMatrix) : Checked Contents := do
  let entries ← m.targets.mapM fun t => do
    let signal ← m.signal t
    return (t, Content.of (StepFlow.lookup m.neutral t) (.literal signal.init))
  return NatMap.ofList entries

/-- The flows whose literals are packed: the neutral flow and every merged step. -/
def packedFlows (m : FlowMatrix) : List StepFlow := m.neutral :: m.mergedFlows

/-- The table of every target by itself. -/
def initialTables (m : FlowMatrix) (neutral : Contents) : List SymbolTable :=
  let flows := m.mergedFlows
  neutral.entries.map fun (t, content) =>
    SymbolTable.forTarget t content (flows.map fun flow => StepFlow.lookup flow t)

/-- Warnings on selectors that are too wide to take part in merging. -/
def wideSelectors (m : FlowMatrix) (bound : Nat) (tables : List SymbolTable) : List Notice :=
  tables.flatMap fun table =>
    if bound < table.width then
      table.targets.filterMap fun t =>
        m.signals[t]?.map fun signal => .wideSelector signal.name table.width bound
    else []

/-- Places the selectors one behind the other from `offset` on; the end of the last one comes with
them. -/
def layout (offset order : Nat) : List SymbolTable → Checked (List MicroField × Nat)
  | [] => .ok ([], offset)
  | table :: rest => do
    let next ← Width.add offset table.width
    let (fields, stop) ← layout next (order + 1) rest
    return (⟨table, offset, order⟩ :: fields, stop)

/-- Computes a layout whose merged selectors are at most `bound` bits wide. -/
def compute (m : FlowMatrix) (bound : Nat) : Traced Fault (Design × Report) := do
  let neutral ← .lift (neutralContents m)
  let packer ← .lift ((packedFlows m).foldlM Packer.add .empty)
  let (packing, packer) ← .lift packer.pack
  .note packing.notice
  let tables := initialTables m neutral
  .notes (wideSelectors m bound tables)
  let initialSelectorBits ← .lift (Width.sum (tables.map SymbolTable.width))
  let merged ← .lift (mergeGroups bound tables)
  .notes merged.notices
  let valueBits ← .lift packer.width
  let (fields, width) ← .lift (layout valueBits 0 (merged.slots.filterMap id))
  let initialValueBits ← .lift packer.uncompressedWidth
  .note (.encoded width valueBits fields.length)
  let report : Report :=
    { steps := m.steps.length
      bound
      initialSelectorBits
      initialValueBits
      generations := merged.generation
      selectorBits := width - valueBits
      valueBits
      histogram := Report.histogramOf (fields.map MicroField.width) }
  return (⟨m, packer, neutral, fields, width, false⟩, report)

/-- The flow of a step laid over the neutral flow. -/
def merge (d : Design) (flow : StepFlow) : StepFlow := StepFlow.integrate d.matrix.neutral flow

/-- The content of every target under a merged flow. -/
def contentsOf (d : Design) (merged : StepFlow) : Contents :=
  d.neutral.map fun t content => Content.of (StepFlow.lookup merged t) content

/-- Writes the literals of a merged flow into their lanes. -/
def writeLanes (d : Design) (step : Nat) (merged : StepFlow) (word : ControlWord) :
    Checked ControlWord :=
  (StepFlow.rawLiterals merged).entries.foldlM (fun word (target, bits) => do
    let lane ← require (← d.packer.lane? target) (.noLaneInStep step target)
    word.write lane.offset bits) word

/-- The control word of `step` when it executes `flow`. -/
def encode (d : Design) (step : Nat) (flow : StepFlow) : Checked ControlWord := do
  let merged := d.merge flow
  let word ← d.writeLanes step merged (.zeros d.width)
  let contents := d.contentsOf merged
  d.fields.foldlM (fun word field => field.encode step contents word) word

/-- What every target receives by a control word. -/
def decode (d : Design) (word : ControlWord) : Checked Assignments := do
  let parts ← d.fields.mapM fun field => field.decode word d.packer d.matrix
  return parts.foldl NatMap.overlay .empty

/-- Checks that the control word of a step decodes to what the step requires. -/
def verifyStep (d : Design) (step : Nat) : Checked Unit := do
  let word ← d.encode step (← d.matrix.flow step)
  let decoded ← d.decode word
  let required ← d.matrix.resolveStep step
  ensure (decoded = required) (.stepMisdecodes step word.digits)

end Design

end ControlStore
