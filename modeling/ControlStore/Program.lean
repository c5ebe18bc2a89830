import ControlStore.Decoder.Assembly
import ControlStore.Decoder.Render
import ControlStore.Rom

/-! # Microprograms

`Program.compile` turns a flow matrix into a control store, a decoder and a component that connects
the two: the component reads a control word and decodes it into the flows of its step.  Every row is
checked against the flow it encodes before it is stored. -/

namespace ControlStore

/-- What compilation relies on and does not determine itself. -/
structure Platform where
  /-- Where the names of allocated signals, ports and cells come from. -/
  names : NameGenerator
  /-- A control store has fewer rows than this. -/
  rowLimit : Nat

/-- Parameters of a microprogram. -/
structure Config where
  /-- The name of the component; the primitives are named after it. -/
  name : String := "controlpath"
  /-- The bound on the width of merged selectors. -/
  bound : Nat := 6
  mode : DecoderMode := .combinational
deriving DecidableEq

/-- Why a flow matrix could not be compiled. -/
inductive CompileError where
  | invalid (error : InvalidFlow)
  | fault (fault : Fault)
deriving DecidableEq

/-- A compiled flow matrix. -/
structure Program where
  mode : DecoderMode
  rom : Rom
  /-- The image of the store. -/
  image : String
  /-- The store and the decoder. -/
  primitives : List Primitive
  component : Component
  report : Report

/-- A decoder module as a primitive. -/
def DecoderModule.primitive (m : DecoderModule) (name : String) (mode : DecoderMode) :
    Checked Primitive := do
  let ports ← m.ports
  let text ← m.text
  return ⟨name, !mode.isStaged, ports.map .ofPort, "\n  ".intercalate (linesOf text)⟩

namespace Program

/-- The connection of a port of the decoder; clocks are connected elsewhere. -/
def connectPort (rom decoder : String) (p : Port) : Option Connection :=
  match p.usage, p.direction with
  | .clock, _ => none
  | .input, _ => some ⟨.cell decoder p.name, .cell rom "data_out"⟩
  | .plain, .input => some ⟨.cell decoder p.name, .own p.name⟩
  | .plain, .output => some ⟨.own p.name, .cell decoder p.name⟩

/-- The component that connects a store and a decoder with the given ports. -/
def connect (g : NameGenerator) (name : String) (ports : List Port) (rom : Rom)
    (romName decoderName : String) : Component :=
  let design := ports.filter fun p => p.usage = .plain
  let names := NameSupply.reserving g (design.map Port.name)
  let (address, names) := names.fresh "addr"
  let (enable, _) := names.fresh "rd_en"
  let own : List NetPort :=
    ⟨address, rom.addressWidth, .input, .none⟩ :: ⟨enable, 1, .input, .none⟩ :: design.map .ofPort
  let names := NameSupply.reserving g (own.map NetPort.name)
  let (romCell, names) := names.fresh "rom"
  let (decoderCell, _) := names.fresh "decoder"
  { name
    ports := own
    cells := [⟨romCell, romName⟩, ⟨decoderCell, decoderName⟩]
    connections :=
      ⟨.cell romCell "addr", .own address⟩ :: ⟨.cell romCell "rd_en", .own enable⟩
        :: ports.filterMap (connectPort romCell decoderCell) }

/-- Stores the control word of one more step after checking it. -/
def storeStep (d : Design) (rom : Rom) (step : Nat) : Checked Rom := do
  d.verifyStep step
  let word ← d.encode step (← d.matrix.flow step)
  rom.write step word

/-- The decoder module of a design, for a control word of at least one bit. -/
def decoderModule (g : NameGenerator) (d : Design) (mode : DecoderMode) :
    Checked DecoderModule := do
  let (cw, m) ← (DecoderModule.ofMatrix g d.matrix).allocate .input "cw" (max d.width 1)
  let (_, m) ← d.addDecoder mode m cw
  return m

/-- Compiles a flow matrix that was found valid. -/
def ofValid (e : Platform) (m : FlowMatrix) (c : Config) : Traced Fault Program := do
  let (design, report) ← Design.compute m c.bound
  let decoder ← .lift (decoderModule e.names design c.mode)
  let blank ← .lift (Rom.ofDepth e.rowLimit m.steps.length design.width)
  let rom ← .lift ((List.range m.steps.length).foldlM (storeStep design) blank)
  .note (.stored rom.depth design.width c.mode.latency)
  let romName := c.name ++ "_rom"
  let decoderName := c.name ++ "_decoder"
  let store ← .lift (rom.primitive romName)
  let primitive ← .lift (decoder.primitive decoderName c.mode)
  let ports ← .lift decoder.ports
  let image ← .lift rom.image
  return ⟨c.mode, rom, image, [store, primitive],
    connect e.names c.name ports rom romName decoderName, report⟩

/-- Compiles a flow matrix. -/
def compile (e : Platform) (m : FlowMatrix) (c : Config) : Traced CompileError Program :=
  match m.validate with
  | .error error => .lift (.error (.invalid error))
  | .ok _ => (ofValid e m c).mapError .fault

/-- The text of a program. -/
def text (p : Program) : String := String.join (p.primitives.map Primitive.text) ++ p.component.text

/-- The number of cycles from an address to the decoded flow of its step. -/
def latency (p : Program) : Nat := 1 + p.mode.latency

end Program

end ControlStore
