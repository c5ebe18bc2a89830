import ControlStore.Decoder.Module
import ControlStore.Text

/-! # Netlists

Primitives with an inline body, components that wire up cells, and how they are written. -/

namespace ControlStore

/-- What a port of a netlist is marked as. -/
inductive PortMark where
  | clock
  | data
  | none
deriving DecidableEq

/-- A port in the signature of a primitive or a component. -/
structure NetPort where
  name : String
  width : Nat
  direction : Direction
  mark : PortMark
deriving DecidableEq

namespace NetPort

/-- The port of a decoder module; only clocks are marked. -/
def ofPort (p : Port) : NetPort :=
  ⟨p.name, p.width, p.direction, if p.usage = .clock then .clock else .none⟩

/-- A port is written with its mark, its name and its width. -/
def text (p : NetPort) : String :=
  let mark := match p.mark with
    | .clock => "@clk "
    | .data => "@data "
    | .none => ""
  mark ++ p.name ++ ": " ++ toString p.width

/-- A signature lists the inputs and then the outputs. -/
def signature (ports : List NetPort) : String :=
  let side (direction : Direction) : String :=
    ", ".intercalate ((ports.filter fun p => p.direction = direction).map text)
  "(" ++ side .input ++ ") -> (" ++ side .output ++ ")"

end NetPort

/-- A cell type with an inline body. -/
structure Primitive where
  name : String
  /-- Whether the outputs depend on the inputs of the same cycle only. -/
  comb : Bool
  ports : List NetPort
  body : String
deriving DecidableEq

/-- The text of a primitive; the body brings the indentation of its further lines along. -/
def Primitive.text (p : Primitive) : String :=
  (if p.comb then "comb " else "") ++ "primitive " ++ p.name ++ NetPort.signature p.ports
    ++ " \x7b\n  " ++ p.body ++ "\n\x7d\n"

/-- One end of a connection: a port of the component itself or of one of its cells. -/
inductive PortRef where
  | own (port : String)
  | cell (name port : String)
deriving DecidableEq

/-- A port of a cell is written behind the name of the cell. -/
def PortRef.text : PortRef → String
  | own port => port
  | cell name port => name ++ "." ++ port

/-- A cell of a component. -/
structure Cell where
  name : String
  type : String
deriving DecidableEq

/-- A connection that drives `dst` from `src`. -/
structure Connection where
  dst : PortRef
  src : PortRef
deriving DecidableEq

/-- A component: cells and the connections between them. -/
structure Component where
  name : String
  ports : List NetPort
  cells : List Cell
  connections : List Connection
deriving DecidableEq

namespace Component

/-- The lines of a component. -/
def lines (c : Component) : List String :=
  ["component " ++ c.name ++ NetPort.signature c.ports ++ " \x7b", "  cells \x7b"]
  ++ c.cells.map (fun cell => "    " ++ cell.name ++ " = " ++ cell.type ++ "();")
  ++ ["  \x7d", "  wires \x7b"]
  ++ c.connections.map (fun w => "    " ++ w.dst.text ++ " = " ++ w.src.text ++ ";")
  ++ ["  \x7d", "  control \x7b\x7d", "\x7d"]

/-- The text of a component. -/
def text (c : Component) : String := closedLines c.lines

end Component

end ControlStore
