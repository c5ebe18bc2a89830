import ControlStore.ControlWord
import ControlStore.Netlist

/-! # The control store

A read-only memory that holds one control word per control step.  Reads are registered: the output
shows the row at the address one cycle after the read was enabled. -/

namespace ControlStore

/-- The rows of a control store; a row that was not written yet is empty. -/
structure Rom where
  wordWidth : Nat
  rows : List (Option ControlWord)
deriving DecidableEq

namespace Rom

/-- A store of `depth` empty rows. -/
def blank (depth wordWidth : Nat) : Rom := ⟨wordWidth, List.replicate depth none⟩

/-- A store of `depth` empty rows, where fewer than `rowLimit` rows can be held in memory. -/
def ofDepth (rowLimit depth wordWidth : Nat) : Checked Rom :=
  if depth < rowLimit then .ok (blank depth wordWidth) else .error .storeTooLarge

/-- The number of rows. -/
def depth (r : Rom) : Nat := r.rows.length

/-- The width of the address port, at least one. -/
def addressWidth (r : Rom) : Nat := max (widthOfCount (max r.depth 1) (Nat.le_max_right _ _)) 1

/-- The width of the output port, at least one. -/
def dataWidth (r : Rom) : Nat := max r.wordWidth 1

/-- Puts a word into a row. -/
def write (r : Rom) (address : Nat) (word : ControlWord) : Checked Rom :=
  if address < r.depth then
    if word.width = r.wordWidth then .ok { r with rows := r.rows.set address (some word) }
    else .error (.rowWidth address)
  else .error (.addressRange address r.depth)

/-- The word in a row. -/
def row (r : Rom) (address : Nat) : Checked (Option ControlWord) := fetch r.rows address

/-- The image of the store: the words in hexadecimal, one row per line; empty rows read zero. -/
def image (r : Rom) : Checked String := do
  let lines ← r.rows.mapM fun row => (row.getD (.zeros r.wordWidth)).text
  return closedLines lines

/-- The rows that were written, with their addresses. -/
def writtenRows (r : Rom) : List (Nat × ControlWord) :=
  r.rows.zipIdx.filterMap fun (row, address) => row.map fun word => (address, word)

/-- The line of the memory process for a row. -/
def rowLine (r : Rom) (row : Nat × ControlWord) : Checked String := do
  return s!"        {r.addressWidth}'d{row.1}: data_out <= {r.dataWidth}'h" ++ (← row.2.text) ++ ";"

/-- The process that reads the store. -/
def body (r : Rom) : Checked String := do
  let rows ← r.writtenRows.mapM r.rowLine
  return "\n".intercalate
    (["always_ff @(posedge clk) begin", "    if (rd_en) begin", "      case (addr)"] ++ rows
    ++ ["        default: data_out <= 'x;", "      endcase", "    end", "  end"])

/-- The store as a primitive. -/
def primitive (r : Rom) (name : String) : Checked Primitive := do
  let body ← r.body
  let ports : List NetPort :=
    [⟨"clk", 1, .input, .clock⟩, ⟨"addr", r.addressWidth, .input, .data⟩,
      ⟨"rd_en", 1, .input, .none⟩, ⟨"data_out", r.dataWidth, .output, .none⟩]
  return ⟨name, false, ports, body⟩

end Rom

end ControlStore
