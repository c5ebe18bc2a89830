import ControlStore.ControlWord
import ControlStore.Matrix
import ControlStore.Symbol.Table
import ControlStore.ValueWord

/-! # Selector fields

A field places the selector of one group of targets in the control word.  Encoding a step writes the
symbol of the step, after checking that the contents of the step are those the symbol stands for;
decoding reads the symbol back and gives every target its content, a lane being read from the value
word. -/

namespace ControlStore

/-- The selector of a group, placed in the control word. -/
structure MicroField where
  table : SymbolTable
  offset : Nat
  /-- The position among the fields of the design. -/
  order : Nat
deriving DecidableEq

namespace MicroField

/-- The number of selector bits. -/
def width (f : MicroField) : Nat := f.table.width

/-- The selector value of a symbol. -/
def selector (f : MicroField) (symbol : Nat) : Checked Bits :=
  require (Bits.ofNat? symbol f.width) .symbolTooLarge

/-- The contents of this field's targets among those of all targets. -/
def ownContents (f : MicroField) (contents : Contents) : Checked Contents := do
  let entries ← f.table.targets.mapM fun t => do
    return (t, ← require (contents.get? t) .contentMissing)
  return NatMap.ofList entries

/-- The symbol of a step whose contents are given; it must be the one on record for the step. -/
def symbolAt (f : MicroField) (step : Nat) (contents : Contents) : Checked Nat := do
  let own ← f.ownContents contents
  let symbol ← require (f.table.symbolOf? own) (.unknownFlow step f.order)
  let recorded ← f.table.symbol step
  ensure (symbol = recorded) (.differentSymbol step f.order)
  return symbol

/-- Writes the symbol of a step whose contents are given. -/
def encode (f : MicroField) (step : Nat) (contents : Contents) (word : ControlWord) :
    Checked ControlWord := do
  let symbol ← f.symbolAt step contents
  if 0 < f.width then
    word.write f.offset (← f.selector symbol)
  else
    return word

/-- What `target` receives by its content. -/
def decodeContent (word : ControlWord) (packer : Packer) (matrix : FlowMatrix)
    (target : SignalId) (content : Content) : Checked Assignment :=
  match content with
  | .literal bits => .ok (.value bits)
  | .forward source => .ok (.signal source)
  | .lane => do
    let lane ← packer.lane target
    let value ← word.read lane.offset lane.width
    let signal ← matrix.signal target
    return .value (← require (Bits.ofNat? value signal.width) .laneTooWide)

/-- What the targets of this field receive by a control word. -/
def decode (f : MicroField) (word : ControlWord) (packer : Packer) (matrix : FlowMatrix) :
    Checked Assignments := do
  let symbol ← word.read f.offset f.width
  ensure (symbol < f.table.count) (.symbolRange f.order symbol)
  let contents ← f.table.contents symbol
  let entries ← contents.entries.mapM fun (target, content) => do
    return (target, ← decodeContent word packer matrix target content)
  return NatMap.ofList entries

end MicroField

end ControlStore
