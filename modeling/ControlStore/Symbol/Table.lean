import ControlStore.Collections
import ControlStore.Flow
import ControlStore.Width

/-! # Symbol tables

A symbol table numbers the distinct contents that a group of targets carries across all control
steps.  Symbol 0 is always the content of the neutral flow, so a selector whose bits are all zero
decodes to the neutral flow. -/

namespace ControlStore

/-- What a decoder stores into one target for one symbol. -/
inductive Content where
  | literal (bits : Bits)
  | forward (source : SignalId)
  /-- The bits of the target's lane in the value word. -/
  | lane
deriving DecidableEq

/-- The content a flow stands for; an absent flow stands for `default`. -/
def Content.of (flow : Flow) (default : Content) : Content :=
  match flow with
  | .constant bits => .literal bits
  | .forward source => .forward source
  | .raw _ => .lane
  | .absent => default

/-- The contents of the targets of a group for one symbol. -/
abbrev Contents := NatMap Content

/-- The numbered contents of a group of targets, and the symbol of every control step. -/
@[ext]
structure SymbolTable where
  targets : List SignalId
  symbols : List Nat
  table : Interned Contents
  size_pos : 0 < table.size
deriving DecidableEq

namespace SymbolTable

/-- A table that has at least the neutral symbol. -/
def ofParts (targets : List SignalId) (symbols : List Nat) (table : Interned Contents) :
    Checked SymbolTable :=
  if h : 0 < table.size then .ok ⟨targets, symbols, table, h⟩ else .error .noNeutralSymbol

/-- The table of a single target with the given flows in step order. -/
def ofFlows (target : SignalId) (neutral : Content) (flows : List Flow) : Checked SymbolTable := do
  let first := Interned.empty.intern (NatMap.single target neutral)
  ensure (first.1 = 0) (.neutralSymbol first.1)
  let steps := first.2.internAll (flows.map fun flow => NatMap.single target (Content.of flow neutral))
  return ⟨[target], steps.1, steps.2, Interned.size_internAll_pos (Interned.size_intern_empty_pos _) _⟩

theorem ofFlows_ok (target : SignalId) (neutral : Content) (flows : List Flow) :
    ∃ table, ofFlows target neutral flows = .ok table := ⟨_, rfl⟩

/-- The table of a single target; it can always be made. -/
def forTarget (target : SignalId) (neutral : Content) (flows : List Flow) : SymbolTable :=
  (ofFlows target neutral flows).get (ofFlows_ok target neutral flows)

/-- The number of symbols. -/
def count (t : SymbolTable) : Nat := t.table.size

/-- The number of selector bits. -/
def width (t : SymbolTable) : Nat := widthOfCount t.count t.size_pos

/-- The symbol of a control step. -/
def symbol (t : SymbolTable) (step : Nat) : Checked Nat := fetch t.symbols step

/-- The contents a symbol stands for. -/
def contents (t : SymbolTable) (symbol : Nat) : Checked Contents := t.table.fetch symbol

/-- The symbol that stands for the given contents. -/
def symbolOf? (t : SymbolTable) (contents : Contents) : Option Nat := t.table.index? contents

end SymbolTable

end ControlStore
