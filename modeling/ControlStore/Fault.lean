import ControlStore.Numbers
import ControlStore.Text

/-! # Faults

A fault is an internal check that did not hold: an index outside its table, a sum that leaves its
machine word, two writes that contradict each other, a step that does not decode to what it was
encoded from.  Faults are told apart by their cause; `Fault.message` is the only place where they
are put into words. -/

namespace ControlStore

/-- The cause of a failed internal check. -/
inductive Fault where
  /-- The logarithm of zero was asked for. -/
  | zeroLogarithm
  /-- Position `index` was read in a sequence of `length` entries. -/
  | outOfBounds (length index : Nat)
  /-- A sum does not fit its machine word. -/
  | sumTooLarge
  /-- A difference would be negative. -/
  | differenceNegative
  /-- Bit `index` of a one-hot literal of `width` bits. -/
  | oneHotIndex (index width : Nat)
  /-- The field `[offset, stop)` does not lie in a word of `width` bits. -/
  | fieldOutsideWord (offset stop width : Nat)
  /-- The field at `offset` holds `current` and was to become `value`. -/
  | conflictingWrite (offset current value : Nat)
  /-- A signal was declared with an initial value of another width. -/
  | initialWidth
  /-- A flow was recorded after the lanes were assigned. -/
  | flowAfterPacking
  /-- Lanes were assigned a second time. -/
  | packedTwice
  /-- Lanes were asked for before they were assigned. -/
  | notPacked
  /-- A table with a single symbol was offered for merging. -/
  | singleSymbol
  /-- The neutral contents were interned first and got `symbol`. -/
  | neutralSymbol (symbol : Nat)
  /-- A symbol table was to be made without symbols. -/
  | noNeutralSymbol
  /-- Two symbol sequences of different lengths were to be encoded together. -/
  | sequenceLengths
  /-- A merged selector is wider than its two parts together. -/
  | mergedTooWide
  /-- Two tables to be merged share a target. -/
  | commonTargets
  /-- Two merged symbols have the same contents. -/
  | mergedCollision
  /-- The merged symbol of a step gives `target` another content than its own table. -/
  | mergedMisdecodes (step symbol target : Nat)
  /-- A merge was accepted whose candidate is not on record. -/
  | unscoredMerge
  /-- A merge was accepted of a group that no longer exists. -/
  | deadGroup
  /-- A lane was read for a target that has none. -/
  | noLane (target : Nat)
  /-- A literal was to be stored for a target without a lane. -/
  | noLaneInStep (step target : Nat)
  /-- A lane holds a value that does not fit its target. -/
  | laneTooWide
  /-- The contents of a step leave out a target. -/
  | contentMissing
  /-- The contents of a step are not in the table of the field. -/
  | unknownFlow (step field : Nat)
  /-- The contents of a step are those of another symbol than the recorded one. -/
  | differentSymbol (step field : Nat)
  /-- A symbol does not fit its selector. -/
  | symbolTooLarge
  /-- A selector holds `symbol`, which its field does not have. -/
  | symbolRange (field symbol : Nat)
  /-- The word of a step, here with its digits, does not decode to what the step requires. -/
  | stepMisdecodes (step : Nat) (digits : String)
  /-- The decoder of a design was built a second time. -/
  | decoderBuiltTwice
  /-- The lane of `target` was read where there is no value word. -/
  | noValueWord (target : Nat)
  /-- A statement stands directly inside a switch. -/
  | statementOutsideCase
  /-- A case was opened outside of a switch. -/
  | caseOutsideSwitch
  /-- A default case was opened outside of a switch, or a second time. -/
  | defaultOutsideSwitch
  /-- A case was closed where none is open. -/
  | endOfCase
  /-- A switch was closed where none is open. -/
  | endOfSwitch
  /-- A body was completed with a switch still open. -/
  | unterminatedSwitch
  /-- A case was closed that stands in no switch, or a body completed that is no block. -/
  | brokenNesting
  /-- A signal without bits was declared. -/
  | zeroWidthSignal (name : String)
  /-- A slice does not lie in the wire `name`. -/
  | sliceExceeds (name : String)
  /-- A word was to be written with more digits than can be written. -/
  | tooManyDigits
  /-- A store was to have more rows than memory can hold. -/
  | storeTooLarge
  /-- A row outside of a store of `rows` rows was written. -/
  | addressRange (address rows : Nat)
  /-- A word of another width than the store's was written. -/
  | rowWidth (address : Nat)
deriving DecidableEq

namespace Fault

/-- How a fault is reported. -/
def message : Fault → String
  | zeroLogarithm => "assertion failed: !x.is_zero()"
  | outOfBounds length index =>
      s!"index out of bounds: the len is {length} but the index is {index}"
  | sumTooLarge => "attempt to add with overflow"
  | differenceNegative => "attempt to subtract with overflow"
  | oneHotIndex index width => s!"one-hot index {index} out of {width} bits"
  | fieldOutsideWord offset stop width =>
      s!"field [{offset}, {stop}) exceeds {width}-bit control word"
  | conflictingWrite offset current value =>
      s!"conflicting writes to control word field at offset {offset}: {hex current} and {hex value}"
  | initialWidth => "initial value width mismatch"
  | flowAfterPacking => "flow added after packing the value word"
  | packedTwice => "value word packed twice"
  | notPacked => "value word not packed yet"
  | singleSymbol => "assertion failed: group0.count() > 1 && group1.count() > 1"
  | neutralSymbol symbol => s!"assertion `left == right` failed\n  left: sym{symbol}\n right: sym0"
  | noNeutralSymbol => "symbol table without neutral symbol"
  | sequenceLengths => "symbol sequences differ in length"
  | mergedTooWide => "merged selector wider than its parts"
  | commonTargets => "merging groups with common targets"
  | mergedCollision => "merged symbols collide"
  | mergedMisdecodes step symbol target =>
      s!"c-step {step}: merged symbol sym{symbol} misdecodes sig{target}"
  | unscoredMerge => "cached merge"
  | deadGroup => "internal error: entered unreachable code: merge of a dead group"
  | noLane target => s!"sig{target} has no value-word lane"
  | noLaneInStep step target => s!"c-step {step}: sig{target} has no value-word lane"
  | laneTooWide => "lane wider than its target"
  | contentMissing => "no entry found for key"
  | unknownFlow step field => s!"c-step {step}: flow unknown to field {field}"
  | differentSymbol step field => s!"c-step {step}: field {field} encodes a different symbol"
  | symbolTooLarge => "symbol exceeds its selector"
  | symbolRange field symbol => s!"field {field}: symbol {symbol} out of range"
  | stepMisdecodes step digits => s!"c-step {step}: control word {digits} misdecodes"
  | decoderBuiltTwice => "decoder built twice"
  | noValueWord target => s!"lane read of sig{target} without a value word"
  | statementOutsideCase => "statement outside of a case"
  | caseOutsideSwitch => "case outside of a switch"
  | defaultOutsideSwitch => "default case outside of a switch or given twice"
  | endOfCase => "end of case without a case"
  | endOfSwitch => "end of switch without a switch"
  | unterminatedSwitch => "unterminated switch"
  | brokenNesting => "internal error: entered unreachable code"
  | zeroWidthSignal name => s!"zero-width signal `{name}`"
  | sliceExceeds name => s!"slice exceeds `{name}`"
  | tooManyDigits => "Formatting argument out of range"
  | storeTooLarge => "capacity overflow"
  | addressRange address rows => s!"address {address} out of range for {rows}-row ROM"
  | rowWidth address => s!"control word width mismatch at address {address}"

/-- The first line of the report; names of signals may bring line ends along. -/
def headline (f : Fault) : String := firstLine f.message

end Fault

/-- A computation that may run into a fault. -/
abbrev Checked (α : Type) := Except Fault α

/-- The entry of `xs` at position `i`. -/
def fetch {α : Type} (xs : List α) (i : Nat) : Checked α :=
  match xs[i]? with
  | some a => .ok a
  | none => .error (.outOfBounds xs.length i)

/-- The value of `o`, or the fault `f` if there is none. -/
def require {α : Type} (o : Option α) (f : Fault) : Checked α :=
  match o with
  | some a => .ok a
  | none => .error f

/-- Goes on only if `p` holds. -/
def ensure (p : Bool) (f : Fault) : Checked Unit := if p then .ok () else .error f

theorem Checked.error_not_ok {α : Type} (f : Fault) : ¬ ∃ a, (.error f : Checked α) = .ok a := by
  rintro ⟨a, h⟩
  cases h

/-- The value of a computation that is known to succeed. -/
def Checked.get {α : Type} : (x : Checked α) → (∃ a, x = .ok a) → α
  | .ok a, _ => a
  | .error f, h => absurd h (error_not_ok f)

/-! ### When a check succeeds -/

section
variable {α : Type}

theorem fetch_eq_ok_iff {xs : List α} {i : Nat} {a : α} : fetch xs i = .ok a ↔ xs[i]? = some a := by
  unfold fetch
  split <;> simp_all

theorem require_eq_ok_iff {o : Option α} {f : Fault} {a : α} : require o f = .ok a ↔ o = some a := by
  cases o <;> simp [require]

theorem Checked.eq_ok_get {x : Checked α} (h : ∃ a, x = .ok a) : x = .ok (x.get h) := by
  obtain ⟨a, rfl⟩ := h
  rfl

theorem Checked.get_eq {x : Checked α} {a : α} (hx : x = .ok a) (h : ∃ a, x = .ok a) : x.get h = a :=
  Except.ok.inj ((eq_ok_get h).symm.trans hx)

theorem ensure_eq_ok_iff {p : Bool} {f : Fault} : ensure p f = .ok () ↔ p = true := by
  cases p <;> simp [ensure]

end

end ControlStore
