import ControlStore.NatMap
import ControlStore.Text
import ControlStore.Width

/-! # Encoding reports

A summary of what merging and packing have saved. -/

namespace ControlStore

/-- Summary of a computed encoding. -/
structure Report where
  steps : Nat
  /-- The bound on the width of merged selectors. -/
  bound : Nat
  /-- Selector bits with one field per target. -/
  initialSelectorBits : Nat
  /-- Value bits with one lane per target. -/
  initialValueBits : Nat
  generations : Nat
  selectorBits : Nat
  valueBits : Nat
  /-- The number of fields of every selector width. -/
  histogram : NatMap Nat
deriving DecidableEq

namespace Report

/-- The number of times each width occurs. -/
def histogramOf (widths : List Nat) : NatMap Nat :=
  widths.foldl (fun h w => h.insert w ((h.get? w).getD 0 + 1)) .empty

/-- The width of the widest selector, zero if there is none. -/
def widestSelector (r : Report) : Nat := r.histogram.keys.foldl max 0

/-- The width of the control word. -/
def controlWordWidth (r : Report) : Checked Nat := Width.add r.selectorBits r.valueBits

/-- The lines of a report. -/
def lines (r : Report) : List String :=
  ["Horizontal microcode encoding",
    s!"  c-steps: {r.steps}",
    s!"  selector width bound: {r.bound}",
    s!"  uncompressed CW: {r.initialSelectorBits} selector bits + {r.initialValueBits} value bits",
    s!"  merge generations: {r.generations}",
    s!"  compressed CW: {r.selectorBits} selector bits + {r.valueBits} value bits",
    s!"  widest selector: {r.widestSelector}",
    "selector width; number of fields"]
  ++ r.histogram.entries.reverse.map fun e => s!"{e.1}; {e.2}"

/-- The text of a report. -/
def text (r : Report) : String := closedLines r.lines

end Report

end ControlStore
