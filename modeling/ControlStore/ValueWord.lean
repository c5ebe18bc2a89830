import ControlStore.Collections
import ControlStore.Flow
import ControlStore.Notice
import ControlStore.Width

/-! # The value word

Every target that ever carries a literal stored verbatim needs a lane in the value word.  Two targets
may share the bits of a lane unless some flow requires them to hold different literals at the same
time.  Targets are visited widest first, those of one width in order of declaration, and join the
first group of lanes none of whose members they conflict with; a target that fits no group opens a
new one behind the others. -/

namespace ControlStore

/-- The bit range of a target within the value word. -/
structure Lane where
  offset : Nat
  width : Nat
deriving DecidableEq

/-- Targets whose lanes start at the same bit. -/
structure LaneGroup where
  offset : Nat
  members : List SignalId
deriving DecidableEq

/-- An assignment of lanes. -/
structure Packing where
  groups : List LaneGroup
  lanes : NatMap Lane
  /-- The width of the value word. -/
  width : Nat
deriving DecidableEq

/-- Two targets conflict if one flow gives them different literals. -/
def conflict (flows : List (NatMap Bits)) (a b : SignalId) : Bool :=
  flows.any fun literals =>
    match literals.get? a, literals.get? b with
    | some x, some y => x ≠ y
    | _, _ => false

/-- The lane width of every target: that of the last literal it carries. -/
def laneWidths (flows : List (NatMap Bits)) : NatMap Nat :=
  flows.foldl (fun widths literals => widths.overlay (literals.map fun _ b => b.width)) .empty

/-- Wider targets come first, and earlier declared ones among those of one width. -/
def widerFirst (a b : SignalId × Nat) : Bool := b.2 < a.2 || (a.2 == b.2 && a.1 < b.1)

namespace Packing

/-- No lanes. -/
def empty : Packing := ⟨[], .empty, 0⟩

/-- Lets `target` join the first group it is compatible with: the offset of that group, and the
groups afterwards. -/
def join? (conflict : SignalId → SignalId → Bool) (target : SignalId) :
    List LaneGroup → Option (Nat × List LaneGroup)
  | [] => none
  | g :: rest =>
    if g.members.all fun member => !conflict member target then
      some (g.offset, { g with members := g.members ++ [target] } :: rest)
    else
      (join? conflict target rest).map fun (offset, groups) => (offset, g :: groups)

/-- Assigns a lane to one more target. -/
def place (conflict : SignalId → SignalId → Bool) (p : Packing) (entry : SignalId × Nat) :
    Checked Packing :=
  let (target, width) := entry
  match join? conflict target p.groups with
  | some (offset, groups) => .ok { p with groups, lanes := p.lanes.insert target ⟨offset, width⟩ }
  | none => do
    let stop ← Width.add p.width width
    return ⟨p.groups ++ [⟨p.width, [target]⟩], p.lanes.insert target ⟨p.width, width⟩, stop⟩

/-- The lanes for the literals of the given flows. -/
def ofLiterals (flows : List (NatMap Bits)) : Checked Packing :=
  (sortBy widerFirst (laneWidths flows).entries).foldlM (place (conflict flows)) empty

/-- What is told about an assignment of lanes. -/
def notice (p : Packing) : Notice := .packed p.lanes.size p.groups.length p.width

end Packing

/-- Collects the literals of flows until lanes are assigned, which happens once. -/
structure Packer where
  flows : List (NatMap Bits)
  packing : Option Packing

namespace Packer

/-- No flows yet. -/
def empty : Packer := ⟨[], none⟩

/-- Records the literals of one flow. -/
def add (p : Packer) (flow : StepFlow) : Checked Packer :=
  match p.packing with
  | some _ => .error .flowAfterPacking
  | none => .ok { p with flows := p.flows ++ [StepFlow.rawLiterals flow] }

/-- Assigns the lanes. -/
def pack (p : Packer) : Checked (Packing × Packer) :=
  match p.packing with
  | some _ => .error .packedTwice
  | none => do
    let packing ← Packing.ofLiterals p.flows
    return (packing, { p with packing := some packing })

/-- The assigned lanes. -/
def packed (p : Packer) : Checked Packing := require p.packing .notPacked

/-- The lane of a target, if it has one. -/
def lane? (p : Packer) (target : SignalId) : Checked (Option Lane) := do
  return (← p.packed).lanes.get? target

/-- The lane of a target that must have one. -/
def lane (p : Packer) (target : SignalId) : Checked Lane := do
  require (← p.lane? target) (.noLane target)

/-- The width of the value word. -/
def width (p : Packer) : Checked Nat := do return (← p.packed).width

/-- The lanes assigned so far. -/
def lanes (p : Packer) : NatMap Lane := (p.packing.getD .empty).lanes

/-- The width of the value word if every target had a lane of its own. -/
def uncompressedWidth (p : Packer) : Checked Nat := Width.sum (laneWidths p.flows).values

end Packer

end ControlStore
