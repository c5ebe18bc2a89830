import ControlStore.Notice
import ControlStore.Symbol.Joint

/-! # Greedy merging of groups

Every target starts with a group of its own.  In each generation the pairs of groups are ranked by
the selector bits their merge saves, and merges are accepted from the top as long as neither group
was used before; a merge has to save at least one bit and its selector may not exceed a bound.  A
group that is merged into another leaves its slot empty.  Merging ends when no merge is left to
accept.

The candidates are kept on record.  A generation scores only the pairs without one, every merge takes
its candidate off the record, and after the merges those that touch a used slot are dropped. -/

namespace ControlStore

/-- The groups by slot; a slot is empty once its group was merged into another. -/
abbrev Slots := List (Option SymbolTable)

/-- A scored pair of slots, the lower one first. -/
structure ScoredPair where
  first : Nat
  second : Nat
  candidate : MergeCandidate
deriving DecidableEq

namespace ScoredPair

/-- The two slots. -/
def pair (p : ScoredPair) : Nat × Nat := (p.first, p.second)

/-- Whether the slots are the given ones. -/
def isFor (pair : Nat × Nat) (p : ScoredPair) : Bool := p.first == pair.1 && p.second == pair.2

/-- Higher scores come first, and lower slots among those of one score. -/
def better (a b : ScoredPair) : Bool :=
  b.candidate.score < a.candidate.score ||
    (a.candidate.score == b.candidate.score &&
      (a.first < b.first || (a.first == b.first && a.second < b.second)))

/-- A merge is admissible if it saves a bit and stays within the bound. -/
def admissible (bound : Nat) (p : ScoredPair) : Bool :=
  0 < p.candidate.score && p.candidate.width ≤ bound

/-- Whether one of the slots is used. -/
def touches (used : List Nat) (p : ScoredPair) : Bool :=
  used.contains p.first || used.contains p.second

end ScoredPair

/-- The slots of some pairs. -/
def slotsOf (pairs : List (Nat × Nat)) : List Nat := pairs.flatMap fun pair => [pair.1, pair.2]

/-- The state between two generations. -/
structure MergeState where
  slots : Slots
  /-- The candidates on record. -/
  scored : List ScoredPair
  generation : Nat
  notices : List Notice

namespace MergeState

/-- Every table has a slot of its own, and no pair was scored. -/
def start (tables : List SymbolTable) : MergeState := ⟨tables.map some, [], 0, []⟩

/-- The groups that can be merged: those with more than one symbol. -/
def mergeable (slots : Slots) : List (Nat × SymbolTable) :=
  slots.zipIdx.filterMap fun (group, slot) =>
    group.bind fun table => if 1 < table.count then some (slot, table) else none

/-- The candidate of two groups in their slots. -/
def scorePair (a b : Nat × SymbolTable) : Checked ScoredPair := do
  return ⟨a.1, b.1, ← MergeCandidate.ofGroups a.2 b.2⟩

/-- The record with candidates for those pairs of groups that can be merged and have none. -/
def scoreAll (s : MergeState) : Checked (List ScoredPair) := do
  let unscored := (pairsOf (mergeable s.slots)).filter fun (a, b) =>
    !s.scored.any (ScoredPair.isFor (a.1, b.1))
  return s.scored ++ (← unscored.mapM fun (a, b) => scorePair a b)

/-- Accepts merges from the top, each slot at most once. -/
def accept (used : List Nat) : List ScoredPair → List (Nat × Nat)
  | [] => []
  | p :: rest =>
    if p.touches used then accept used rest
    else p.pair :: accept (p.first :: p.second :: used) rest

/-- The pairs to be merged by a record. -/
def accepted (bound : Nat) (scored : List ScoredPair) : List (Nat × Nat) :=
  accept [] (sortBy ScoredPair.better (scored.filter (ScoredPair.admissible bound)))

/-- Takes the candidate of a pair off the record. -/
def withdraw (scored : List ScoredPair) (pair : Nat × Nat) :
    Checked (MergeCandidate × List ScoredPair) := do
  let p ← require (scored.find? (ScoredPair.isFor pair)) .unscoredMerge
  return (p.candidate, scored.filter fun p => !p.isFor pair)

/-- Empties a slot; what it held comes first. -/
def take (slots : Slots) (slot : Nat) : Checked (Option SymbolTable × Slots) := do
  return (← fetch slots slot, slots.set slot none)

/-- Carries out one accepted merge; the merged group goes to the first slot of the pair. -/
def mergePair (s : MergeState) (pair : Nat × Nat) : Checked MergeState := do
  let (candidate, scored) ← withdraw s.scored pair
  let (g₀, slots) ← take s.slots pair.1
  let (g₁, slots) ← take slots pair.2
  match g₀, g₁ with
  | some g₀, some g₁ =>
    let merged ← candidate.realize g₀ g₁
    let notice := .merging s.generation pair.1 pair.2 g₀.width g₁.width candidate.width
    return { s with slots := slots.set pair.1 (some merged), scored, notices := s.notices ++ [notice] }
  | _, _ => throw .deadGroup

/-- The state after one generation, or `none` if no merge is left to accept. -/
def step (bound : Nat) (s : MergeState) : Checked (Option MergeState) := do
  let scored ← s.scoreAll
  match accepted bound scored with
  | [] => return none
  | pairs =>
    let t ← pairs.foldlM mergePair { s with scored }
    return some { t with
      scored := t.scored.filter fun p => !p.touches (slotsOf pairs)
      generation := s.generation + 1 }

/-- Goes on until no merge is left to accept, for at most `fuel` generations. -/
def run (bound : Nat) : (fuel : Nat) → MergeState → Checked MergeState
  | 0, s => .ok s
  | fuel + 1, s => do
    match ← s.step bound with
    | none => return s
    | some next => run bound fuel next

end MergeState

/-- Merges the groups of the given tables.  Every generation empties a slot, so there are fewer
generations than tables. -/
def mergeGroups (bound : Nat) (tables : List SymbolTable) : Checked MergeState :=
  MergeState.run bound tables.length (.start tables)

end ControlStore
