import ControlStore.Symbol.Table

/-! # Joint symbols

Two groups of targets can share one selector if the pairs of symbols they carry together are few
enough.  The joint table numbers only the pairs that occur in some step, the pair of neutral symbols
always first. -/

namespace ControlStore

/-- Joint symbols of two symbol sequences. -/
structure JointEncoding where
  /-- The joint symbol of every step. -/
  symbols : List Nat
  /-- The pair of symbols that every joint symbol stands for. -/
  pairs : Interned (Nat × Nat)
  size_pos : 0 < pairs.size
deriving DecidableEq

/-- The number of bits of the joint selector. -/
def JointEncoding.width (j : JointEncoding) : Nat := widthOfCount j.pairs.size j.size_pos

/-- Numbers the pairs of symbols that occur together in some step, in order of first occurrence. -/
def encodeTogether (seq₀ seq₁ : List Nat) : Checked JointEncoding := do
  ensure (seq₀.length = seq₁.length) .sequenceLengths
  let first := Interned.empty.intern (0, 0)
  ensure (first.1 = 0) (.neutralSymbol first.1)
  let steps := first.2.internAll (seq₀.zip seq₁)
  return ⟨steps.1, steps.2, Interned.size_internAll_pos (Interned.size_intern_empty_pos _) _⟩

/-- A prospective merge of two groups. -/
structure MergeCandidate where
  joint : JointEncoding
  /-- The selector bits saved by the merge. -/
  score : Nat
deriving DecidableEq

namespace MergeCandidate

/-- The number of joint symbols. -/
def count (c : MergeCandidate) : Nat := c.joint.pairs.size

/-- The number of bits of the joint selector. -/
def width (c : MergeCandidate) : Nat := c.joint.width

/-- Scores the merge of two groups. -/
def ofGroups (g₀ g₁ : SymbolTable) : Checked MergeCandidate := do
  ensure (1 < g₀.count && 1 < g₁.count) .singleSymbol
  let joint ← encodeTogether g₀.symbols g₁.symbols
  let unmerged := g₀.width + g₁.width
  ensure (joint.width ≤ unmerged) .mergedTooWide
  return ⟨joint, unmerged - joint.width⟩

/-- Interns the contents of the next joint symbol: those of its two parts together. -/
def internPair (g₀ g₁ : SymbolTable) (table : Interned Contents) (entry : Nat × Nat × Nat) :
    Checked (Interned Contents) := do
  let (symbol, sym₀, sym₁) := entry
  let contents₀ ← g₀.contents sym₀
  let contents₁ ← g₁.contents sym₁
  let (index, table) := table.intern (contents₀.overlay contents₁)
  ensure (index = symbol) .mergedCollision
  return table

/-- Checks that the merged symbol of a step gives the targets of `group` what its own symbol of
that step gives them. -/
def checkStep (step symbol : Nat) (merged : Contents) (group : SymbolTable) : Checked Unit := do
  let own ← group.contents (← group.symbol step)
  own.entries.forM fun (target, content) =>
    ensure (merged.get? target = some content) (.mergedMisdecodes step symbol target)

/-- The merged table: every joint symbol stands for the contents of its two parts together. -/
def realize (c : MergeCandidate) (g₀ g₁ : SymbolTable) : Checked SymbolTable := do
  ensure (g₀.targets.all fun t => !g₁.targets.contains t) .commonTargets
  let table ← c.joint.pairs.indexed.foldlM (internPair g₀ g₁) .empty
  let merged ← SymbolTable.ofParts (g₀.targets ++ g₁.targets) c.joint.symbols table
  merged.symbols.zipIdx.forM fun (symbol, step) => do
    let contents ← merged.contents symbol
    [g₀, g₁].forM (checkStep step symbol contents)
  return merged

end MergeCandidate

end ControlStore
