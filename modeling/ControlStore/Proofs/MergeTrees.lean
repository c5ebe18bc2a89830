import Mathlib.Data.List.Nodup
import ControlStore.Proofs.Tables

/-! # Trees of merges

Tables over different targets can be merged two at a time in many orders.  Every order is a binary
tree (`MergeTree`), and the order does not matter: no check fails, and the merged table is the one
that comes from interning what all targets hold together, first in the neutral flow and then in
every step (`MergeTree.merged_eq`, `TargetFlows.internTogether_eq`).  Only the listing of the targets
follows the tree.

One merge keeps the table in this form (`SymbolTable.merge_ok`), and its parts are never left with a
single symbol, since more targets have no fewer symbols (`SymbolTable.count_le_of_subset`). -/

namespace ControlStore

open NatMap (tabulate)

namespace SymbolTable

/-! ### One merge -/

/-- The merge of two tables, scored and realized. -/
def merge (g₀ g₁ : SymbolTable) : Checked SymbolTable := do
  let c ← MergeCandidate.ofGroups g₀ g₁
  c.realize g₀ g₁

variable {neutral : SignalId → Content} {steps : List (SignalId → Content)}

theorem merge_ok {ts us : List SignalId} (hdisj : ts.Disjoint us)
    (hts : 1 < (ofContents ts neutral steps).count) (hus : 1 < (ofContents us neutral steps).count) :
    (ofContents ts neutral steps).merge (ofContents us neutral steps) =
      .ok (ofContents (ts ++ us) neutral steps) := by
  have hnum := numbers_ofContents ts neutral steps
  have hnum' := numbers_ofContents us neutral steps
  unfold merge
  rw [MergeCandidate.ofGroups_ok hnum hnum' hts hus, ok_bind]
  exact MergeCandidate.realize_ok hnum hnum' rfl hdisj

/-- Symbols and contents do not depend on the order in which the targets are listed. -/
theorem ofContents_of_mem_iff {ts us : List SignalId} (h : ∀ t, t ∈ ts ↔ t ∈ us) :
    ofContents ts neutral steps = { ofContents us neutral steps with targets := ts } := by
  ext1
  · rfl
  · simp only [symbols_ofContents, NatMap.tabulate_eq_of_mem_iff h]
  · simp only [table_ofContents, NatMap.tabulate_eq_of_mem_iff h]

end SymbolTable

/-! ### Trees -/

open SymbolTable

/-- An order in which tables are merged. -/
inductive MergeTree where
  | leaf (table : SymbolTable)
  | node (left right : MergeTree)

namespace MergeTree

/-- The tables at the leaves, from left to right. -/
def leaves : MergeTree → List SymbolTable
  | leaf g => [g]
  | node left right => left.leaves ++ right.leaves

/-- The targets of all leaves. -/
def targets (tree : MergeTree) : List SignalId := tree.leaves.flatMap SymbolTable.targets

/-- The table that the merges lead to. -/
def merged : MergeTree → Checked SymbolTable
  | leaf g => .ok g
  | node left right => do
    let g₀ ← left.merged
    let g₁ ← right.merged
    g₀.merge g₁

theorem targets_node (left right : MergeTree) :
    (node left right).targets = left.targets ++ right.targets := List.flatMap_append

/-- All merges succeed if the leaves number the contents of different targets and none of them has
only one symbol. -/
theorem merged_ok {neutral : SignalId → Content} {steps : List (SignalId → Content)} (tree : MergeTree)
    (hleaves : ∀ g ∈ tree.leaves, g.Numbers neutral steps ∧ 1 < g.count) (hnd : tree.targets.Nodup) :
    tree.merged = .ok (ofContents tree.targets neutral steps) ∧
      1 < (ofContents tree.targets neutral steps).count := by
  induction tree with
  | leaf g =>
      obtain ⟨hnum, hcount⟩ := hleaves g (by simp [leaves])
      have htargets : (leaf g).targets = g.targets := by simp [targets, leaves]
      have hg : ofContents g.targets neutral steps = g := hnum.symm
      rw [htargets, hg]
      exact ⟨rfl, hcount⟩
  | node left right ihl ihr =>
      rw [targets_node] at hnd ⊢
      obtain ⟨hndl, hndr, hdisj⟩ := List.nodup_append'.mp hnd
      obtain ⟨hl, hcl⟩ := ihl (fun g hg => hleaves g (List.mem_append_left _ hg)) hndl
      obtain ⟨hr, hcr⟩ := ihr (fun g hg => hleaves g (List.mem_append_right _ hg)) hndr
      refine ⟨?_, Nat.lt_of_lt_of_le hcl (count_le_of_subset (List.subset_append_left _ _))⟩
      rw [merged, hl, ok_bind, hr, ok_bind]
      exact merge_ok hdisj hcl hcr

end MergeTree

/-! ### Interning all targets at once -/

/-- A target with its content in the neutral flow and its flows in step order. -/
structure TargetFlows where
  target : SignalId
  neutral : Content
  flows : List Flow

namespace TargetFlows

/-- The symbol table of the target. -/
def table (f : TargetFlows) : SymbolTable := .forTarget f.target f.neutral f.flows

/-- What the target holds in a step. -/
def content (step : Nat) (f : TargetFlows) : Content :=
  Content.of (f.flows.getD step .absent) f.neutral

/-- What all targets hold together, where each of them holds what `hold` says. -/
def union (fs : List TargetFlows) (hold : TargetFlows → Content) : Contents :=
  .ofList (fs.map fun f => (f.target, hold f))

/-- The neutral contents of all targets and then those of every step, interned in this order. -/
def internTogether (fs : List TargetFlows) (length : Nat) : List Nat × Interned Contents :=
  Interned.empty.internAll (union fs neutral :: (List.range length).map fun step => union fs (content step))

/-- What `hold` says of the one with target `t`. -/
def holding (fs : List TargetFlows) (hold : TargetFlows → Content) (t : SignalId) : Content :=
  ((fs.find? fun f => f.target = t).map hold).getD .lane

/-- The contents of all targets, for every step. -/
def stepsHolding (fs : List TargetFlows) (length : Nat) : List (SignalId → Content) :=
  (List.range length).map fun step => holding fs (content step)

/-- The table of all targets together. -/
def jointTable (fs : List TargetFlows) (length : Nat) : SymbolTable :=
  ofContents (fs.map target) (holding fs neutral) (stepsHolding fs length)

section
variable {fs : List TargetFlows} (hnd : (fs.map target).Nodup)
include hnd

theorem holding_target {hold : TargetFlows → Content} {f : TargetFlows} (hf : f ∈ fs) :
    holding fs hold f.target = hold f := by
  have hsome : (fs.find? fun f' => f'.target = f.target).isSome :=
    List.find?_isSome.mpr ⟨f, hf, by simp⟩
  obtain ⟨f', hfind⟩ := Option.isSome_iff_exists.mp hsome
  have htarget : f'.target = f.target := by simpa using List.find?_some hfind
  have heq : f' = f := List.inj_on_of_nodup_map hnd (List.mem_of_find?_eq_some hfind) hf htarget
  unfold holding
  rw [hfind, heq]
  rfl

theorem tabulate_holding (hold : TargetFlows → Content) :
    tabulate (holding fs hold) (fs.map target) = union fs hold := by
  unfold tabulate union
  rw [List.map_map]
  congr 1
  apply List.map_congr_left
  intro f hf
  simp [holding_target hnd hf]

/-- The table of one of the targets numbers the contents of all. -/
theorem numbers_table {length : Nat} (hlength : ∀ f ∈ fs, f.flows.length = length) {f : TargetFlows}
    (hf : f ∈ fs) : f.table.Numbers (holding fs neutral) (stepsHolding fs length) := by
  have hflows : f.flows.map (fun flow => Content.of flow (holding fs neutral f.target)) =
      (stepsHolding fs length).map fun c => c f.target := by
    apply List.ext_getElem
    · simp [stepsHolding, hlength f hf]
    · intro step h₀ h₁
      have hstep : step < f.flows.length := by simpa using h₀
      simp [stepsHolding, holding_target hnd hf, content, hstep]
  have htable := forTarget_eq_ofContents f.target f.flows hflows
  rw [holding_target hnd hf] at htable
  exact htable

theorem map_table {length : Nat} (hlength : ∀ f ∈ fs, f.flows.length = length) :
    fs.map table =
      (fs.map target).map fun t => ofContents [t] (holding fs neutral) (stepsHolding fs length) := by
  rw [List.map_map]
  exact List.map_congr_left fun f hf => numbers_table hnd hlength hf

theorem internTogether_eq (length : Nat) :
    internTogether fs length = (0 :: (jointTable fs length).symbols, (jointTable fs length).table) := by
  unfold internTogether jointTable ofContents stepsHolding
  simp only [List.map_map, Function.comp_def, tabulate_holding hnd]
  rfl

end

end TargetFlows

namespace MergeTree

variable {fs : List TargetFlows}

theorem targets_perm {tree : MergeTree} (htree : tree.leaves.Perm (fs.map TargetFlows.table)) :
    tree.targets.Perm (fs.map TargetFlows.target) := by
  have htargets : (fs.map TargetFlows.table).flatMap SymbolTable.targets = fs.map TargetFlows.target := by
    rw [List.flatMap_map]
    exact List.map_eq_flatMap.symm
  rw [← htargets]
  exact htree.flatMap_right SymbolTable.targets

/-- Merging in any order leads to the table of all targets, which are listed as the tree has them. -/
theorem merged_eq {length : Nat} (hlength : ∀ f ∈ fs, f.flows.length = length)
    (hcount : ∀ f ∈ fs, 1 < f.table.count) (hnd : (fs.map TargetFlows.target).Nodup) {tree : MergeTree}
    (htree : tree.leaves.Perm (fs.map TargetFlows.table)) :
    tree.merged = .ok { TargetFlows.jointTable fs length with targets := tree.targets } := by
  have hperm := targets_perm htree
  have hleaves : ∀ g ∈ tree.leaves, g.Numbers (TargetFlows.holding fs TargetFlows.neutral)
      (TargetFlows.stepsHolding fs length) ∧ 1 < g.count := by
    intro g hg
    obtain ⟨f, hf, rfl⟩ := List.mem_map.mp (htree.subset hg)
    exact ⟨TargetFlows.numbers_table hnd hlength hf, hcount f hf⟩
  obtain ⟨hmerged, -⟩ := tree.merged_ok hleaves (hperm.nodup_iff.mpr hnd)
  rw [hmerged, ofContents_of_mem_iff fun t => hperm.mem_iff]
  rfl

/-- Every order of merging the tables of different targets leads to the table that interns what all
of them hold together, so two orders differ at most in how they list the targets. -/
theorem merged_independent {fs : List TargetFlows} {length : Nat}
    (hlength : ∀ f ∈ fs, f.flows.length = length) (hcount : ∀ f ∈ fs, 1 < f.table.count)
    (hnd : (fs.map TargetFlows.target).Nodup) {tree tree' : MergeTree}
    (htree : tree.leaves.Perm (fs.map TargetFlows.table))
    (htree' : tree'.leaves.Perm (fs.map TargetFlows.table)) :
    ∃ g g', tree.merged = .ok g ∧ tree'.merged = .ok g' ∧
      TargetFlows.internTogether fs length = (0 :: g.symbols, g.table) ∧
      g.targets.Perm (fs.map TargetFlows.target) ∧ g'.targets.Perm g.targets ∧
      g'.symbols = g.symbols ∧ g'.table = g.table ∧ g'.count = g.count ∧ g'.width = g.width := by
  refine ⟨_, _, merged_eq hlength hcount hnd htree, merged_eq hlength hcount hnd htree', ?_⟩
  refine ⟨TargetFlows.internTogether_eq hnd length, targets_perm htree, ?_, rfl, rfl, rfl, rfl⟩
  exact (targets_perm htree').trans (targets_perm htree).symm

/-- A target that holds a constant in the second of three steps, and its lane otherwise. -/
def first : TargetFlows :=
  ⟨0, .lane, [.absent, .constant (.ofNat 9 4), .raw (.ofNat 3 4)]⟩

/-- A target that forwards one of two signals. -/
def second : TargetFlows := ⟨1, .forward 2, [.forward 0, .absent, .forward 0]⟩

/-- A target that is not neutral in the last step only. -/
def third : TargetFlows :=
  ⟨2, .literal (.ofNat 0 1), [.absent, .absent, .constant (.ofNat 1 1)]⟩

theorem merged_independent_three :
    ∃ g g', (node (node (leaf first.table) (leaf second.table)) (leaf third.table)).merged = .ok g ∧
      (node (leaf second.table) (node (leaf third.table) (leaf first.table))).merged = .ok g' ∧
      TargetFlows.internTogether [first, second, third] 3 = (0 :: g.symbols, g.table) ∧
      g.targets.Perm [0, 1, 2] ∧ g'.targets.Perm g.targets ∧
      g'.symbols = g.symbols ∧ g'.table = g.table ∧ g'.count = g.count ∧ g'.width = g.width := by
  have hrotate : [second.table, third.table, first.table].Perm [first.table, second.table, third.table] :=
    List.perm_append_singleton first.table [second.table, third.table]
  exact merged_independent (by decide) (by decide) (by decide) (.refl _) hrotate

end MergeTree

end ControlStore
