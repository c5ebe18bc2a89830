import ControlStore.Proofs.MergeTrees

/-! # The width of a joint selector

Two tables over different targets number contents of all their targets, those of the one being chosen
independently of those of the other (`SymbolTable.Numbers.exists_common`).  So every table that merges lead to
numbers contents (`SymbolTable.Reachable.exists_numbers`): each of its symbols stands for the contents of the
neutral flow or of some step.  A joint symbol belongs to a pair of symbols, which bounds their number from above,
and every symbol of a part occurs in some pair, which bounds it from below
(`SymbolTable.Reachable.joint_between_parts`). -/

namespace ControlStore

open NatMap (tabulate)

namespace SymbolTable

variable {g g₀ g₁ : SymbolTable}

/-! ### Tables over different targets -/

/-- What a table numbers depends only on what its targets hold. -/
theorem Numbers.congr {neutral neutral' : SignalId → Content} {steps steps' : List (SignalId → Content)}
    (h : g.Numbers neutral steps) (hneutral : ∀ t ∈ g.targets, neutral' t = neutral t)
    (hsteps : steps'.map (fun c => tabulate c g.targets) = steps.map fun c => tabulate c g.targets) :
    g.Numbers neutral' steps' := by
  have hall : (neutral' :: steps').map (fun c => tabulate c g.targets) =
      (neutral :: steps).map fun c => tabulate c g.targets := by
    rw [List.map_cons, List.map_cons, NatMap.tabulate_congr hneutral, hsteps]
  refine h.trans (SymbolTable.ext rfl ?_ ?_)
  · have hpositions := congrArg (List.map (Interned.ofValues
      ((neutral :: steps).map fun c => tabulate c g.targets)).positionOf) hsteps.symm
    rw [List.map_map, List.map_map] at hpositions
    rw [symbols_ofContents, symbols_ofContents, hall]
    exact hpositions
  · rw [table_ofContents, table_ofContents, hall]

theorem Numbers.length_symbols {neutral : SignalId → Content} {steps : List (SignalId → Content)}
    (h : g.Numbers neutral steps) : g.symbols.length = steps.length := by
  rw [h.symbols_eq, List.length_map]

/-- There is one symbol for the neutral flow, and at most one more for every step. -/
theorem Numbers.count_le {neutral : SignalId → Content} {steps : List (SignalId → Content)}
    (h : g.Numbers neutral steps) : g.count ≤ steps.length + 1 := by
  have hsub : g.table.values ⊆ (neutral :: steps).map fun c => tabulate c g.targets := by
    intro v hv
    obtain ⟨c, hc, rfl⟩ := h.mem_values_iff.mp hv
    exact List.mem_map_of_mem hc
  have hle := h.values_nodup.length_le_of_subset hsub
  rwa [List.length_map, List.length_cons] at hle

/-- The contents `c` on the targets `ts`, and `d` elsewhere. -/
def splice (ts : List SignalId) (c d : SignalId → Content) (t : SignalId) : Content :=
  if t ∈ ts then c t else d t

theorem tabulate_splice_left (ts : List SignalId) (c d : SignalId → Content) :
    tabulate (splice ts c d) ts = tabulate c ts :=
  NatMap.tabulate_congr fun _ ht => if_pos ht

theorem tabulate_splice_right {ts us : List SignalId} (h : ts.Disjoint us) (c d : SignalId → Content) :
    tabulate (splice ts c d) us = tabulate d us :=
  NatMap.tabulate_congr fun _ ht => if_neg fun ht' => h ht' ht

/-- Two tables over different targets, with equally many steps, number the same contents. -/
theorem Numbers.exists_common {neutral₀ neutral₁ : SignalId → Content}
    {steps₀ steps₁ : List (SignalId → Content)} (h₀ : g₀.Numbers neutral₀ steps₀)
    (h₁ : g₁.Numbers neutral₁ steps₁) (hdisj : g₀.targets.Disjoint g₁.targets)
    (hlength : steps₀.length = steps₁.length) :
    ∃ neutral steps, g₀.Numbers neutral steps ∧ g₁.Numbers neutral steps := by
  refine ⟨splice g₀.targets neutral₀ neutral₁, List.zipWith (splice g₀.targets) steps₀ steps₁, ?_, ?_⟩
  · apply h₀.congr
    · exact fun t ht => if_pos ht
    · apply List.ext_getElem
      · simp [hlength]
      · simp [tabulate_splice_left]
  · apply h₁.congr
    · exact fun t ht => if_neg fun ht' => hdisj ht' ht
    · apply List.ext_getElem
      · simp [hlength]
      · simp [tabulate_splice_right hdisj]

/-! ### Tables that merges lead to -/

/-- The tables that targets start with and that merges lead to. -/
inductive Reachable : SymbolTable → Prop
  | single (f : TargetFlows) : Reachable f.table
  | merge {g₀ g₁ g : SymbolTable} (h₀ : Reachable g₀) (h₁ : Reachable g₁) (h : g₀.merge g₁ = .ok g) :
      Reachable g

/-- What the checks of a merge that succeeds have found. -/
theorem merge_checks (h : g₀.merge g₁ = .ok g) : 1 < g₀.count ∧ 1 < g₁.count ∧
    g₀.symbols.length = g₁.symbols.length ∧ g₀.targets.Disjoint g₁.targets := by
  obtain ⟨c, hc, hrealize⟩ := bind_eq_ok_iff.mp h
  obtain ⟨_, hcounts, hc⟩ := bind_eq_ok_iff.mp hc
  obtain ⟨joint, hjoint, -⟩ := bind_eq_ok_iff.mp hc
  obtain ⟨_, htargets, -⟩ := bind_eq_ok_iff.mp hrealize
  rw [ensure_eq_ok_iff, Bool.and_eq_true, decide_eq_true_eq, decide_eq_true_eq] at hcounts
  rw [ensure_eq_ok_iff, List.all_eq_true] at htargets
  refine ⟨hcounts.1, hcounts.2, ?_, fun t ht ht' => ?_⟩
  · obtain ⟨_, hlength, -⟩ := bind_eq_ok_iff.mp hjoint
    rwa [ensure_eq_ok_iff, decide_eq_true_eq] at hlength
  · simpa [ht'] using htargets t ht

theorem numbers_single (f : TargetFlows) : f.table.Numbers (fun _ => f.neutral)
    (f.flows.map fun flow _ => Content.of flow f.neutral) := by
  have hflows : f.flows.map (fun flow => Content.of flow f.neutral) =
      (f.flows.map fun flow (_ : SignalId) => Content.of flow f.neutral).map fun c => c f.target := by
    rw [List.map_map]
    rfl
  exact @forTarget_eq_ofContents (fun _ => f.neutral) _ f.target f.flows hflows

/-- Every table that merges lead to numbers contents. -/
theorem Reachable.exists_numbers (h : g.Reachable) : ∃ neutral steps, g.Numbers neutral steps := by
  induction h with
  | single f => exact ⟨_, _, numbers_single f⟩
  | @merge g₀ g₁ g h₀ h₁ h ih₀ ih₁ =>
      obtain ⟨hc₀, hc₁, hlength, hdisj⟩ := merge_checks h
      obtain ⟨neutral₀, steps₀, hnum₀⟩ := ih₀
      obtain ⟨neutral₁, steps₁, hnum₁⟩ := ih₁
      rw [hnum₀.length_symbols, hnum₁.length_symbols] at hlength
      obtain ⟨neutral, steps, hnum₀, hnum₁⟩ := hnum₀.exists_common hnum₁ hdisj hlength
      refine ⟨neutral, steps, ?_⟩
      rw [hnum₀] at hc₀ h
      rw [hnum₁] at hc₁ h
      obtain rfl := Except.ok.inj ((merge_ok hdisj hc₀ hc₁).symm.trans h)
      exact numbers_ofContents _ neutral steps

/-! ### The joint selector of two tables -/

/-- The joint symbols of two tables that number the same contents are at least as many as those of either
table, and at most as many as the pairs of their symbols or as the steps with the neutral flow. -/
theorem Numbers.count_joint {neutral : SignalId → Content} {steps : List (SignalId → Content)}
    (h₀ : g₀.Numbers neutral steps) (h₁ : g₁.Numbers neutral steps) {c : MergeCandidate}
    (hc₀ : 1 < g₀.count) (hc₁ : 1 < g₁.count) (hc : MergeCandidate.ofGroups g₀ g₁ = .ok c) :
    g₀.count ≤ c.count ∧ g₁.count ≤ c.count ∧ c.count ≤ g₀.count * g₁.count ∧ c.count ≤ steps.length + 1 := by
  obtain ⟨hjoint, -, -⟩ := MergeCandidate.ofGroups_spec h₀ h₁ hc₀ hc₁ hc
  have hcount : c.count = (ofContents (g₀.targets ++ g₁.targets) neutral steps).count := by
    unfold MergeCandidate.count
    rw [hjoint, MergeCandidate.size_jointOf h₀ h₁]
  refine ⟨?_, ?_, ?_, ?_⟩
  · rw [hcount, h₀]
    exact count_le_of_subset (List.subset_append_left _ _)
  · rw [hcount, h₁]
    exact count_le_of_subset (List.subset_append_right _ _)
  · unfold MergeCandidate.count
    rw [hjoint]
    exact MergeCandidate.size_jointOf_le h₀ h₁
  · rw [hcount]
    exact (numbers_ofContents _ neutral steps).count_le

/-- Two tables that merges lead to, over different targets and with equally many steps, have a candidate.  Its
symbols and its width lie between those of the parts and those of the parts side by side, so it saves no more
than the narrower part. -/
theorem Reachable.joint_between_parts {g₀ g₁ : SymbolTable} (h₀ : g₀.Reachable) (h₁ : g₁.Reachable)
    (hdisj : ∀ t ∈ g₀.targets, t ∉ g₁.targets) (hsteps : g₀.symbols.length = g₁.symbols.length)
    (hc₀ : 1 < g₀.count) (hc₁ : 1 < g₁.count) :
    ∃ c, MergeCandidate.ofGroups g₀ g₁ = .ok c ∧
      max g₀.count g₁.count ≤ c.count ∧ c.count ≤ min (g₀.count * g₁.count) (g₀.symbols.length + 1) ∧
      max g₀.width g₁.width ≤ c.width ∧ c.width ≤ g₀.width + g₁.width ∧
      c.score + c.width = g₀.width + g₁.width ∧ c.score ≤ min g₀.width g₁.width := by
  obtain ⟨neutral₀, steps₀, hnum₀⟩ := h₀.exists_numbers
  obtain ⟨neutral₁, steps₁, hnum₁⟩ := h₁.exists_numbers
  rw [hnum₀.length_symbols, hnum₁.length_symbols] at hsteps
  obtain ⟨neutral, steps, hnum₀, hnum₁⟩ := hnum₀.exists_common hnum₁ hdisj hsteps
  obtain ⟨c, hc⟩ : ∃ c, MergeCandidate.ofGroups g₀ g₁ = .ok c :=
    ⟨_, MergeCandidate.ofGroups_ok hnum₀ hnum₁ hc₀ hc₁⟩
  obtain ⟨hle₀, hle₁, hpairs, hmost⟩ := hnum₀.count_joint hnum₁ hc₀ hc₁ hc
  obtain ⟨-, -, hscore⟩ := MergeCandidate.ofGroups_spec hnum₀ hnum₁ hc₀ hc₁ hc
  have hwidth₀ : g₀.width ≤ c.width := by
    rw [width_eq, MergeCandidate.width_eq]
    exact selectorWidth_mono hle₀
  have hwidth₁ : g₁.width ≤ c.width := by
    rw [width_eq, MergeCandidate.width_eq]
    exact selectorWidth_mono hle₁
  rw [hnum₀.length_symbols]
  exact ⟨c, hc, by omega, Nat.le_min.mpr ⟨hpairs, hmost⟩, by omega, by omega, hscore, by omega⟩

/-- The joint selector of the first target with the other two, which are merged before. -/
theorem Reachable.joint_between_first_and_others :
    ∃ g, MergeTree.second.table.merge MergeTree.third.table = .ok g ∧
      ∃ c, MergeCandidate.ofGroups MergeTree.first.table g = .ok c ∧
        max MergeTree.first.table.count g.count ≤ c.count ∧
        c.count ≤ min (MergeTree.first.table.count * g.count) (MergeTree.first.table.symbols.length + 1) ∧
        max MergeTree.first.table.width g.width ≤ c.width ∧
        c.width ≤ MergeTree.first.table.width + g.width ∧
        c.score + c.width = MergeTree.first.table.width + g.width ∧
        c.score ≤ min MergeTree.first.table.width g.width :=
  ⟨_, rfl, joint_between_parts (.single MergeTree.first)
    (.merge (.single MergeTree.second) (.single MergeTree.third) rfl) (by decide) (by decide) (by decide)
    (by decide)⟩

end SymbolTable

end ControlStore
