import ControlStore.Proofs.Partition

/-! # The bound on merged selectors

A merged selector is never wider than the bound, since every merge is checked against it
(`Slots.Narrow`).  A target is left alone if it has one symbol only, or if its own selector is wider
than the bound: a merge never loses a symbol (`SymbolTable.count_le_of_subset`), so no group with that
target would stay within the bound (`Slots.LeavesAlone`). -/

namespace ControlStore

open SymbolTable

namespace Slots

variable {neutral : SignalId → Content} {steps : List (SignalId → Content)} {bound : Nat}
  {targets : List SignalId} {slots slots' : Slots} {t : SignalId}

/-! ### Groups of several targets -/

/-- Groups of several targets are within the bound. -/
def Narrow (bound : Nat) (slots : Slots) : Prop :=
  ∀ i g, slots.Holds i g → 1 < g.targets.length → g.width ≤ bound

theorem narrow_single : (single neutral steps targets).Narrow bound := by
  intro i g hg hlen
  obtain ⟨t, -, rfl⟩ := holds_single_iff.mp hg
  exact absurd hlen (Nat.lt_irrefl 1)

theorem Merges.narrow (h : Merges neutral steps bound slots slots') (hs : slots.Narrow bound) :
    slots'.Narrow bound := by
  cases h with
  | @merge i j g₀ g₁ hij h₀ h₁ _ _ _ fits =>
      intro k g hg hlen
      rcases (holds_join (Nat.ne_of_lt hij) h₀ h₁).mp hg with ⟨-, rfl⟩ | ⟨-, -, hold⟩
      · exact fits
      · exact hs k g hold hlen

/-! ### Targets that are left alone -/

/-- A target that no merge within the bound can take in. -/
def Unmergeable (neutral : SignalId → Content) (steps : List (SignalId → Content)) (bound : Nat)
    (t : SignalId) : Prop :=
  bound < (ofContents [t] neutral steps).width ∨ (ofContents [t] neutral steps).count = 1

/-- The only group with the target `t` is its own. -/
def LeavesAlone (neutral : SignalId → Content) (steps : List (SignalId → Content)) (t : SignalId)
    (slots : Slots) : Prop :=
  ∀ i g, slots.Holds i g → t ∈ g.targets → g = ofContents [t] neutral steps

theorem leavesAlone_single : (single neutral steps targets).LeavesAlone neutral steps t := by
  intro i g hg ht
  obtain ⟨u, -, rfl⟩ := holds_single_iff.mp hg
  rw [List.mem_singleton.mp ht]

theorem Merges.leavesAlone (ht : Unmergeable neutral steps bound t)
    (h : Merges neutral steps bound slots slots') (hs : slots.LeavesAlone neutral steps t) :
    slots'.LeavesAlone neutral steps t := by
  cases h with
  | @merge i j g₀ g₁ hij h₀ h₁ hc₀ hc₁ _ fits =>
      intro k g hg hmem
      rcases (holds_join (Nat.ne_of_lt hij) h₀ h₁).mp hg with ⟨-, rfl⟩ | ⟨-, -, hold⟩
      · exfalso
        have hcount : 1 < (ofContents [t] neutral steps).count := by
          rcases List.mem_append.mp hmem with hmem | hmem
          · rwa [← hs i g₀ h₀ hmem]
          · rwa [← hs j g₁ h₁ hmem]
        have hwidth : (ofContents [t] neutral steps).width ≤
            (ofContents (g₀.targets ++ g₁.targets) neutral steps).width :=
          width_le_of_subset fun _ hu => List.mem_singleton.mp hu ▸ hmem
        rcases ht with hwide | hone
        · omega
        · omega
      · exact hs k g hold hmem

end Slots

namespace Design

/-- Selectors of several targets are within the bound.  Merging starts with a table for every target;
one that is wider than the bound or has one symbol only is the table of a field of its own. -/
structure WithinBound (m : FlowMatrix) (bound : Nat) (d : Design) : Prop where
  narrow : ∀ f ∈ d.fields, 1 < f.table.targets.length → f.width ≤ bound
  starts : (initialTables m d.neutral).map SymbolTable.targets = m.targets.map fun t => [t]
  alone : ∀ own ∈ initialTables m d.neutral, bound < own.width ∨ own.count = 1 →
    ∃ f ∈ d.fields, f.table = own ∧ ∀ g ∈ d.fields, ∀ t ∈ own.targets, t ∈ g.table.targets → g = f

/-- A target is in one field. -/
theorem LaysOut.field_unique {m : FlowMatrix} {d : Design} (h : LaysOut m d) {f g : MicroField}
    (hf : f ∈ d.fields) (hg : g ∈ d.fields) {t : SignalId} (hft : t ∈ f.table.targets)
    (hgt : t ∈ g.table.targets) : g = f := by
  have hdisjoint := (List.nodup_flatMap.mp (h.targets_perm.nodup_iff.mpr m.targets_nodup)).2
  have : Std.Symm (Function.onFun List.Disjoint fun f : MicroField => f.table.targets) :=
    ⟨fun _ _ hfg _ hf hg => hfg hg hf⟩
  by_contra hne
  exact hdisjoint.forall hg hf hne hgt hft

/-- The selectors of every valid matrix whose lanes and selectors fit a word are within the bound,
whatever the bound is. -/
theorem selectors_within_bound {m : FlowMatrix} (hv : m.validate = .ok ())
    (hfit : m.laneBits + m.selectorBits < Width.limit) (bound : Nat) :
    ∃ d report, (compute m bound).result = .ok (d, report) ∧ WithinBound m bound d := by
  obtain ⟨d, report, hcompute, h⟩ := compute_ok hv hfit bound
  obtain ⟨slots, hreach, hlayout⟩ := exists_slots hv hcompute
  obtain ⟨htables, -, -⟩ := layout_position hlayout
  have hgroup : ∀ f ∈ d.fields, ∃ i, slots.Holds i f.table := by
    intro f hf
    exact Slots.mem_groups_iff.mp (htables ▸ List.mem_map_of_mem hf)
  refine ⟨d, report, hcompute, ?_, ?_, ?_⟩
  · intro f hf hlen
    obtain ⟨i, hi⟩ := hgroup f hf
    have hnarrow := Slots.kept_of_reaches (fun _ _ hmerges => hmerges.narrow) hreach Slots.narrow_single
    exact hnarrow i f.table hi hlen
  · rw [h.neutral, initialTables_eq, List.map_map]
    rfl
  · rw [h.neutral, initialTables_eq]
    intro own hown hwide
    obtain ⟨t, ht, rfl⟩ := List.mem_map.mp hown
    obtain ⟨f, hf, hft⟩ := List.mem_flatMap.mp (h.targets_perm.mem_iff.mpr ht)
    obtain ⟨i, hi⟩ := hgroup f hf
    have halone := Slots.kept_of_reaches (fun _ _ hmerges => hmerges.leavesAlone hwide) hreach
      Slots.leavesAlone_single
    refine ⟨f, hf, halone i f.table hi hft, fun g hg u hu hgu => ?_⟩
    obtain rfl : u = t := List.mem_singleton.mp hu
    exact h.field_unique hf hg hft hgu

/-- Two bits are enough to merge the second and the third target, one bit is not. -/
theorem mixed_within_bound :
    (∃ d report, (compute .mixed 2).result = .ok (d, report) ∧ WithinBound .mixed 2 d) ∧
      ∃ d report, (compute .mixed 1).result = .ok (d, report) ∧ WithinBound .mixed 1 d :=
  ⟨selectors_within_bound (by decide) (by decide) 2, selectors_within_bound (by decide) (by decide) 1⟩

end Design

end ControlStore
