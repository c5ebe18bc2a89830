import ControlStore.Proofs.Capacity
import ControlStore.Proofs.Saturation

/-! # What a report says of its design

The figures of a report are taken at different times: the initial ones before the first merge, the number of
generations after the last one, and the histogram from the fields.  They fit together
(`Report.Describes`), since a sum over the histogram is one over the widths that were counted
(`Report.sum_histogramOf`).

Within the bound zero no merge is possible (`Slots.Sound.not_merges_zero`), so the design for this bound is
the uncompressed one.  The lanes do not depend on the bound at all. -/

namespace ControlStore

open NatMap (tabulate)
open SymbolTable

/-! ### Histograms -/

namespace NatMap

theorem sum_insertEntry (weight : Nat → Nat) (key n : Nat) {l : List (Nat × Nat)}
    (h : l.Pairwise fun a b => a.1 < b.1) :
    ((insertEntry key n l).map fun e => weight e.1 * e.2).sum + weight key * (l.lookup key).getD 0 =
      (l.map fun e => weight e.1 * e.2).sum + weight key * n := by
  induction l with
  | nil => simp [insertEntry]
  | cons hd tl ih =>
      obtain ⟨k, b⟩ := hd
      obtain ⟨hk, htl⟩ := List.pairwise_cons.mp h
      rw [insertEntry]
      split
      · next hlt =>
        have hnone : ((k, b) :: tl).lookup key = none := lookup_eq_none_of_lt <| List.forall_mem_cons.mpr
          ⟨hlt, fun e he => Nat.lt_trans hlt (hk e he)⟩
        simp only [hnone, List.map_cons, List.sum_cons, Option.getD_none, Nat.mul_zero]
        omega
      · split
        · next heq =>
          subst heq
          simp only [List.lookup_cons_self, List.map_cons, List.sum_cons, Option.getD_some]
          omega
        · next hne =>
          have hlookup : ((k, b) :: tl).lookup key = tl.lookup key := by
            rw [List.lookup_cons, beq_false_of_ne hne]
          have := ih htl
          simp only [hlookup, List.map_cons, List.sum_cons]
          omega

/-- What setting an entry changes in a sum over a map. -/
theorem sum_insert (weight : Nat → Nat) (m : NatMap Nat) (key n : Nat) :
    ((m.insert key n).entries.map fun e => weight e.1 * e.2).sum + weight key * (m.get? key).getD 0 =
      (m.entries.map fun e => weight e.1 * e.2).sum + weight key * n :=
  sum_insertEntry weight key n m.ascending

end NatMap

namespace Report

/-- A sum over a histogram is a sum over what was counted. -/
theorem sum_histogramOf (weight : Nat → Nat) (widths : List Nat) :
    ((histogramOf widths).entries.map fun e => weight e.1 * e.2).sum = (widths.map weight).sum := by
  have general : ∀ (widths : List Nat) (h : NatMap Nat),
      ((widths.foldl (fun h w => h.insert w ((h.get? w).getD 0 + 1)) h).entries.map
        fun e => weight e.1 * e.2).sum =
      (h.entries.map fun e => weight e.1 * e.2).sum + (widths.map weight).sum := by
    intro widths
    induction widths with
    | nil => exact fun h => rfl
    | cons w widths ih =>
        intro h
        have hinsert := NatMap.sum_insert weight h w ((h.get? w).getD 0 + 1)
        rw [Nat.mul_add, Nat.mul_one] at hinsert
        rw [List.foldl_cons, ih, List.map_cons, List.sum_cons]
        omega
  exact (general widths .empty).trans (Nat.zero_add _)

theorem mem_keys_histogramOf {widths : List Nat} {w : Nat} : w ∈ (histogramOf widths).keys ↔ w ∈ widths := by
  have general : ∀ (widths : List Nat) (h : NatMap Nat),
      w ∈ (widths.foldl (fun h w => h.insert w ((h.get? w).getD 0 + 1)) h).keys ↔ w ∈ h.keys ∨ w ∈ widths := by
    intro widths
    induction widths with
    | nil => simp
    | cons v widths ih =>
        intro h
        rw [List.foldl_cons, ih, NatMap.mem_keys_iff, NatMap.get?_insert, NatMap.mem_keys_iff, List.mem_cons]
        split <;> simp [*]
  exact (general widths .empty).trans (by simp [NatMap.keys, NatMap.empty])

theorem foldl_max_zero (l : List Nat) : l.foldl max 0 = l.max?.getD 0 := by
  cases l with
  | nil => rfl
  | cons a l =>
      rw [List.foldl_cons, Nat.zero_max]
      rfl

theorem max?_congr {l l' : List Nat} (h : ∀ a, a ∈ l ↔ a ∈ l') : l.max? = l'.max? := by
  apply Option.ext
  intro a
  simp only [List.max?_eq_some_iff, h]

/-- What a report says of the design `d` of the matrix `m`. -/
structure Describes (m : FlowMatrix) (d : Design) (report : Report) : Prop where
  wordWidth : report.controlWordWidth = .ok d.width
  valueBits : report.valueBits = d.packing.width
  initialValueBits : report.initialValueBits = m.laneBits
  valueBits_le : report.valueBits ≤ report.initialValueBits
  initialSelectorBits : report.initialSelectorBits = m.selectorBits
  selectorBits_le : report.selectorBits ≤ report.initialSelectorBits
  fields_counted : report.histogram.values.sum = d.fields.length
  bits_counted : (report.histogram.entries.map fun e => e.1 * e.2).sum = report.selectorBits
  widest : report.widestSelector = (d.fields.map MicroField.width).max?.getD 0

end Report

/-! ### Within the bound zero -/

namespace Slots

variable {neutral : SignalId → Content} {steps : List (SignalId → Content)} {targets : List SignalId}
  {slots slots' : Slots}

/-- A group with more than one symbol needs a selector bit, and a merge does not lose symbols. -/
theorem Sound.not_merges_zero (hs : slots.Sound neutral steps targets) :
    ¬ Merges neutral steps 0 slots slots' := by
  rintro ⟨hij, h₀, h₁, hc₀, hc₁, saves, fits⟩
  next i j g₀ g₁ =>
  have hcount : (ofContents g₀.targets neutral steps).count ≤
      (ofContents (g₀.targets ++ g₁.targets) neutral steps).count :=
    count_le_of_subset (List.subset_append_left _ _)
  rw [← hs.numbers i g₀ h₀] at hcount
  rw [SymbolTable.width_eq, selectorWidth_le_iff] at fits
  omega

end Slots

namespace MergeState

open Slots

variable {neutral : SignalId → Content} {steps : List (SignalId → Content)} {targets : List SignalId}

theorem mergeGroups_zero (hnd : targets.Nodup) {tables : List SymbolTable}
    (htables : tables = targets.map fun t => ofContents [t] neutral steps) {s : MergeState}
    (h : mergeGroups 0 tables = .ok s) : s.slots = tables.map some ∧ s.generation = 0 := by
  have hs := sound_start htables hnd
  obtain ⟨s', hrun, -, hmerges, hreach, -⟩ := mergeGroups_ok neutral steps 0 hnd htables
  obtain rfl := Except.ok.inj (hrun.symm.trans h)
  have hslots : tables.map some = s'.slots := by
    rcases hmerges.cases_head with heq | ⟨slots₁, hmerge, -⟩
    · exact heq
    · exact absurd hmerge hs.not_merges_zero
  obtain ⟨-, hlive⟩ := spends_of_reaches hs (recorded_start tables) hreach
  have hlive' : s'.slots.live = (start tables).slots.live := congrArg live hslots.symm
  have hzero : (start tables).generation = 0 := rfl
  exact ⟨hslots.symm, by omega⟩

end MergeState

namespace Design

variable {m : FlowMatrix} {d : Design} {report : Report} {bound : Nat}

/-- Every figure of a report is that of its design. -/
theorem describes_of_compute (hv : m.validate = .ok ()) (h : (compute m bound).result = .ok (d, report)) :
    report.Describes m d := by
  obtain ⟨s, hmerge, hpack, htables, hwidth, hlt, hlanes, -, rfl⟩ := compute_spec hv h
  obtain ⟨p, hpack', -, -, hle⟩ := FlowMatrix.exists_packing hv hlanes
  obtain rfl := Except.ok.inj (hpack'.symm.trans hpack)
  obtain ⟨s', hmerge', hbits⟩ := exists_merged m bound
  obtain rfl := Except.ok.inj (hmerge'.symm.trans hmerge)
  have hwidths : (d.fields.map MicroField.width).sum = s'.slots.selectorBits := by
    rw [← Slots.sum_width_groups, ← htables, List.map_map]
    rfl
  refine ⟨?_, rfl, rfl, hle, rfl, hbits, ?_, ?_, ?_⟩
  · have hsum : s'.slots.selectorBits + d.packing.width = d.width := by omega
    exact Width.add_eq_ok_iff.mpr ⟨hsum, hsum ▸ hlt⟩
  · have hcount := Report.sum_histogramOf (fun _ => 1) (d.fields.map MicroField.width)
    simpa [NatMap.values, Function.comp_def] using hcount
  · have hsum := Report.sum_histogramOf id (d.fields.map MicroField.width)
    rw [List.map_id, hwidths] at hsum
    exact hsum
  · unfold Report.widestSelector
    rw [Report.foldl_max_zero, Report.max?_congr fun w => Report.mem_keys_histogramOf]

/-- The report of a design gives its widths, and its histogram counts the fields and their bits.  Within the
bound zero nothing is merged; no other bound gives a wider control word, and all give the same lanes. -/
theorem report_fits_design (hv : m.validate = .ok ()) (hfit : m.laneBits + m.selectorBits < Width.limit)
    (bound : Nat) :
    ∃ d report d₀ report₀, (compute m bound).result = .ok (d, report) ∧
      (compute m 0).result = .ok (d₀, report₀) ∧ report.Describes m d ∧
      report₀.generations = 0 ∧ d₀.fields.map MicroField.table = initialTables m d₀.neutral ∧
      d.width ≤ d₀.width ∧ d.packing = d₀.packing := by
  obtain ⟨d, report, hcompute, -⟩ := compute_ok hv hfit bound
  obtain ⟨d₀, report₀, hcompute₀, hd₀⟩ := compute_ok hv hfit 0
  obtain ⟨s, hmerge, hpack, -, hwidth, -⟩ := compute_spec hv hcompute
  obtain ⟨s₀, hmerge₀, hpack₀, htables₀, hwidth₀, -, -, -, hreport₀⟩ := compute_spec hv hcompute₀
  have hpacking := Except.ok.inj (hpack.symm.trans hpack₀)
  obtain ⟨hslots₀, hgeneration₀⟩ := MergeState.mergeGroups_zero m.targets_nodup (initialTables_eq m) hmerge₀
  obtain ⟨s', hmerge', hbits⟩ := exists_merged m bound
  obtain rfl := Except.ok.inj (hmerge'.symm.trans hmerge)
  refine ⟨d, report, d₀, report₀, hcompute, hcompute₀, describes_of_compute hv hcompute, ?_, ?_, ?_, hpacking⟩
  · rw [hreport₀]
    exact hgeneration₀
  · rw [htables₀, hslots₀, hd₀.neutral]
    exact List.filterMap_map.trans List.filterMap_some
  · have hbits₀ : s₀.slots.selectorBits = m.selectorBits := by
      rw [hslots₀, initialTables_eq, ← selectorBits_single, List.map_map]
      rfl
    rw [hwidth, hwidth₀, hpacking]
    omega

theorem report_fits_mixed : ∃ d report d₀ report₀, (compute .mixed 2).result = .ok (d, report) ∧
    (compute .mixed 0).result = .ok (d₀, report₀) ∧ report.Describes .mixed d ∧
    report₀.generations = 0 ∧ d₀.fields.map MicroField.table = initialTables .mixed d₀.neutral ∧
    d.width ≤ d₀.width ∧ d.packing = d₀.packing :=
  report_fits_design (by decide) (by decide) 2

end Design

end ControlStore
