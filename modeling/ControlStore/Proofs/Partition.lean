import ControlStore.Proofs.Layout

/-! # The control word as a partition

A merge appends the targets of a later slot to those of an earlier one, so every group starts with
the target that its slot was made for, and only later targets follow (`Slots.Led`).  The fields take
over the groups in the order of their slots and lie one behind the other (`Design.layout_position`).
Together this is `Design.Partitioned`: every target is in one field, the fields divide the bits
behind the value word, and they are listed in the order of their smallest targets. -/

namespace ControlStore

open SymbolTable

/-! ### First targets -/

namespace Slots

variable {neutral : SignalId → Content} {steps : List (SignalId → Content)} {bound : Nat}
  {targets : List SignalId} {slots slots' : Slots}

/-- The group in a slot starts with the target of that slot, and only later targets follow. -/
def Led (targets : List SignalId) (slots : Slots) : Prop :=
  ∀ i g, slots.Holds i g →
    ∃ first rest, targets[i]? = some first ∧ g.targets = first :: rest ∧ ∀ t ∈ rest, first < t

theorem led_single (neutral : SignalId → Content) (steps : List (SignalId → Content))
    (targets : List SignalId) : (single neutral steps targets).Led targets := by
  intro i g hg
  obtain ⟨t, ht, rfl⟩ := holds_single_iff.mp hg
  exact ⟨t, [], ht, rfl, by simp⟩

theorem Merges.led (hasc : targets.Pairwise (· < ·)) (h : Merges neutral steps bound slots slots')
    (hs : slots.Led targets) : slots'.Led targets := by
  cases h with
  | @merge i j g₀ g₁ hij h₀ h₁ _ _ _ _ =>
      intro k g hg
      rcases (holds_join (Nat.ne_of_lt hij) h₀ h₁).mp hg with ⟨rfl, rfl⟩ | ⟨-, -, hold⟩
      · obtain ⟨t₀, rest₀, ht₀, hg₀, hlt₀⟩ := hs k g₀ h₀
        obtain ⟨t₁, rest₁, ht₁, hg₁, hlt₁⟩ := hs j g₁ h₁
        have hlt : t₀ < t₁ := by
          obtain ⟨hk, rfl⟩ := List.getElem?_eq_some_iff.mp ht₀
          obtain ⟨hj, rfl⟩ := List.getElem?_eq_some_iff.mp ht₁
          exact List.pairwise_iff_getElem.mp hasc k j hk hj hij
        refine ⟨t₀, rest₀ ++ t₁ :: rest₁, ht₀, ?_, ?_⟩
        · show g₀.targets ++ g₁.targets = _
          rw [hg₀, hg₁, List.cons_append]
        · intro t ht
          simp only [List.mem_append, List.mem_cons] at ht
          rcases ht with ht | rfl | ht
          · exact hlt₀ t ht
          · exact hlt
          · exact Nat.lt_trans hlt (hlt₁ t ht)
      · exact hs k g hold

theorem led_of_reaches (hasc : targets.Pairwise (· < ·))
    (h : Relation.ReflTransGen (Merges neutral steps bound) slots slots') (hs : slots.Led targets) :
    slots'.Led targets :=
  kept_of_reaches (fun _ _ hmerges => hmerges.led hasc) h hs

/-- The groups stand in the order of their first targets. -/
theorem Led.groups_ascending (hasc : targets.Pairwise (· < ·)) (hs : slots.Led targets) :
    slots.groups.Pairwise fun g h => ∀ t ∈ g.targets.head?, ∀ u ∈ h.targets.head?, t < u := by
  unfold groups
  rw [List.pairwise_filterMap, List.pairwise_iff_getElem]
  intro i j hi hj hij g hg h hh t ht u hu
  have hgi : slots.Holds i g := (List.getElem?_eq_getElem hi).trans (congrArg some hg)
  have hhj : slots.Holds j h := (List.getElem?_eq_getElem hj).trans (congrArg some hh)
  obtain ⟨first, rest, hfirst, hgt, -⟩ := hs i g hgi
  obtain ⟨first', rest', hfirst', hht, -⟩ := hs j h hhj
  obtain rfl : first = t := by simpa [hgt] using ht
  obtain rfl : first' = u := by simpa [hht] using hu
  obtain ⟨hi', rfl⟩ := List.getElem?_eq_some_iff.mp hfirst
  obtain ⟨hj', rfl⟩ := List.getElem?_eq_some_iff.mp hfirst'
  exact List.pairwise_iff_getElem.mp hasc i j hi' hj' hij

/-- Merging never adds groups. -/
theorem length_groups_le
    (h : Relation.ReflTransGen (Merges neutral steps bound) (single neutral steps targets) slots) :
    slots.groups.length ≤ targets.length := by
  have hstep : ∀ s s' : Slots, Merges neutral steps bound s s' → s.length = targets.length →
      s'.length = targets.length := by
    rintro s _ ⟨⟩ hs
    rw [join, List.length_set, List.length_set, hs]
  rw [← kept_of_reaches hstep h (List.length_map _)]
  exact List.length_filterMap_le _ _

end Slots

namespace Design

/-! ### Positions of the fields -/

/-- The fields take over the tables one by one.  Each starts behind those before it and is numbered
by its position. -/
theorem layout_position {tables : List SymbolTable} {offset order stop : Nat} {fields : List MicroField}
    (h : layout offset order tables = .ok (fields, stop)) :
    fields.map MicroField.table = tables ∧ stop = offset + (fields.map MicroField.width).sum ∧
      ∀ k f, fields[k]? = some f → f.order = order + k ∧
        f.offset = offset + ((fields.take k).map MicroField.width).sum := by
  induction tables generalizing offset order fields with
  | nil =>
      cases h
      simp
  | cons table tables ih =>
      simp only [layout, bind_eq_ok_iff, Width.add_eq_ok_iff, Prod.exists, pure_eq_ok, Except.ok.injEq,
        Prod.mk.injEq] at h
      obtain ⟨next, ⟨rfl, -⟩, rest, stop', hrest, rfl, rfl⟩ := h
      obtain ⟨htables, hstop, hposition⟩ := ih hrest
      have hwidth : (⟨table, offset, order⟩ : MicroField).width = table.width := rfl
      refine ⟨by rw [List.map_cons, htables], ?_, fun k f hf => ?_⟩
      · simp only [List.map_cons, List.sum_cons, hwidth]
        omega
      · cases k with
        | zero =>
            obtain rfl : (⟨table, offset, order⟩ : MicroField) = f := by simpa using hf
            simp
        | succ k =>
            obtain ⟨horder, hoffset⟩ := hposition k f (by simpa using hf)
            simp only [List.take_succ_cons, List.map_cons, List.sum_cons, hwidth]
            omega

/-- The fields of a computed design hold the merged groups in the order of their slots. -/
theorem exists_slots {m : FlowMatrix} (hv : m.validate = .ok ()) {bound : Nat} {d : Design} {report : Report}
    (h : (compute m bound).result = .ok (d, report)) :
    ∃ slots, Relation.ReflTransGen (Slots.Merges m.neutralContent m.stepContents bound)
        (Slots.single m.neutralContent m.stepContents m.targets) slots ∧
      layout d.packing.width 0 slots.groups = .ok (d.fields, d.width) := by
  obtain ⟨neutral, packing, -, merged, fields, width, -, hneutral, -, -, hmerged, hlayout, -, rfl, -⟩ :=
    compute_eq_ok_iff.mp h
  obtain ⟨s, hs, hreach⟩ :=
    Slots.mergeGroups_reaches m.neutralContent m.stepContents bound m.targets_nodup
  rw [neutralContents_eq_ok hv, Except.ok.injEq] at hneutral
  rw [← hneutral, initialTables_eq, hs, Except.ok.injEq] at hmerged
  exact ⟨s.slots, hreach, hmerged ▸ hlayout⟩

theorem length_fields_le {m : FlowMatrix} (hv : m.validate = .ok ()) {bound : Nat} {d : Design} {report : Report}
    (h : (compute m bound).result = .ok (d, report)) : d.fields.length ≤ m.targets.length := by
  obtain ⟨slots, hreach, hlayout⟩ := exists_slots hv h
  rw [← List.length_map MicroField.table, (layout_position hlayout).1]
  exact Slots.length_groups_le hreach

/-- Every target is in one field, the fields divide the bits behind the value word, and they are
listed in the order of their smallest targets. -/
structure Partitioned (m : FlowMatrix) (d : Design) : Prop where
  targets_perm : (d.fields.flatMap fun f => f.table.targets).Perm m.targets
  targets_nodup : ∀ f ∈ d.fields, f.table.targets.Nodup
  targets_disjoint : d.fields.Pairwise fun f g => f.table.targets.Disjoint g.table.targets
  order : ∀ (k : Nat) (f : MicroField), d.fields[k]? = some f → f.order = k
  offset : ∀ (k : Nat) (f : MicroField), d.fields[k]? = some f →
    f.offset = d.packing.width + ((d.fields.take k).map MicroField.width).sum
  width : d.width = d.packing.width + (d.fields.map MicroField.width).sum
  last : ∀ f, d.fields.getLast? = some f → f.offset + f.width = d.width
  selectors_apart : d.fields.Pairwise fun f g => f.offset + f.width ≤ g.offset
  lanes_before : ∀ t lane, d.packing.lanes.get? t = some lane →
    ∀ f ∈ d.fields, lane.offset + lane.width ≤ f.offset
  first_least : ∀ f ∈ d.fields, ∃ first rest, f.table.targets = first :: rest ∧ ∀ t ∈ rest, first < t
  first_ascending : d.fields.Pairwise fun f g =>
    ∀ t ∈ f.table.targets.head?, ∀ u ∈ g.table.targets.head?, t < u

/-- The control word of every valid matrix whose lanes and selectors fit a word is partitioned,
whatever the bound on merged selectors. -/
theorem control_word_partitioned {m : FlowMatrix} (hv : m.validate = .ok ())
    (hfit : m.laneBits + m.selectorBits < Width.limit) (bound : Nat) :
    ∃ d report, (compute m bound).result = .ok (d, report) ∧ Partitioned m d := by
  obtain ⟨d, report, hcompute, h⟩ := compute_ok hv hfit bound
  obtain ⟨slots, hreach, hlayout⟩ := exists_slots hv hcompute
  have hled := Slots.led_of_reaches m.targets_ascending hreach (Slots.led_single _ _ _)
  obtain ⟨htables, hwidth, hposition⟩ := layout_position hlayout
  obtain ⟨hnodup, hdisjoint⟩ := List.nodup_flatMap.mp (h.targets_perm.nodup_iff.mpr m.targets_nodup)
  refine ⟨d, report, hcompute, h.targets_perm, hnodup, hdisjoint, ?_, fun k f hf => (hposition k f hf).2,
    hwidth, ?_, h.ordered, ?_, ?_, ?_⟩
  · intro k f hf
    have := (hposition k f hf).1
    omega
  · intro f hf
    obtain ⟨before, hfields⟩ := List.getLast?_eq_some_iff.mp hf
    have hoffset := (hposition before.length f (by simp [hfields])).2
    simp only [hfields, List.take_left', List.map_append, List.map_cons, List.map_nil, List.sum_append,
      List.sum_cons, List.sum_nil] at hoffset hwidth
    omega
  · intro t lane hlane f hf
    have := h.packs.stop_le hlane
    have := h.behind f hf
    omega
  · intro f hf
    obtain ⟨i, hi⟩ := Slots.mem_groups_iff.mp (htables ▸ List.mem_map_of_mem hf : f.table ∈ slots.groups)
    obtain ⟨first, rest, -, htargets, hlt⟩ := hled i f.table hi
    exact ⟨first, rest, htargets, hlt⟩
  · have hascending := hled.groups_ascending m.targets_ascending
    rwa [← htables, List.pairwise_map] at hascending

theorem mixed_partitioned : ∃ d report, (compute .mixed 6).result = .ok (d, report) ∧
    Partitioned .mixed d :=
  control_word_partitioned (by decide) (by decide) 6

end Design

end ControlStore
