import ControlStore.Proofs.Lanes
import ControlStore.Proofs.Records
import Mathlib.Data.List.Nodup

/-! # The layout of a design

`Design.LaysOut m d` is what holds of every design computed for a valid matrix `m`
(`Design.compute_ok`): the lanes come first and share bits only where the matrix allows it, the
selectors follow one behind the other, every field numbers the contents of its targets, and the
targets of the fields are those of the matrix, each in one field. -/

namespace ControlStore

open NatMap (tabulate)
open StepFlow

/-! ### Groups that are left after merging -/

namespace Slots

variable {neutral : SignalId → Content} {steps : List (SignalId → Content)} {targets : List SignalId}
  {slots : Slots}

/-- The groups in the slots. -/
def groups (slots : Slots) : List SymbolTable := slots.filterMap id

theorem mem_groups_iff {g : SymbolTable} : g ∈ slots.groups ↔ ∃ i, slots.Holds i g := by
  unfold groups Holds
  rw [List.mem_filterMap]
  simp only [id_eq, exists_eq_right, List.mem_iff_getElem?]

theorem sum_width_groups (slots : Slots) :
    (slots.groups.map SymbolTable.width).sum = slots.selectorBits := by
  unfold groups selectorBits
  induction slots with
  | nil => rfl
  | cons g slots ih =>
      cases g with
      | none =>
          rw [List.filterMap_cons_none rfl, ih, List.map_cons, List.sum_cons]
          exact (Nat.zero_add _).symm
      | some g =>
          rw [List.filterMap_cons_some (show id (some g) = some g from rfl), List.map_cons, List.sum_cons,
            ih, List.map_cons, List.sum_cons]
          rfl

/-- The targets of the groups are all targets, each once. -/
theorem Sound.targets_perm (hs : slots.Sound neutral steps targets) (hnodup : targets.Nodup) :
    (slots.groups.flatMap SymbolTable.targets).Perm targets := by
  have hdisjoint : slots.groups.Pairwise fun g h => ∀ t ∈ g.targets, t ∉ h.targets := by
    unfold groups
    rw [List.pairwise_filterMap, List.pairwise_iff_getElem]
    intro i j hi hj hij g hg h hh
    exact hs.apart i j g h ((List.getElem?_eq_getElem hi).trans (congrArg some hg))
      ((List.getElem?_eq_getElem hj).trans (congrArg some hh)) (Nat.ne_of_lt hij)
  apply (List.perm_ext_iff_of_nodup _ hnodup).mpr
  · intro t
    rw [hs.covers, List.mem_flatMap]
    constructor
    · rintro ⟨g, hg, ht⟩
      obtain ⟨i, hi⟩ := mem_groups_iff.mp hg
      exact ⟨i, g, hi, ht⟩
    · rintro ⟨i, g, hi, ht⟩
      exact ⟨g, mem_groups_iff.mpr ⟨i, hi⟩, ht⟩
  · refine List.nodup_flatMap.mpr ⟨fun g hg => ?_, hdisjoint.imp fun h t ht ht' => h t ht ht'⟩
    obtain ⟨i, hi⟩ := mem_groups_iff.mp hg
    exact hs.nodup i g hi

end Slots

namespace Design

/-! ### Placing the selectors -/

theorem layout_ok (tables : List SymbolTable) {offset : Nat} (order : Nat)
    (h : offset + (tables.map SymbolTable.width).sum < Width.limit) :
    ∃ fields, layout offset order tables = .ok (fields, offset + (tables.map SymbolTable.width).sum) ∧
      fields.map MicroField.table = tables ∧
      (fields.Pairwise fun f g => f.offset + f.width ≤ g.offset) ∧
      ∀ f ∈ fields, offset ≤ f.offset ∧
        f.offset + f.width ≤ offset + (tables.map SymbolTable.width).sum := by
  induction tables generalizing offset order with
  | nil => exact ⟨[], rfl, rfl, .nil, fun f hf => absurd hf List.not_mem_nil⟩
  | cons table tables ih =>
      simp only [List.map_cons, List.sum_cons, ← Nat.add_assoc] at h ⊢
      obtain ⟨fields, hlayout, htables, hordered, hbounds⟩ := ih (order + 1) h
      refine ⟨⟨table, offset, order⟩ :: fields, ?_, ?_, ?_, ?_⟩
      · have hadd : Width.add offset table.width = .ok (offset + table.width) :=
          Width.add_eq_ok_iff.mpr ⟨rfl, by omega⟩
        rw [layout, hadd, ok_bind, hlayout]
        rfl
      · rw [List.map_cons, htables]
      · exact List.pairwise_cons.mpr ⟨fun f hf => (hbounds f hf).1, hordered⟩
      · intro f hf
        rcases List.mem_cons.mp hf with rfl | hf
        · exact ⟨Nat.le_refl _, Nat.le_add_right _ _⟩
        · obtain ⟨hlo, hhi⟩ := hbounds f hf
          exact ⟨by omega, hhi⟩

/-! ### The parts of a design -/

variable {m : FlowMatrix} {d : Design}

/-- A design whose word holds the lanes and the selectors that the matrix needs. -/
structure LaysOut (m : FlowMatrix) (d : Design) : Prop where
  matrix : d.matrix = m
  neutral : d.neutral = tabulate m.neutralContent m.targets
  packed : d.packer.packing = some d.packing
  packs : d.packing.Packs (conflict (literals m)) m.widthOf
  lane_isSome : ∀ t, (d.packing.lanes.get? t).isSome ↔ m.carriesRaw t = true
  numbers : ∀ f ∈ d.fields, f.table.Numbers m.neutralContent m.stepContents
  targets_perm : (d.fields.flatMap fun f => f.table.targets).Perm m.targets
  behind : ∀ f ∈ d.fields, d.packing.width ≤ f.offset
  ordered : d.fields.Pairwise fun f g => f.offset + f.width ≤ g.offset
  within : ∀ f ∈ d.fields, f.offset + f.width ≤ d.width
  valueWord : d.packing.width ≤ d.width
  width_lt : d.width < Width.limit
  unbuilt : d.decoderBuilt = false

theorem neutralContents_eq_ok (hv : m.validate = .ok ()) :
    neutralContents m = .ok (tabulate m.neutralContent m.targets) := by
  unfold neutralContents
  rw [mapM_eq_ok_map (g := fun t => (t, m.neutralContent t))]
  · rfl
  · intro t ht
    obtain ⟨signal, hsignal, -, hinit⟩ :=
      FlowMatrix.signal_eq_ok (FlowMatrix.declared_of_mem_targets hv ht)
    unfold FlowMatrix.neutralContent
    rw [hsignal, ← hinit]
    rfl

theorem forTarget_eq (m : FlowMatrix) (t : SignalId) :
    SymbolTable.forTarget t (m.neutralContent t) (m.mergedFlows.map fun f => lookup f t) =
      SymbolTable.ofContents [t] m.neutralContent m.stepContents := by
  apply SymbolTable.forTarget_eq_ofContents
  unfold FlowMatrix.stepContents
  rw [List.map_map, List.map_map]
  rfl

theorem initialTables_eq (m : FlowMatrix) : initialTables m (tabulate m.neutralContent m.targets) =
    m.targets.map fun t => SymbolTable.ofContents [t] m.neutralContent m.stepContents := by
  unfold initialTables
  rw [NatMap.entries_tabulate m.targets_ascending, List.map_map]
  exact List.map_congr_left fun t _ => forTarget_eq m t

theorem sum_initialTables (m : FlowMatrix) :
    ((m.targets.map fun t => SymbolTable.ofContents [t] m.neutralContent m.stepContents).map
      SymbolTable.width).sum = m.selectorBits := by
  unfold FlowMatrix.selectorBits
  rw [List.map_map]
  congr 1
  exact List.map_congr_left fun t _ => by rw [forTarget_eq]; rfl

theorem selectorBits_single (m : FlowMatrix) :
    (Slots.single m.neutralContent m.stepContents m.targets).selectorBits = m.selectorBits := by
  rw [← sum_initialTables]
  unfold Slots.selectorBits Slots.single
  rw [List.map_map, List.map_map]
  rfl

theorem sum_laneWidths (hv : m.validate = .ok ()) :
    (laneWidths (literals m)).values.sum = m.laneBits := by
  rw [FlowMatrix.laneWidths_literals hv]
  unfold NatMap.values FlowMatrix.laneBits
  rw [NatMap.entries_tabulate (m.targets_ascending.filter _), List.map_map]
  rfl

/-- What a design and its report are computed from. -/
theorem compute_eq_ok_iff {bound : Nat} {report : Report} :
    (compute m bound).result = .ok (d, report) ↔
      ∃ neutral packing selectorBits merged fields width valueBits,
        neutralContents m = .ok neutral ∧
        Packing.ofLiterals (literals m) = .ok packing ∧
        Width.sum ((initialTables m neutral).map SymbolTable.width) = .ok selectorBits ∧
        mergeGroups bound (initialTables m neutral) = .ok merged ∧
        layout packing.width 0 merged.slots.groups = .ok (fields, width) ∧
        Width.sum (laneWidths (literals m)).values = .ok valueBits ∧
        d = ⟨m, ⟨literals m, some packing⟩, neutral, fields, width, false⟩ ∧
        report = ⟨m.steps.length, bound, selectorBits, valueBits, merged.generation,
          width - packing.width, packing.width, Report.histogramOf (fields.map MicroField.width)⟩ := by
  unfold compute
  simp only [Traced.result_bind, Traced.result_lift, Traced.result_note, Traced.result_notes,
    Traced.result_pure, foldlM_packedFlows, ok_bind, bind_eq_ok_iff, Packer.pack_eq_ok_iff,
    Except.ok.injEq, Prod.mk.injEq, Prod.exists, Slots.groups]
  constructor
  · rintro ⟨neutral, hneutral, packing, _, ⟨hpacking, rfl⟩, bits, hbits, merged, hmerged, _, hwidth,
      fields, width, hlayout, values, hvalues, rfl, rfl⟩
    obtain rfl := Except.ok.inj ((Packer.width_eq_ok rfl).symm.trans hwidth)
    exact ⟨neutral, packing, bits, merged, fields, width, values, hneutral, hpacking, hbits, hmerged,
      hlayout, hvalues, rfl, rfl⟩
  · rintro ⟨neutral, packing, bits, merged, fields, width, values, hneutral, hpacking, hbits, hmerged,
      hlayout, hvalues, rfl, rfl⟩
    exact ⟨neutral, hneutral, packing, _, ⟨hpacking, rfl⟩, bits, hbits, merged, hmerged, _,
      Packer.width_eq_ok rfl, fields, width, hlayout, values, hvalues, rfl, rfl⟩

/-- A valid matrix has a design if its lanes and its selectors fit a word, each side by side, and the
packed lanes and the merged selectors fit together. -/
theorem compute_ok_of_parts (hv : m.validate = .ok ()) (hlanes : m.laneBits < Width.limit)
    (hselectors : m.selectorBits < Width.limit) {bound : Nat} {p : Packing} {s : MergeState}
    (hpack : Packing.ofLiterals (literals m) = .ok p)
    (hmerge : mergeGroups bound (initialTables m (tabulate m.neutralContent m.targets)) = .ok s)
    (hfit : p.width + s.slots.selectorBits < Width.limit) :
    ∃ d report, (compute m bound).result = .ok (d, report) ∧ LaysOut m d := by
  obtain ⟨p', hpack', hp, hisSome, -⟩ := FlowMatrix.exists_packing hv hlanes
  obtain rfl := Except.ok.inj (hpack.symm.trans hpack')
  obtain ⟨s', hmerge', hreach⟩ :=
    Slots.mergeGroups_reaches m.neutralContent m.stepContents bound m.targets_nodup
  rw [← initialTables_eq] at hmerge'
  obtain rfl := Except.ok.inj (hmerge.symm.trans hmerge')
  have hsound := Slots.sound_of_reaches hreach (Slots.sound_single m.targets_nodup)
  rw [← Slots.sum_width_groups] at hfit
  obtain ⟨fields, hlayout, htables, hordered, hbounds⟩ := layout_ok s.slots.groups 0 hfit
  have hsums := Width.sum_eq_ok ((sum_initialTables m).symm ▸ hselectors)
  have hvalues := Width.sum_eq_ok ((sum_laneWidths hv).symm ▸ hlanes)
  rw [← initialTables_eq] at hsums
  refine ⟨_, _, compute_eq_ok_iff.mpr ⟨_, p, _, s, fields, _, _, neutralContents_eq_ok hv, hpack, hsums,
    hmerge, hlayout, hvalues, rfl, rfl⟩, ?_⟩
  have hfield : ∀ f ∈ fields, f.table ∈ s.slots.groups := fun f hf => htables ▸ List.mem_map_of_mem hf
  refine ⟨rfl, rfl, rfl, hp, hisSome, ?_, ?_, fun f hf => (hbounds f hf).1, hordered,
    fun f hf => (hbounds f hf).2, Nat.le_add_right _ _, hfit, rfl⟩
  · intro f hf
    obtain ⟨i, hi⟩ := Slots.mem_groups_iff.mp (hfield f hf)
    exact hsound.numbers i f.table hi
  · have hperm := hsound.targets_perm m.targets_nodup
    rwa [← htables, List.flatMap_map] at hperm

/-- The groups of a valid matrix are merged, whatever the bound, and their selectors never need more
bits than those of the single targets. -/
theorem exists_merged (m : FlowMatrix) (bound : Nat) : ∃ s,
    mergeGroups bound (initialTables m (tabulate m.neutralContent m.targets)) = .ok s ∧
      s.slots.selectorBits ≤ m.selectorBits := by
  obtain ⟨s, hmerge, hreach⟩ :=
    Slots.mergeGroups_reaches m.neutralContent m.stepContents bound m.targets_nodup
  rw [← initialTables_eq] at hmerge
  exact ⟨s, hmerge, selectorBits_single m ▸ Slots.selectorBits_le hreach⟩

/-- Every valid matrix whose lanes and selectors fit a word has a design, whatever the bound on
merged selectors. -/
theorem compute_ok (hv : m.validate = .ok ()) (hfit : m.laneBits + m.selectorBits < Width.limit)
    (bound : Nat) : ∃ d report, (compute m bound).result = .ok (d, report) ∧ LaysOut m d := by
  obtain ⟨p, hpack, -, -, hle⟩ := FlowMatrix.exists_packing hv (by omega)
  obtain ⟨s, hmerge, hbits⟩ := exists_merged m bound
  exact compute_ok_of_parts hv (by omega) (by omega) hpack hmerge (by omega)

end Design

end ControlStore
