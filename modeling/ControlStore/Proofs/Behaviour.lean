import ControlStore.Proofs.Partition

/-! # What the layout depends on

The layout does not depend on the order of the steps, on repetitions of a step, or on whether an absent
flow is written out.  The symbols themselves do, but merging looks only at their number, and the number
of symbols depends only on which contents occur (`SymbolTable.count_of_mem_iff`).  So two runs on the
same targets score their candidates alike (`Slots.due_eq`) and join the same groups in every generation
(`Slots.Generations.alike`).  The lanes depend only on which literals occur together in some flow
(`FlowMatrix.BehavesLike.ofLiterals_eq`). -/

namespace ControlStore

open NatMap (tabulate)
open SymbolTable StepFlow

/-! ### Candidates that rank alike -/

namespace MergeState

/-- Candidates for the same slots that save as many bits, with selectors of the same width. -/
structure RanksAlike (p p' : ScoredPair) : Prop where
  first : p.first = p'.first
  second : p.second = p'.second
  score : p.candidate.score = p'.candidate.score
  width : p.candidate.width = p'.candidate.width

theorem accept_of_ranksAlike {l l' : List ScoredPair} (h : List.Forall₂ RanksAlike l l') (used : List Nat) :
    accept used l = accept used l' := by
  induction h generalizing used with
  | nil => rfl
  | cons hp _ ih =>
      unfold accept ScoredPair.touches ScoredPair.pair
      rw [hp.first, hp.second, ih, ih]

/-- Which merges are accepted depends on slots, scores and widths only. -/
theorem accepted_of_ranksAlike {l l' : List ScoredPair} (h : List.Forall₂ RanksAlike l l') (bound : Nat) :
    accepted bound l = accepted bound l' := by
  have hfilter : List.Forall₂ RanksAlike (l.filter (ScoredPair.admissible bound))
      (l'.filter (ScoredPair.admissible bound)) := by
    refine List.rel_filter (fun p p' hp => ?_) h
    show ScoredPair.admissible bound p = true ↔ ScoredPair.admissible bound p' = true
    unfold ScoredPair.admissible
    rw [hp.score, hp.width]
  refine accept_of_ranksAlike (forall₂_sortBy (fun a a' b b' ha hb => ?_) hfilter) []
  unfold ScoredPair.better
  rw [ha.score, hb.score, ha.first, hb.first, ha.second, hb.second]

end MergeState

/-! ### The same contents in other steps -/

variable {neutral : SignalId → Content} {steps steps' : List (SignalId → Content)}

/-- The number of symbols depends only on which contents occur in some step. -/
theorem SymbolTable.count_of_mem_iff (h : ∀ c, c ∈ steps ↔ c ∈ steps') (ts : List SignalId) :
    (ofContents ts neutral steps).count = (ofContents ts neutral steps').count := by
  have hnum := numbers_ofContents ts neutral steps
  have hnum' := numbers_ofContents ts neutral steps'
  have hvalues : (ofContents ts neutral steps).table.values.Perm (ofContents ts neutral steps').table.values := by
    apply (List.perm_ext_iff_of_nodup hnum.values_nodup hnum'.values_nodup).mpr
    intro v
    rw [hnum.mem_values_iff, hnum'.mem_values_iff]
    simp only [List.mem_cons, h]
    rfl
  exact hvalues.length_eq

namespace Slots

open MergeState

/-- The groups with more than one symbol, if the targets `ts` have `size ts` symbols. -/
def growing (size : List SignalId → Nat) (members : List (Option (List SignalId))) :
    List (Nat × List SignalId) :=
  members.zipIdx.filterMap fun (ts, slot) => ts.bind fun ts => if 1 < size ts then some (slot, ts) else none

variable {bound : Nat} {targets : List SignalId} {slots slots' : Slots}

theorem mergeable_eq (hs : slots.Sound neutral steps targets) :
    mergeable slots = (growing (fun ts => (ofContents ts neutral steps).count) slots.members).map
      fun e => (e.1, ofContents e.2 neutral steps) := by
  unfold mergeable growing members
  rw [List.zipIdx_map, List.filterMap_map, List.map_filterMap]
  refine List.filterMap_congr fun e he => ?_
  obtain ⟨group, slot⟩ := e
  cases group with
  | none => rfl
  | some g =>
      have hg : ofContents g.targets neutral steps = g :=
        (hs.numbers slot g (List.mem_zipIdx_iff_getElem?.mp he)).symm
      simp only [Function.comp_apply, Prod.map_apply, Option.map_some, Option.bind_some, id_eq, hg]
      split
      · rw [Option.map_some, hg]
      · rfl

theorem groups_eq (hs : slots.Sound neutral steps targets) :
    slots.groups = (slots.members.filterMap id).map fun ts => ofContents ts neutral steps := by
  unfold groups members
  rw [List.filterMap_map, List.map_filterMap]
  refine List.filterMap_congr fun group hgroup => ?_
  cases group with
  | none => rfl
  | some g =>
      obtain ⟨i, hi⟩ := List.mem_iff_getElem?.mp hgroup
      exact congrArg some (hs.numbers i g hi)

/-- Candidates of the same targets rank alike if the numbers of symbols are the same. -/
theorem ranksAlike_candidateOf
    (hcount : ∀ ts, (ofContents ts neutral steps).count = (ofContents ts neutral steps').count)
    (i j : Nat) (ts us : List SignalId) :
    RanksAlike
      (candidateOf neutral steps ((i, ofContents ts neutral steps), (j, ofContents us neutral steps)))
      (candidateOf neutral steps'
        ((i, ofContents ts neutral steps'), (j, ofContents us neutral steps'))) := by
  have hsize : ∀ steps : List (SignalId → Content),
      (MergeCandidate.jointOf (ofContents ts neutral steps) (ofContents us neutral steps)
        neutral steps).pairs.size = (ofContents (ts ++ us) neutral steps).count := fun steps =>
    MergeCandidate.size_jointOf (numbers_ofContents ts neutral steps) (numbers_ofContents us neutral steps)
  have hwidth : ∀ ts, (ofContents ts neutral steps).width = (ofContents ts neutral steps').width :=
    fun ts => width_eq_of_count_eq (hcount ts)
  have hjoint : (MergeCandidate.jointOf (ofContents ts neutral steps) (ofContents us neutral steps) neutral
      steps).width = (MergeCandidate.jointOf (ofContents ts neutral steps') (ofContents us neutral steps') neutral
      steps').width := by
    rw [JointEncoding.width_eq, JointEncoding.width_eq, hsize, hsize, hcount]
  refine ⟨rfl, rfl, ?_, hjoint⟩
  show _ + _ - JointEncoding.width _ = _ + _ - JointEncoding.width _
  rw [hjoint, hwidth, hwidth]

section
variable (hcount : ∀ ts, (ofContents ts neutral steps).count = (ofContents ts neutral steps').count)
include hcount

/-- The same pairs are due if the slots hold groups of the same targets. -/
theorem due_eq (hs : slots.Sound neutral steps targets) (hs' : slots'.Sound neutral steps' targets)
    (hmembers : slots'.members = slots.members) (bound : Nat) :
    slots.due neutral steps bound = slots'.due neutral steps' bound := by
  unfold due
  rw [mergeable_eq hs, mergeable_eq hs', hmembers, ← funext hcount, pairsOf_map, pairsOf_map, List.map_map,
    List.map_map]
  refine accepted_of_ranksAlike ?_ bound
  rw [List.forall₂_map_left_iff, List.forall₂_map_right_iff]
  exact List.forall₂_same.mpr fun e _ => ranksAlike_candidateOf hcount e.1.1 e.2.1 e.1.2 e.2.2

/-- Merging takes as many generations and ends with groups of the same targets in the same slots.  In
every generation the same pairs are due in both runs, so both stop or both go on. -/
theorem Generations.alike {final : Slots} {n : Nat} (h : Generations bound slots n final)
    (hs : slots.Sound neutral steps targets) (hs' : slots'.Sound neutral steps' targets)
    (hmembers : slots'.members = slots.members) :
    ∃ final', Generations bound slots' n final' ∧ final'.members = final.members := by
  induction h generalizing slots' with
  | @stop slots hstop =>
      have hdue := due_eq hcount hs hs' hmembers bound
      rcases generation_ok hs bound with ⟨hnil, -⟩ | ⟨slots₁, -, hnext, -⟩
      · rcases generation_ok hs' bound with ⟨-, hstop'⟩ | ⟨slots₁', hne, -, -⟩
        · exact ⟨slots', .stop hstop', hmembers⟩
        · exact absurd (hdue ▸ hnil) hne
      · cases hstop.symm.trans hnext
  | @next slots slots₁ final n hnext _ ih =>
      have hdue := due_eq hcount hs hs' hmembers bound
      rcases generation_ok hs bound with ⟨-, hstop⟩ | ⟨_, hne, hnext₁, hjoins⟩
      · cases hnext.symm.trans hstop
      · cases hnext.symm.trans hnext₁
        rcases generation_ok hs' bound with ⟨hnil, -⟩ | ⟨slots₁', -, hnext', hjoins'⟩
        · exact absurd (hdue.trans hnil) hne
        · have hmembers₁ : slots₁'.members = slots₁.members := by
            rw [hjoins'.members, hjoins.members, hmembers, hdue]
          obtain ⟨final', hrest, hfinal⟩ := ih (sound_of_reaches hjoins.reaches hs)
            (sound_of_reaches hjoins'.reaches hs') hmembers₁
          exact ⟨final', .next hnext' hrest, hfinal⟩

end

end Slots

/-! ### Matrices that behave alike -/

namespace FlowMatrix

/-- Two matrices with the same signals and targets whose neutral flows are the same on every signal,
as are the merged flows of their steps, in any order and any number. -/
structure BehavesLike (m m' : FlowMatrix) : Prop where
  signals : m.signals = m'.signals
  targets : m.targets = m'.targets
  neutral : ∀ t < m.signals.length, lookup m.neutral t = lookup m'.neutral t
  steps : ∀ f ∈ m.mergedFlows, ∃ f' ∈ m'.mergedFlows, ∀ t < m.signals.length, lookup f t = lookup f' t
  steps' : ∀ f' ∈ m'.mergedFlows, ∃ f ∈ m.mergedFlows, ∀ t < m.signals.length, lookup f t = lookup f' t

theorem BehavesLike.symm {m m' : FlowMatrix} (h : BehavesLike m m') : BehavesLike m' m := by
  refine ⟨h.signals.symm, h.targets.symm, fun t ht => (h.neutral t (h.signals ▸ ht)).symm, ?_, ?_⟩
  · intro f' hf'
    obtain ⟨f, hf, hsame⟩ := h.steps' f' hf'
    exact ⟨f, hf, fun t ht => (hsame t (h.signals ▸ ht)).symm⟩
  · intro f hf
    obtain ⟨f', hf', hsame⟩ := h.steps f hf
    exact ⟨f', hf', fun t ht => (hsame t (h.signals ▸ ht)).symm⟩

section
variable {m m' : FlowMatrix} (hv : m.validate = .ok ()) (hv' : m'.validate = .ok ())

include hv in
/-- A signal that is not declared has an absent flow, in the neutral flow and in every merged one. -/
theorem lookup_of_undeclared {t : SignalId} (ht : ¬ t < m.signals.length) {f : StepFlow}
    (hf : f ∈ m.neutral :: m.mergedFlows) : lookup f t = .absent := by
  have hno : t ∉ m.targets := fun hmem => ht (declared_of_mem_targets hv hmem)
  have hneutral := lookup_neutral_of_not_mem hno
  rcases List.mem_cons.mp hf with rfl | hf
  · exact hneutral
  · obtain ⟨g, hg, rfl⟩ := List.mem_map.mp hf
    rw [lookup_integrate, lookup_step_of_not_mem hno hg, if_pos rfl, hneutral]

variable (h : BehavesLike m m')
include hv hv' h

theorem BehavesLike.lookup_neutral (t : SignalId) : lookup m.neutral t = lookup m'.neutral t := by
  by_cases ht : t < m.signals.length
  · exact h.neutral t ht
  · rw [lookup_of_undeclared hv ht List.mem_cons_self,
      lookup_of_undeclared hv' (h.signals ▸ ht) List.mem_cons_self]

theorem BehavesLike.exists_step {f : StepFlow} (hf : f ∈ m.mergedFlows) :
    ∃ f' ∈ m'.mergedFlows, ∀ t, lookup f t = lookup f' t := by
  obtain ⟨f', hf', hsame⟩ := h.steps f hf
  refine ⟨f', hf', fun t => ?_⟩
  by_cases ht : t < m.signals.length
  · exact hsame t ht
  · rw [lookup_of_undeclared hv ht (List.mem_cons_of_mem _ hf),
      lookup_of_undeclared hv' (h.signals ▸ ht) (List.mem_cons_of_mem _ hf')]

/-! ### The same contents -/

theorem BehavesLike.neutralContent_eq : m.neutralContent = m'.neutralContent := by
  funext t
  unfold neutralContent initialOf
  rw [h.lookup_neutral hv hv', h.signals]

theorem BehavesLike.mem_stepContents {c : SignalId → Content} (hc : c ∈ m.stepContents) :
    c ∈ m'.stepContents := by
  obtain ⟨f, hf, rfl⟩ := List.mem_map.mp hc
  obtain ⟨f', hf', hsame⟩ := h.exists_step hv hv' hf
  refine List.mem_map.mpr ⟨f', hf', ?_⟩
  funext t
  unfold contentIn
  rw [hsame, h.neutralContent_eq hv hv']

theorem BehavesLike.count_eq (ts : List SignalId) :
    (ofContents ts m.neutralContent m.stepContents).count =
      (ofContents ts m.neutralContent m'.stepContents).count :=
  count_of_mem_iff (fun _ => ⟨h.mem_stepContents hv hv', h.symm.mem_stepContents hv' hv⟩) ts

/-! ### The same lanes -/

omit hv hv' h in
theorem rawLiterals_eq {f f' : StepFlow} (hsame : ∀ t, lookup f t = lookup f' t) :
    rawLiterals f = rawLiterals f' := by
  apply NatMap.ext_get?
  intro t
  apply Option.ext
  intro b
  rw [get?_rawLiterals_eq_some_iff, get?_rawLiterals_eq_some_iff, hsame]

theorem BehavesLike.mem_literals {literals : NatMap Bits} (hl : literals ∈ Design.literals m) :
    literals ∈ Design.literals m' := by
  obtain ⟨f, hf, rfl⟩ := List.mem_map.mp hl
  rcases List.mem_cons.mp hf with rfl | hf
  · exact List.mem_map.mpr ⟨m'.neutral, List.mem_cons_self,
      (rawLiterals_eq (h.lookup_neutral hv hv')).symm⟩
  · obtain ⟨f', hf', hsame⟩ := h.exists_step hv hv' hf
    exact List.mem_map.mpr ⟨f', List.mem_cons_of_mem _ hf', (rawLiterals_eq hsame).symm⟩

theorem BehavesLike.any_literals_eq (p : NatMap Bits → Bool) :
    (Design.literals m).any p = (Design.literals m').any p := by
  rw [Bool.eq_iff_iff, List.any_eq_true, List.any_eq_true]
  constructor
  · rintro ⟨literals, hl, hp⟩
    exact ⟨literals, h.mem_literals hv hv' hl, hp⟩
  · rintro ⟨literals, hl, hp⟩
    exact ⟨literals, h.symm.mem_literals hv' hv hl, hp⟩

theorem BehavesLike.laneWidths_eq : laneWidths (Design.literals m) = laneWidths (Design.literals m') := by
  have hraw : m.carriesRaw = m'.carriesRaw := by
    funext t
    rw [← any_literals, ← any_literals, h.any_literals_eq hv hv']
  have hwidth : m.widthOf = m'.widthOf := by
    funext t
    unfold widthOf
    rw [h.signals]
  rw [laneWidths_literals hv, laneWidths_literals hv', hraw, hwidth, h.targets]

theorem BehavesLike.ofLiterals_eq :
    Packing.ofLiterals (Design.literals m) = Packing.ofLiterals (Design.literals m') := by
  have hconflict : conflict (Design.literals m) = conflict (Design.literals m') := by
    funext a b
    exact h.any_literals_eq hv hv' _
  unfold Packing.ofLiterals
  rw [h.laneWidths_eq hv hv', hconflict]

end

end FlowMatrix

/-! ### The same layout -/

/-- What a layout says about a field: its targets, place, width, number of symbols and position. -/
def MicroField.outline (f : MicroField) : List SignalId × Nat × Nat × Nat × Nat :=
  (f.table.targets, f.offset, f.width, f.table.count, f.order)

namespace Design

/-- Tables of the same targets with as many symbols have the same layout. -/
theorem layout_alike
    (hcount : ∀ ts, (ofContents ts neutral steps).count = (ofContents ts neutral steps').count)
    {tss : List (List SignalId)} {offset order stop : Nat} {fields : List MicroField}
    (h : layout offset order (tss.map fun ts => ofContents ts neutral steps) = .ok (fields, stop)) :
    ∃ fields', layout offset order (tss.map fun ts => ofContents ts neutral steps') = .ok (fields', stop) ∧
      fields'.map MicroField.outline = fields.map MicroField.outline := by
  induction tss generalizing offset order fields with
  | nil => exact ⟨fields, h, rfl⟩
  | cons ts tss ih =>
      have hwidth : (ofContents ts neutral steps).width = (ofContents ts neutral steps').width :=
        width_eq_of_count_eq (hcount ts)
      simp only [List.map_cons, layout, bind_eq_ok_iff, Prod.exists, pure_eq_ok, Except.ok.injEq,
        Prod.mk.injEq] at h ⊢
      obtain ⟨next, hnext, rest, _, hrest, rfl, rfl⟩ := h
      obtain ⟨rest', hrest', houtline⟩ := ih hrest
      rw [hwidth] at hnext
      refine ⟨_, ⟨next, hnext, rest', _, hrest', rfl, rfl⟩, ?_⟩
      rw [List.map_cons, List.map_cons, houtline]
      unfold MicroField.outline MicroField.width
      rw [hwidth, hcount]
      rfl

/-- Merging the tables of the targets one by one, with other steps in which the same contents occur,
takes as many generations and ends with groups of the same targets. -/
theorem mergeGroups_alike
    (hcount : ∀ ts, (ofContents ts neutral steps).count = (ofContents ts neutral steps').count)
    {targets : List SignalId} (hnodup : targets.Nodup) {bound : Nat} {merged : MergeState}
    (h : mergeGroups bound (targets.map fun t => ofContents [t] neutral steps) = .ok merged) :
    ∃ merged', mergeGroups bound (targets.map fun t => ofContents [t] neutral steps') = .ok merged' ∧
      merged'.generation = merged.generation ∧
      ∃ tss : List (List SignalId), merged.slots.groups = tss.map (fun ts => ofContents ts neutral steps) ∧
        merged'.slots.groups = tss.map fun ts => ofContents ts neutral steps' := by
  obtain ⟨s, hrun, hgen, hreach, -, -⟩ := MergeState.mergeGroups_ok neutral steps bound hnodup rfl
  obtain ⟨s', hrun', hgen', hreach', -, -⟩ := MergeState.mergeGroups_ok neutral steps' bound hnodup rfl
  obtain rfl : s = merged := Except.ok.inj (hrun.symm.trans h)
  rw [List.map_map] at hgen hreach hgen' hreach'
  have hs : (Slots.single neutral steps targets).Sound neutral steps targets := Slots.sound_single hnodup
  have hs' : (Slots.single neutral steps' targets).Sound neutral steps' targets := Slots.sound_single hnodup
  have hmembers : (Slots.single neutral steps' targets).members =
      (Slots.single neutral steps targets).members := by
    unfold Slots.members Slots.single
    rw [List.map_map, List.map_map]
    rfl
  obtain ⟨final', hfinal', hsame⟩ := Slots.Generations.alike hcount hgen hs hs' hmembers
  obtain ⟨hgeneration, rfl⟩ := hgen'.unique hfinal'
  refine ⟨s', hrun', hgeneration, s.slots.members.filterMap id,
    Slots.groups_eq (Slots.sound_of_reaches hreach hs), ?_⟩
  rw [Slots.groups_eq (Slots.sound_of_reaches hreach' hs'), hsame]

/-- Valid matrices that behave alike have the same lanes, fields of the same targets, place, width,
number of symbols and position, and reports that differ in the number of steps only. -/
theorem layout_of_behaviour {m m' : FlowMatrix} (hv : m.validate = .ok ()) (hv' : m'.validate = .ok ())
    (h : m.BehavesLike m') (hfit : m.laneBits + m.selectorBits < Width.limit) (bound : Nat) :
    ∃ d report d' report', (compute m bound).result = .ok (d, report) ∧
      (compute m' bound).result = .ok (d', report') ∧
      d'.packing = d.packing ∧ d'.width = d.width ∧
      d'.fields.map MicroField.outline = d.fields.map MicroField.outline ∧
      { report' with steps := report.steps } = report := by
  obtain ⟨d, report, hcompute, -⟩ := compute_ok hv hfit bound
  obtain ⟨_, packing, bits, merged, fields, width, values, hneutral, hpacking, hbits, hmerged, hlayout,
    hvalues, rfl, rfl⟩ := compute_eq_ok_iff.mp hcompute
  cases hneutral.symm.trans (neutralContents_eq_ok hv)
  have hcount := h.count_eq hv hv'
  have htables' : initialTables m' (tabulate m'.neutralContent m'.targets) =
      m.targets.map fun t => ofContents [t] m.neutralContent m'.stepContents := by
    rw [initialTables_eq, h.targets, h.neutralContent_eq hv hv']
  rw [initialTables_eq] at hbits hmerged
  obtain ⟨merged', hmerged', hgeneration, tss, hgroups, hgroups'⟩ :=
    mergeGroups_alike hcount m.targets_nodup hmerged
  rw [hgroups] at hlayout
  obtain ⟨fields', hlayout', houtline⟩ := layout_alike hcount hlayout
  have hwidths : fields'.map MicroField.width = fields.map MicroField.width := by
    have := congrArg (List.map fun o => o.2.2.1) houtline
    rwa [List.map_map, List.map_map] at this
  have hbits' : Width.sum ((initialTables m' (tabulate m'.neutralContent m'.targets)).map SymbolTable.width) =
      .ok bits := by
    rw [htables', ← hbits, List.map_map, List.map_map]
    exact congrArg Width.sum (List.map_congr_left fun t _ => width_eq_of_count_eq (hcount [t]).symm)
  refine ⟨_, _, _, _, hcompute, compute_eq_ok_iff.mpr ⟨_, packing, bits, merged', fields', width, values,
    neutralContents_eq_ok hv', h.ofLiterals_eq hv hv' ▸ hpacking, hbits', htables'.symm ▸ hmerged',
    hgroups'.symm ▸ hlayout', h.laneWidths_eq hv hv' ▸ hvalues, rfl, rfl⟩, rfl, rfl, houtline, ?_⟩
  rw [hwidths, hgeneration]

/-- The matrix `mixed` with its steps in another order, one of them twice, and with absent flows
written out. -/
def remixed : FlowMatrix where
  signals := FlowMatrix.mixed.signals
  neutral := .ofList [(0, .raw (.ofNat 3 4)), (1, .raw (.ofNat 3 4)), (2, .absent)]
  steps := [.ofList [(2, .forward 0)], .empty,
    .ofList [(0, .raw (.ofNat 0 4)), (1, .forward 0), (2, .constant (.ofNat 9 4))],
    .ofList [(0, .absent), (2, .forward 0)]]

theorem behavesLike_remixed : FlowMatrix.mixed.BehavesLike remixed :=
  ⟨rfl, by decide, by decide, by decide, by decide⟩

theorem remixed_layout : ∃ d report d' report', (compute .mixed 2).result = .ok (d, report) ∧
    (compute remixed 2).result = .ok (d', report') ∧ d'.packing = d.packing ∧ d'.width = d.width ∧
    d'.fields.map MicroField.outline = d.fields.map MicroField.outline ∧
    { report' with steps := report.steps } = report :=
  layout_of_behaviour (by decide) (by decide) behavesLike_remixed (by decide) 2

end Design

end ControlStore
