import ControlStore.Proofs.Lowering

/-! # What a flow file means

The meaning of a file is read off its syntax tree: `FlowFile.Receives` says what a signal receives
in a step, with the assignments of the step before those of the neutral block, and those before the
initial value; an assignment `= _` counts as none.  The matrix of a file has this meaning
(`FlowFile.lower_meaning`). -/

namespace ControlStore.Source

open StepFlow (lookup integrate)

/-! ### Meanings -/

/-- What a right-hand side other than `_` stands for: a literal of the target's width, whether it is
stored verbatim or not, or the signal declared under a name. -/
inductive RightSide.Denotes (signals : List Declaration) (width : Nat) : RightSide → Assignment → Prop
  | constant {number bits} : number.Denotes width bits → Denotes signals width (.constant number) (.value bits)
  | raw {number bits} : number.Denotes width bits → Denotes signals width (.raw number) (.value bits)
  | forward {source : Ident} {i s} : signals[i]? = some s → s.name.name = source.name →
      Denotes signals width (.forward source) (.signal i)

/-- One of the assignments has the declared signal on its left and `source` on its right. -/
def Assigns (assignments : List Assign) (d : Declaration) (source : RightSide) : Prop :=
  ∃ a ∈ assignments, a.target.name = d.name.name ∧ a.source = source

/-- What a declared signal receives in a step. -/
inductive FlowFile.Receives (file : FlowFile) (step : Block) (d : Declaration) : Assignment → Prop
  | step {source x} : Assigns step.assignments d source →
      source.Denotes file.signals d.width.value x → Receives file step d x
  | neutral {source x} : (∀ source, Assigns step.assignments d source → source = .absent) →
      Assigns file.neutralAssignments d source → source.Denotes file.signals d.width.value x →
      Receives file step d x
  | initial {bits : Bits} : (∀ source, Assigns step.assignments d source → source = .absent) →
      (∀ source, Assigns file.neutralAssignments d source → source = .absent) →
      bits.width = d.width.value → bits.value = (d.init.map Number.value).getD 0 →
      Receives file step d (.value bits)

/-! ### Flows -/

section
variable {signals : List Declaration} (hnames : (signals.map fun d => d.name.name).Nodup)
variable {m : FlowMatrix} {t : SignalId} {x : Assignment} {width : Nat} {source : RightSide} {flow : Flow}

theorem Number.Denotes.unique {number : Number} {bits bits' : Bits} (h : number.Denotes width bits)
    (h' : number.Denotes width bits') : bits = bits' :=
  Bits.eq_of_width_value (h.2.trans h'.2.symm) (h.1.trans h'.1.symm)

theorem RightSide.Lowers.eq_absent_iff (h : source.Lowers signals width flow) :
    flow = .absent ↔ source = .absent := by
  cases h <;> simp

include hnames in
/-- The flow of a right-hand side resolves to what it stands for. -/
theorem RightSide.Lowers.denotes_iff (h : source.Lowers signals width flow) :
    source.Denotes signals width x ↔ flow ≠ .absent ∧ m.resolution t flow = x := by
  constructor
  · intro hx
    cases hx with
    | constant hbits =>
        cases h with
        | constant hbits' => exact ⟨Flow.noConfusion, congrArg _ (hbits'.unique hbits)⟩
    | raw hbits =>
        cases h with
        | raw hbits' => exact ⟨Flow.noConfusion, congrArg _ (hbits'.unique hbits)⟩
    | forward hi hs =>
        cases h with
        | forward hi' hs' =>
            exact ⟨Flow.noConfusion, congrArg _ ((position_eq_iff hnames hi' hi).mpr (hs'.trans hs.symm))⟩
  · rintro ⟨hflow, rfl⟩
    cases h with
    | constant hbits => exact .constant hbits
    | raw hbits => exact .raw hbits
    | forward hi hs => exact .forward hi hs
    | absent => exact absurd rfl hflow

variable {assignments : List Assign} {f : StepFlow} (hf : Lowers signals assignments f)
variable {d : Declaration} (hd : signals[t]? = some d)
include hf hd

/-- The flow of an assigned signal is that of its assignment. -/
theorem Lowers.lookup_assigns (hsource : Assigns assignments d source) :
    source.Lowers signals d.width.value (lookup f t) := by
  obtain ⟨a, ha, hname, rfl⟩ := hsource
  obtain ⟨flow, hget, hflow⟩ := hf.complete hd a ha hname
  unfold lookup
  rwa [hget]

theorem Lowers.exists_assigns (h : lookup f t ≠ .absent) : ∃ source, Assigns assignments d source := by
  obtain ⟨d', hd', a, ha, hname, -⟩ := hf.sound (StepFlow.get?_of_lookup h)
  obtain rfl := Option.some.inj (hd.symm.trans hd')
  exact ⟨a.source, a, ha, hname, rfl⟩

theorem Lowers.lookup_eq_absent_iff :
    lookup f t = .absent ↔ ∀ source, Assigns assignments d source → source = .absent := by
  constructor
  · exact fun h source hsource => (hf.lookup_assigns hd hsource).eq_absent_iff.mp h
  · intro h
    refine Decidable.byContradiction fun hne => ?_
    obtain ⟨source, hsource⟩ := hf.exists_assigns hd hne
    exact hne ((hf.lookup_assigns hd hsource).eq_absent_iff.mpr (h source hsource))

include hnames in
theorem Lowers.lookup_denotes_iff :
    (∃ source, Assigns assignments d source ∧ source.Denotes signals d.width.value x) ↔
      lookup f t ≠ .absent ∧ m.resolution t (lookup f t) = x := by
  constructor
  · rintro ⟨source, hsource, hx⟩
    exact ((hf.lookup_assigns hd hsource).denotes_iff hnames).mp hx
  · rintro ⟨hne, hx⟩
    obtain ⟨source, hsource⟩ := hf.exists_assigns hd hne
    exact ⟨source, hsource, ((hf.lookup_assigns hd hsource).denotes_iff hnames).mpr ⟨hne, hx⟩⟩

omit hd in
theorem Lowers.mem_keys_iff :
    t ∈ f.keys ↔ ∃ d, signals[t]? = some d ∧ ∃ source, Assigns assignments d source := by
  rw [NatMap.mem_keys_iff, Option.isSome_iff_exists]
  constructor
  · rintro ⟨flow, hget⟩
    obtain ⟨d, hd, a, ha, hname, -⟩ := hf.sound hget
    exact ⟨d, hd, a.source, a, ha, hname, rfl⟩
  · rintro ⟨d, hd, source, a, ha, hname, -⟩
    obtain ⟨flow, hget, -⟩ := hf.complete hd a ha hname
    exact ⟨flow, hget⟩

end

/-! ### Steps -/

theorem FlowFile.assigns_neutral_iff {file : FlowFile} {d : Declaration} {source : RightSide} :
    Assigns file.neutralAssignments d source ↔
      ∃ block ∈ file.neutral.toList, Assigns block.assignments d source := by
  unfold neutralAssignments
  cases file.neutral with
  | none => simp [Assigns]
  | some block => simp

namespace FlowFile.Lowered

variable {file : FlowFile} {m : FlowMatrix} (h : file.Lowered m)
include h

theorem initialOf_eq_iff {t : SignalId} {d : Declaration} (hd : file.signals[t]? = some d) {bits : Bits} :
    m.initialOf t = bits ↔
      bits.width = d.width.value ∧ bits.value = (d.init.map Number.value).getD 0 := by
  obtain ⟨signal, hsignal, hdescribes⟩ := exists_getElem?_of_forall₂ h.signals hd
  have hinit : m.initialOf t = signal.init := by
    unfold FlowMatrix.initialOf
    rw [hsignal]
    rfl
  rw [hinit, ← hdescribes.init_width, ← hdescribes.init_value]
  constructor
  · rintro rfl
    exact ⟨rfl, rfl⟩
  · rintro ⟨hwidth, hvalue⟩
    exact Bits.eq_of_width_value hwidth.symm hvalue.symm

/-- What a signal receives is what its flow resolves to. -/
theorem receives_iff (hnames : (file.signals.map fun d => d.name.name).Nodup) {block : Block} {f : StepFlow}
    (hf : Lowers file.signals block.assignments f) {t : SignalId} {d : Declaration}
    (hd : file.signals[t]? = some d) {x : Assignment} :
    file.Receives block d x ↔ m.resolution t (lookup (integrate m.neutral f) t) = x := by
  have hstep := hf.lookup_denotes_iff hnames (m := m) (x := x) hd
  have hneutral := h.neutral.lookup_denotes_iff hnames (m := m) (x := x) hd
  rw [StepFlow.lookup_integrate]
  split
  · next hnoStep =>
    by_cases hnoNeutral : lookup m.neutral t = .absent
    · rw [hnoNeutral]
      constructor
      · intro hx
        cases hx with
        | step hsource hx => exact absurd hnoStep (hstep.mp ⟨_, hsource, hx⟩).1
        | neutral _ hsource hx => exact absurd hnoNeutral (hneutral.mp ⟨_, hsource, hx⟩).1
        | initial _ _ hwidth hvalue =>
            exact congrArg Assignment.value ((h.initialOf_eq_iff hd).mpr ⟨hwidth, hvalue⟩)
      · rintro rfl
        obtain ⟨hwidth, hvalue⟩ := (h.initialOf_eq_iff hd).mp rfl
        exact .initial ((hf.lookup_eq_absent_iff hd).mp hnoStep)
          ((h.neutral.lookup_eq_absent_iff hd).mp hnoNeutral) hwidth hvalue
    · constructor
      · intro hx
        cases hx with
        | step hsource hx => exact absurd hnoStep (hstep.mp ⟨_, hsource, hx⟩).1
        | neutral _ hsource hx => exact (hneutral.mp ⟨_, hsource, hx⟩).2
        | initial _ hno => exact absurd ((h.neutral.lookup_eq_absent_iff hd).mpr hno) hnoNeutral
      · intro hx
        obtain ⟨source, hsource, hx⟩ := hneutral.mpr ⟨hnoNeutral, hx⟩
        exact .neutral ((hf.lookup_eq_absent_iff hd).mp hnoStep) hsource hx
  · next hsome =>
    constructor
    · intro hx
      cases hx with
      | step hsource hx => exact (hstep.mp ⟨_, hsource, hx⟩).2
      | neutral hno => exact absurd ((hf.lookup_eq_absent_iff hd).mpr hno) hsome
      | initial hno => exact absurd ((hf.lookup_eq_absent_iff hd).mpr hno) hsome
    · intro hx
      obtain ⟨source, hsource, hx⟩ := hstep.mpr ⟨hsome, hx⟩
      exact .step hsource hx

/-- The targets are the signals that are assigned in some block. -/
theorem mem_targets_iff {t : SignalId} : t ∈ m.targets ↔ ∃ d, file.signals[t]? = some d ∧
    ∃ block ∈ file.blocks, ∃ source, Assigns block.assignments d source := by
  have hsteps := exists_mem_iff_of_forall₂ h.steps fun _ _ _ hf => (hf.mem_keys_iff (t := t)).symm
  unfold blocks
  rw [FlowMatrix.mem_targets_iff, h.neutral.mem_keys_iff, ← hsteps]
  simp only [assigns_neutral_iff, List.mem_append]
  constructor
  · rintro (⟨d, hd, source, block, hblock, hsource⟩ | ⟨block, hblock, d, hd, source, hsource⟩)
    · exact ⟨d, hd, block, .inl hblock, source, hsource⟩
    · exact ⟨d, hd, block, .inr hblock, source, hsource⟩
  · rintro ⟨d, hd, block, hblock | hblock, source, hsource⟩
    · exact .inl ⟨d, hd, source, block, hblock, hsource⟩
    · exact .inr ⟨block, hblock, d, hd, source, hsource⟩

end FlowFile.Lowered

/-- The matrix of a file declares its signals in order and has one step per step block.  Its targets
are the signals that are assigned in some block, in the order of their declarations, and what they
resolve to in a step is what they receive by the text of the file. -/
theorem FlowFile.lower_meaning {file : FlowFile} {m : FlowMatrix} (h : file.lower = .ok m) :
    List.Forall₂ Declaration.Describes file.signals m.signals ∧ m.steps.length = file.steps.length ∧
      m.targets.Pairwise (· < ·) ∧
      (∀ t, t ∈ m.targets ↔ ∃ d, file.signals[t]? = some d ∧
        ∃ block ∈ file.blocks, ∃ source, Assigns block.assignments d source) ∧
      ∀ step block, file.steps[step]? = some block →
        ∃ resolved, m.resolveStep step = .ok resolved ∧ resolved.keys = m.targets ∧
          ∀ t ∈ m.targets, ∀ d, file.signals[t]? = some d →
            ∀ x, resolved.get? t = some x ↔ file.Receives block d x := by
  obtain ⟨hnone, hlowered⟩ := file.reports_lower.of_eq_ok h
  have hwell := violations_eq_nil_iff.mp hnone
  refine ⟨hlowered.signals, hlowered.steps.length_eq.symm, m.targets_ascending,
    fun t => hlowered.mem_targets_iff, ?_⟩
  intro step block hblock
  obtain ⟨f, hf, hlowers⟩ := exists_getElem?_of_forall₂ hlowered.steps hblock
  refine ⟨_, FlowMatrix.resolveStep_eq_ok (hlowered.validate hwell) (fetch_eq_ok_iff.mpr hf), ?_, ?_⟩
  · unfold NatMap.keys
    rw [NatMap.entries_tabulate m.targets_ascending, List.map_map]
    exact List.map_id m.targets
  · intro t ht d hd x
    rw [NatMap.get?_tabulate, if_pos ht, Option.some.injEq, hlowered.receives_iff hwell.names hlowers hd]

/-- The matrix of the file in which a step leaves its signals to the neutral block and to the initial
value. -/
def FlowFile.overlaidMatrix : FlowMatrix where
  signals := [.zeroed "a" 4, ⟨"b", 4, .ofNat 9 4, rfl⟩]
  neutral := .ofList [(0, .raw (.ofNat 3 4))]
  steps := [.ofList [(1, .forward 0)], .ofList [(0, .absent), (1, .absent)]]

/-- In its second step `b` receives the initial value. -/
theorem FlowFile.lower_meaning_overlaid : overlaid.lower = .ok overlaidMatrix ∧
    ∃ resolved, overlaidMatrix.resolveStep 1 = .ok resolved ∧ resolved.keys = [0, 1] ∧
      ∃ block d, overlaid.steps[1]? = some block ∧ overlaid.signals[1]? = some d ∧
        overlaid.Receives block d (.value ⟨4, 9, by decide⟩) := by
  have hlower : overlaid.lower = .ok overlaidMatrix := eq_ok_of_toOption (by decide +kernel)
  have hvalue : (overlaidMatrix.resolveStep 1).toOption.bind (·.get? 1) =
      some (.value ⟨4, 9, by decide⟩) := by decide +kernel
  have htargets : overlaidMatrix.targets = [0, 1] := by decide +kernel
  obtain ⟨-, -, -, -, hsteps⟩ := lower_meaning hlower
  obtain ⟨resolved, hresolved, hkeys, hreceives⟩ := hsteps 1 _ rfl
  rw [hresolved] at hvalue
  refine ⟨hlower, resolved, hresolved, hkeys.trans htargets, _, _, rfl, rfl, ?_⟩
  exact (hreceives 1 (by simp [htargets]) _ rfl _).mp hvalue

end ControlStore.Source
