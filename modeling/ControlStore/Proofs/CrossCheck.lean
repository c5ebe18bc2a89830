import ControlStore.Proofs.RoundTrip

/-! # The check of the contents of a step

Before a field writes the symbol of a step, it looks up the contents it is given, and compares their symbol
with the one on record.  Contents that occur in no flow of the matrix have no symbol
(`MicroField.symbolAt_of_not_knows`), and contents of another flow have a different one
(`MicroField.symbolAt_of_knows`), since a table numbers different contents differently.  The fields together
have all targets, so a flow passes their checks exactly if no target tells it from the flow of the step
(`Design.passes_iff`). -/

namespace ControlStore

open NatMap (tabulate)
open StepFlow

namespace MicroField

variable {neutral : SignalId → Content} {steps : List (SignalId → Content)} {f : MicroField}
  {c' : SignalId → Content} {ts : List SignalId}

/-- For the targets of the field, `c` is the same as one of the contents `recorded`. -/
def Knows (f : MicroField) (recorded : List (SignalId → Content)) (c : SignalId → Content) : Prop :=
  ∃ e ∈ recorded, ∀ t ∈ f.table.targets, c t = e t

section
variable (h : f.table.Numbers neutral steps) (hsub : ∀ t ∈ f.table.targets, t ∈ ts)
include h hsub

theorem symbolAt_of_not_knows (hno : ¬ f.Knows (neutral :: steps) c') (step : Nat) :
    f.symbolAt step (tabulate c' ts) = .error (.unknownFlow step f.order) := by
  have hnone : f.table.symbolOf? (tabulate c' f.table.targets) = none := by
    refine Option.eq_none_iff_forall_ne_some.mpr fun symbol hsymbol => ?_
    obtain ⟨e, he, heq⟩ := h.mem_values_iff.mp (List.mem_of_getElem? (h.symbolOf?_eq_some_iff.mp hsymbol))
    exact hno ⟨e, he, NatMap.tabulate_eq_iff.mp heq⟩
  unfold symbolAt
  rw [ownContents_eq_ok hsub, ok_bind, hnone]
  rfl

theorem symbolAt_of_knows {step : Nat} {c : SignalId → Content} (hc : steps[step]? = some c)
    (hknows : f.Knows (neutral :: steps) c') (hne : ∃ t ∈ f.table.targets, c' t ≠ c t) :
    f.symbolAt step (tabulate c' ts) = .error (.differentSymbol step f.order) := by
  obtain ⟨e, he, heq⟩ := hknows
  have hmem : c ∈ neutral :: steps := List.mem_cons_of_mem _ (List.mem_of_getElem? hc)
  have hsymbol : f.table.symbolOf? (tabulate c' f.table.targets) = some (f.table.codeOf e) := by
    rw [NatMap.tabulate_congr heq]
    exact h.symbolOf?_eq_some_iff.mpr (h.values_codeOf he)
  have hcode : f.table.codeOf e ≠ f.table.codeOf c := by
    intro hcode
    obtain ⟨t, ht, hdiffers⟩ := hne
    have hvalues := h.values_codeOf he
    rw [hcode, h.values_codeOf hmem, Option.some_inj, NatMap.tabulate_eq_iff] at hvalues
    exact hdiffers ((heq t ht).trans (hvalues t ht).symm)
  unfold symbolAt
  rw [ownContents_eq_ok hsub, ok_bind, hsymbol]
  show (f.table.symbol step >>= _) = _
  rw [h.symbol_eq hc, ok_bind, ensure, if_neg (by simpa using hcode)]
  rfl

end

theorem encode_of_symbolAt_error {step : Nat} {contents : Contents} {fault : Fault}
    (h : f.symbolAt step contents = .error fault) (word : ControlWord) :
    f.encode step contents word = .error fault := by
  unfold encode
  rw [h]
  rfl

end MicroField

namespace Design

variable {m : FlowMatrix} {d : Design}

/-- The contents of the flow pass the checks of all fields. -/
def Passes (d : Design) (step : Nat) (flow : StepFlow) : Prop :=
  ∀ f ∈ d.fields, ∃ symbol, f.symbolAt step (d.contentsOf (d.merge flow)) = .ok symbol

/-- How a field refuses a flow that gives one of its targets other contents than `merged` does. -/
def Refuses (m : FlowMatrix) (d : Design) (step : Nat) (flow merged : StepFlow) (f : MicroField) : Prop :=
  (∃ t ∈ f.table.targets, m.contentIn (integrate m.neutral flow) t ≠ m.contentIn merged t) → ∀ word,
    (f.Knows (m.neutralContent :: m.stepContents) (m.contentIn (integrate m.neutral flow)) ∧
        f.encode step (d.contentsOf (d.merge flow)) word = .error (.differentSymbol step f.order)) ∨
      (¬ f.Knows (m.neutralContent :: m.stepContents) (m.contentIn (integrate m.neutral flow)) ∧
        f.encode step (d.contentsOf (d.merge flow)) word = .error (.unknownFlow step f.order))

section
variable (h : LaysOut m d) {step : Nat} {flow : StepFlow}
include h

theorem contentsOf_merge : d.contentsOf (d.merge flow) =
    tabulate (m.contentIn (integrate m.neutral flow)) m.targets := by
  unfold merge
  rw [contentsOf_eq h, h.matrix]

theorem targets_subset {f : MicroField} (hf : f ∈ d.fields) : ∀ t ∈ f.table.targets, t ∈ m.targets :=
  fun _ ht => (mem_targets_iff h).mpr ⟨f, hf, ht⟩

theorem passes_iff {c : SignalId → Content} (hc : m.stepContents[step]? = some c) :
    d.Passes step flow ↔ ∀ t ∈ m.targets, m.contentIn (integrate m.neutral flow) t = c t := by
  unfold Passes
  rw [contentsOf_merge h, ← forall_targets_iff h]
  refine forall₂_congr fun f hf => ?_
  simp only [MicroField.symbolAt_eq_ok_iff (h.numbers f hf) hc (targets_subset h hf), exists_and_left,
    exists_eq, and_true]

theorem refuses {merged : StepFlow} (hc : m.stepContents[step]? = some (m.contentIn merged)) {f : MicroField}
    (hf : f ∈ d.fields) : Refuses m d step flow merged f := by
  intro hne word
  rw [contentsOf_merge h]
  have hnum := h.numbers f hf
  have hsub := targets_subset h hf
  by_cases hknows : f.Knows (m.neutralContent :: m.stepContents) (m.contentIn (integrate m.neutral flow))
  · exact .inl ⟨hknows, MicroField.encode_of_symbolAt_error
      (MicroField.symbolAt_of_knows hnum hsub hc hknows hne) word⟩
  · exact .inr ⟨hknows, MicroField.encode_of_symbolAt_error
      (MicroField.symbolAt_of_not_knows hnum hsub hknows step) word⟩

theorem lane_isSome_of_passes {c : SignalId → Content} (hc : m.stepContents[step]? = some c)
    (hflow : ∀ t ∈ flow.keys, t ∈ m.targets) (hpasses : d.Passes step flow) {t : SignalId} {b : Bits}
    (hraw : lookup (integrate m.neutral flow) t = .raw b) : (d.packing.lanes.get? t).isSome := by
  have ht : t ∈ m.targets := by
    refine Decidable.byContradiction fun ht => ?_
    rw [lookup_integrate, lookup_eq_absent_of_not_mem fun hmem => ht (hflow t hmem), if_pos rfl,
      FlowMatrix.lookup_neutral_of_not_mem ht] at hraw
    cases hraw
  have hlane := FlowMatrix.contentIn_eq_lane_iff.mpr ⟨b, hraw⟩
  rw [(passes_iff h hc).mp hpasses t ht] at hlane
  exact (h.lane_isSome t).mpr
    (FlowMatrix.carriesRaw_of_content (List.mem_cons_of_mem _ (List.mem_of_getElem? hc)) hlane)

end

/-- The checks of the fields are exact: a flow passes them for a step exactly if it gives every target the
content that the step gives it, and then every literal stored verbatim has a lane.  A field with a target
that tells the flows apart refuses the flow, whatever the word. -/
theorem cross_check_exact (hv : m.validate = .ok ()) (hfit : m.laneBits + m.selectorBits < Width.limit)
    (bound : Nat) {step : Nat} (hstep : step < m.steps.length) {flow : StepFlow}
    (hflow : ∀ t ∈ flow.keys, t ∈ m.targets) :
    ∃ d report merged, (compute m bound).result = .ok (d, report) ∧ m.mergedFlow step = .ok merged ∧
      (d.Passes step flow ↔
        ∀ t ∈ m.targets, m.contentIn (integrate m.neutral flow) t = m.contentIn merged t) ∧
      (d.Passes step flow → ∀ t b, lookup (integrate m.neutral flow) t = .raw b →
        (d.packing.lanes.get? t).isSome) ∧
      (∀ t b, lookup merged t = .raw b → (d.packing.lanes.get? t).isSome) ∧
      ∀ f ∈ d.fields, Refuses m d step flow merged f := by
  obtain ⟨d, report, hcompute, h⟩ := compute_ok hv hfit bound
  obtain ⟨own, hown⟩ := FlowMatrix.exists_flow hstep
  have hc := FlowMatrix.getElem?_stepContents hown
  have hmerged : m.mergedFlow step = .ok (integrate m.neutral own) := by
    unfold FlowMatrix.mergedFlow
    rw [hown]
    rfl
  refine ⟨d, report, _, hcompute, hmerged, passes_iff h hc, fun hpasses t b => ?_, fun t b hraw => ?_,
    fun f hf => refuses h hc hf⟩
  · exact lane_isSome_of_passes h hc hflow hpasses
  · exact (h.lane_isSome t).mpr (FlowMatrix.carriesRaw_of_flow hown hraw)

/-- The two targets of `twins` take their literals from lanes, so other literals pass the checks. -/
theorem cross_check_twins : ∃ d report merged, (compute twins 6).result = .ok (d, report) ∧
    twins.mergedFlow 0 = .ok merged ∧
    (d.Passes 0 zeroAndTwo ↔
      ∀ t ∈ twins.targets, twins.contentIn (integrate twins.neutral zeroAndTwo) t = twins.contentIn merged t) ∧
    (d.Passes 0 zeroAndTwo → ∀ t b, lookup (integrate twins.neutral zeroAndTwo) t = .raw b →
      (d.packing.lanes.get? t).isSome) ∧
    (∀ t b, lookup merged t = .raw b → (d.packing.lanes.get? t).isSome) ∧
    ∀ f ∈ d.fields, Refuses twins d 0 zeroAndTwo merged f :=
  cross_check_exact (by decide) (by decide) 6 (by decide) (by decide)

end Design

end ControlStore
