import ControlStore.Proofs.RoundTrip
import ControlStore.Proofs.SafePacking

/-! # Zeros in a control word

Symbol zero of every field stands for the neutral contents of its targets and for no other contents
(`SymbolTable.Numbers.codeOf_eq_zero_iff`), however the field came about.  So the selectors of a step
are zero exactly if the step gives all targets their neutral contents (`Design.selectors_zero_iff`).  In
the value word a step sets bits only in the lanes that it uses (`Design.testBit_outside_lanes`). -/

namespace ControlStore

open NatMap (tabulate)
open ControlWord StepFlow

namespace Design

section
variable {m : FlowMatrix} {d : Design} (h : LaysOut m d) (hv : m.validate = .ok ())
  {step : Nat} {flow : StepFlow} {word : ControlWord} {i : Nat}
include h hv

/-- Symbol zero of a field stands for the neutral contents of its targets. -/
theorem contents_zero {f : MicroField} (hf : f ∈ d.fields) :
    ∃ contents, f.table.contents 0 = .ok contents ∧ (∀ t, t ∈ contents.keys ↔ t ∈ f.table.targets) ∧
      ∀ t ∈ f.table.targets, ∃ signal, m.signal t = .ok signal ∧
        contents.get? t = some (Content.of (lookup m.neutral t) (.literal signal.init)) := by
  refine ⟨_, (h.numbers f hf).contents_zero, fun t => NatMap.mem_keys_tabulate, fun t ht => ?_⟩
  have hdeclared := FlowMatrix.declared_of_mem_targets hv ((mem_targets_iff h).mpr ⟨f, hf, ht⟩)
  obtain ⟨signal, hsignal, -, hinit⟩ := FlowMatrix.signal_eq_ok hdeclared
  refine ⟨signal, hsignal, ?_⟩
  rw [NatMap.get?_tabulate, if_pos ht, hinit]
  rfl

/-- A bit that is set in the word of a step lies in the lane of a target that the step gives a literal
stored verbatim, or in a selector that is not zero. -/
theorem lane_or_selector_of_testBit (hflow : m.flow step = .ok flow) (henc : d.encode step flow = .ok word)
    (hi : word.bits.testBit i = true) :
    (∃ t b, lookup (integrate m.neutral flow) t = .raw b ∧ (d.laneOf t).Covers i ∧ i < d.packing.width) ∨
      ∃ f ∈ d.fields, d.packing.width ≤ i ∧
        f.table.codeOf (m.contentIn (integrate m.neutral flow)) ≠ 0 := by
  have hc := FlowMatrix.getElem?_stepContents hflow
  have hmem := List.mem_cons_of_mem m.neutralContent (List.mem_of_getElem? hc)
  obtain ⟨-, -, hwrites⟩ := (encode_eq_ok_iff h hc).mp henc
  rcases exists_write_of_testBit hwrites hi with hi | ⟨e, he, hle, hlt, hbit⟩
  · rw [zeros, Nat.zero_testBit] at hi
    cases hi
  · rcases List.mem_append.mp he with he | he
    · obtain ⟨t, hraw, hoffset⟩ := mem_laneWrites_iff.mp he
      have hcarries := FlowMatrix.carriesRaw_of_flow hflow hraw
      have hwidth := width_laneOf h hcarries
      have hstop := laneOf_le h hcarries
      rw [width_raw_of_flow hv hflow hraw] at hlt
      exact .inl ⟨t, e.2, hraw, ⟨by omega, by omega⟩, by omega⟩
    · obtain ⟨f, hf, rfl⟩ := List.mem_map.mp he
      refine .inr ⟨f, hf, Nat.le_trans (h.behind f hf) hle, fun hzero => ?_⟩
      rw [MicroField.value_selectorOf (h.numbers f hf) hmem, hzero, Nat.zero_testBit] at hbit
      cases hbit

/-- The selectors of a step are zero exactly if the step keeps the neutral contents. -/
theorem selectors_zero_iff (hflow : m.flow step = .ok flow) (henc : d.encode step flow = .ok word) :
    (∀ i, d.packing.width ≤ i → i < d.width → word.bits.testBit i = false) ↔
      ∀ t ∈ m.targets, m.contentIn (integrate m.neutral flow) t = m.neutralContent t := by
  have hc := FlowMatrix.getElem?_stepContents hflow
  have hmem := List.mem_cons_of_mem m.neutralContent (List.mem_of_getElem? hc)
  constructor
  · intro hzero t ht
    obtain ⟨-, -, hwrites⟩ := (encode_eq_ok_iff h hc).mp henc
    obtain ⟨f, hf, htf⟩ := (mem_targets_iff h).mp ht
    have hfield : word.field f.offset f.width = 0 := by
      apply Nat.eq_of_testBit_eq
      intro i
      rw [testBit_field, Nat.zero_testBit]
      by_cases hi : i < f.width
      · have := h.behind f hf
        have := h.within f hf
        rw [hzero (f.offset + i) (by omega) (by omega), Bool.and_false]
      · rw [decide_eq_false hi, Bool.false_and]
    rw [field_selector h hmem hwrites hf] at hfield
    exact ((h.numbers f hf).codeOf_eq_zero_iff hmem).mp hfield t htf
  · intro hsame i hi _
    refine Bool.eq_false_iff.mpr fun hbit => ?_
    rcases lane_or_selector_of_testBit h hv hflow henc hbit with ⟨_, _, _, _, hlt⟩ | ⟨f, hf, -, hne⟩
    · omega
    · refine hne (((h.numbers f hf).codeOf_eq_zero_iff hmem).mpr fun t ht => hsame t ?_)
      exact (mem_targets_iff h).mpr ⟨f, hf, ht⟩

/-- A step sets no bit of the value word outside the lanes that it uses. -/
theorem testBit_outside_lanes (hflow : m.flow step = .ok flow) (henc : d.encode step flow = .ok word)
    (hi : i < d.packing.width) (hout : ∀ t b lane, lookup (integrate m.neutral flow) t = .raw b →
      d.packing.lanes.get? t = some lane → ¬ lane.Covers i) : word.bits.testBit i = false := by
  refine Bool.eq_false_iff.mpr fun hbit => ?_
  rcases lane_or_selector_of_testBit h hv hflow henc hbit with ⟨t, b, hraw, hcovers, -⟩ | ⟨f, -, hge, -⟩
  · exact hout t b _ hraw (lane_eq_some h (FlowMatrix.carriesRaw_of_flow hflow hraw)) hcovers
  · omega

end

/-- Zeros stand for the neutral flow: symbol zero of every field, selectors that are zero, and the bits
of lanes that a step does not use. -/
structure ZeroIsNeutral (m : FlowMatrix) (d : Design) : Prop where
  symbol : ∀ f ∈ d.fields, ∃ contents, f.table.contents 0 = .ok contents ∧
    (∀ t, t ∈ contents.keys ↔ t ∈ f.table.targets) ∧
    ∀ t ∈ f.table.targets, ∃ signal, m.signal t = .ok signal ∧
      contents.get? t = some (Content.of (lookup m.neutral t) (.literal signal.init))
  steps : ∀ step < m.steps.length, ∃ flow word, m.flow step = .ok flow ∧ d.encode step flow = .ok word ∧
    ((∀ i, d.packing.width ≤ i → i < d.width → word.bits.testBit i = false) ↔
      ∀ t ∈ m.targets, m.contentIn (integrate m.neutral flow) t = m.neutralContent t) ∧
    ∀ i < d.packing.width, (∀ t b lane, lookup (integrate m.neutral flow) t = .raw b →
      d.packing.lanes.get? t = some lane → ¬ lane.Covers i) → word.bits.testBit i = false

theorem zero_is_neutral {m : FlowMatrix} (hv : m.validate = .ok ())
    (hfit : m.laneBits + m.selectorBits < Width.limit) (bound : Nat) :
    ∃ d report, (compute m bound).result = .ok (d, report) ∧ ZeroIsNeutral m d := by
  obtain ⟨d, report, hcompute, h⟩ := compute_ok hv hfit bound
  refine ⟨d, report, hcompute, fun f hf => contents_zero h hv hf, fun step hstep => ?_⟩
  obtain ⟨flow, hflow⟩ := FlowMatrix.exists_flow hstep
  obtain ⟨word, henc⟩ := exists_encode h hv hflow
  exact ⟨flow, word, hflow, henc, selectors_zero_iff h hv hflow henc,
    fun i hi hout => testBit_outside_lanes h hv hflow henc hi hout⟩

theorem mixed_zero_is_neutral : ∃ d report, (compute .mixed 2).result = .ok (d, report) ∧
    ZeroIsNeutral .mixed d :=
  zero_is_neutral (by decide) (by decide) 2

end Design

end ControlStore
