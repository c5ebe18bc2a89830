import ControlStore.Proofs.Encoding

/-! # Encoding and decoding a step

Every step of a valid matrix is encoded (`Design.exists_encode`) and decodes to what the step
requires.  A step may also be encoded with another flow that has the same contents.  What is then
decoded is right for every target but those whose literal zero shares a lane with another literal:
the lane counts as not yet written and takes the other literal (`Design.drive_eq_resolution_iff`). -/

namespace ControlStore

open NatMap (tabulate)
open ControlWord StepFlow

namespace Design

/-- The target holds the literal zero and shares its lane with a target that holds another literal. -/
def Overwritten (d : Design) (merged : StepFlow) (t : SignalId) : Prop :=
  ∃ b u b', lookup merged t = .raw b ∧ b.value = 0 ∧ lookup merged u = .raw b' ∧ b'.value ≠ 0 ∧
    d.packing.lanes.get? u = d.packing.lanes.get? t

section
variable {m : FlowMatrix} {d : Design} (h : LaysOut m d) (hv : m.validate = .ok ())
  {step : Nat} {own flow : StepFlow} {word : ControlWord} {t : SignalId}
include h hv

/-! ### What an accepted encoding leaves in a lane -/

/-- Two targets that an accepted flow gives literals have one lane or lanes that do not meet: the
step itself gives both of them literals. -/
theorem same_lane_or_apart_of_encode (hown : m.flow step = .ok own) (hflow : m.Accepts flow)
    (henc : d.encode step flow = .ok word) {u : SignalId} {x y : Bits}
    (ht : lookup (integrate m.neutral flow) t = .raw x)
    (hu : lookup (integrate m.neutral flow) u = .raw y) :
    d.laneOf u = d.laneOf t ∨ Apart (d.laneOf t).offset (m.widthOf t) ((d.laneOf u).offset, y) := by
  obtain ⟨hraw, hcontents, -⟩ := (encode_eq_ok_iff h (FlowMatrix.getElem?_stepContents hown)).mp henc
  have hlit := FlowMatrix.mem_literals_of_flow hown
  have hstep : ∀ {v b}, lookup (integrate m.neutral flow) v = .raw b →
      ∃ b', lookup (integrate m.neutral own) v = .raw b' := by
    intro v b hb
    have hlane := FlowMatrix.contentIn_eq_lane_iff.mpr ⟨b, hb⟩
    rw [hcontents v (FlowMatrix.mem_targets_of_carriesRaw (hraw v b hb))] at hlane
    exact FlowMatrix.contentIn_eq_lane_iff.mp hlane
  obtain ⟨x', hx'⟩ := hstep ht
  obtain ⟨y', hy'⟩ := hstep hu
  have hwidth : y'.width = y.width := by
    obtain ⟨hneutral, hsteps⟩ := FlowMatrix.validate_eq_ok_iff.mp hv
    rw [hneutral.width_raw_integrate hflow hu,
      hneutral.width_raw_integrate (hsteps own (FlowMatrix.mem_steps_of_flow hown)) hy']
  rcases same_lane_or_apart h hv hlit hx' hy' with ⟨hsame, -⟩ | hapart
  · exact .inl hsame.symm
  · right
    unfold Apart at hapart ⊢
    rwa [hwidth] at hapart

/-- A write of an accepted encoding misses the lane of a target, or gives a literal to a target with
this lane. -/
theorem apart_or_same_lane (hown : m.flow step = .ok own) (hflow : m.Accepts flow)
    (henc : d.encode step flow = .ok word) {b : Bits}
    (ht : lookup (integrate m.neutral flow) t = .raw b) {e : Nat × Bits}
    (he : e ∈ d.laneWrites (integrate m.neutral flow) ++
      d.selectorWrites (m.contentIn (integrate m.neutral own))) :
    Apart (d.laneOf t).offset (m.widthOf t) e ∨
      ∃ u, lookup (integrate m.neutral flow) u = .raw e.2 ∧ d.laneOf u = d.laneOf t ∧
        Addresses (d.laneOf t).offset (m.widthOf t) e := by
  obtain ⟨hraw, -, -⟩ := (encode_eq_ok_iff h (FlowMatrix.getElem?_stepContents hown)).mp henc
  rcases List.mem_append.mp he with he | he
  · obtain ⟨u, hu, hoffset⟩ := mem_laneWrites_iff.mp he
    have hwidth : e.2.width = m.widthOf u :=
      (FlowMatrix.validate_eq_ok_iff.mp hv).1.width_raw_integrate hflow hu
    rcases same_lane_or_apart_of_encode h hv hown hflow henc ht hu with hsame | hapart
    · refine .inr ⟨u, hu, hsame, by rw [← hoffset, hsame], ?_⟩
      rw [hwidth, ← width_laneOf h (hraw u _ hu), ← width_laneOf h (hraw t _ ht), hsame]
    · left
      unfold Apart at hapart ⊢
      rwa [hoffset] at hapart
  · exact .inl (lane_apart_selector h (hraw t b ht) he)

/-- A lane ends with the literal of a target exactly if the target is not overwritten: a literal that is not zero
is never lost, and a zero stays if all writes into its lane are zero. -/
theorem field_lane_iff (hown : m.flow step = .ok own) (hflow : m.Accepts flow)
    (henc : d.encode step flow = .ok word) {b : Bits}
    (ht : lookup (integrate m.neutral flow) t = .raw b) :
    word.field (d.laneOf t).offset (m.widthOf t) = b.value ↔
      ¬ d.Overwritten (integrate m.neutral flow) t := by
  obtain ⟨hraw, -, hwrites⟩ := (encode_eq_ok_iff h (FlowMatrix.getElem?_stepContents hown)).mp henc
  have hwidth : ∀ {u b'}, lookup (integrate m.neutral flow) u = .raw b' → b'.width = m.widthOf u :=
    fun hu => (FlowMatrix.validate_eq_ok_iff.mp hv).1.width_raw_integrate hflow hu
  have hmem : ((d.laneOf t).offset, b) ∈ d.laneWrites (integrate m.neutral flow) ++
      d.selectorWrites (m.contentIn (integrate m.neutral own)) :=
    List.mem_append_left _ (mem_laneWrites_iff.mpr ⟨t, ht, rfl⟩)
  have hrel : ∀ e ∈ d.laneWrites (integrate m.neutral flow) ++
      d.selectorWrites (m.contentIn (integrate m.neutral own)),
      Apart (d.laneOf t).offset b.width e ∨ Addresses (d.laneOf t).offset b.width e := by
    intro e he
    rw [hwidth ht]
    exact (apart_or_same_lane h hv hown hflow henc ht he).imp_right fun ⟨_, _, _, haddr⟩ => haddr
  rw [← hwidth ht, field_writeAll_eq_iff hwrites hmem hrel (field_zeros _ _ _)]
  constructor
  · rintro hok ⟨b₀, u, b', ht₀, hzero, hu, hne, hlane⟩
    obtain rfl : b = b₀ := Flow.raw.inj (ht.symm.trans ht₀)
    rw [lane_eq_some h (hraw u b' hu), lane_eq_some h (hraw t b ht), Option.some_inj] at hlane
    have hzero' := hok.resolve_left (fun hb => hb hzero) ((d.laneOf u).offset, b')
      (List.mem_append_left _ (mem_laneWrites_iff.mpr ⟨u, hu, rfl⟩))
    refine hne (hzero' ⟨by rw [hlane], ?_⟩)
    rw [hwidth hu, hwidth ht, ← width_laneOf h (hraw u _ hu), ← width_laneOf h (hraw t _ ht), hlane]
  · intro hno
    refine Decidable.or_iff_not_imp_left.mpr fun hz e he haddr => ?_
    rcases apart_or_same_lane h hv hown hflow henc ht he with hapart | ⟨u, hu, hsame, -⟩
    · rw [← hwidth ht] at hapart
      exact hapart.value_eq_zero haddr
    · refine Decidable.byContradiction fun hne => hno ?_
      refine ⟨b, u, e.2, ht, Decidable.not_not.mp hz, hu, hne, ?_⟩
      rw [lane_eq_some h (hraw u _ hu), lane_eq_some h (hraw t b ht), hsame]

/-! ### What an accepted encoding decodes to -/

theorem decode_of_encode (hown : m.flow step = .ok own) (henc : d.encode step flow = .ok word) :
    d.decode word =
      .ok (tabulate (fun t => d.drive word t (m.contentIn (integrate m.neutral flow) t)) m.targets) := by
  have hc := FlowMatrix.getElem?_stepContents hown
  have hmem := List.mem_cons_of_mem m.neutralContent (List.mem_of_getElem? hc)
  obtain ⟨-, hcontents, hwrites⟩ := (encode_eq_ok_iff h hc).mp henc
  rw [decode_eq_ok h hv (width_writeAll hwrites) hmem fun f hf => field_selector h hmem hwrites hf]
  exact congrArg Except.ok (NatMap.tabulate_congr fun t ht => by rw [hcontents t ht])

/-- A target is driven as the flow asks exactly if it is not overwritten. -/
theorem drive_eq_resolution_iff (hown : m.flow step = .ok own) (hflow : m.Accepts flow)
    (henc : d.encode step flow = .ok word) (t : SignalId) :
    d.drive word t (m.contentIn (integrate m.neutral flow) t) =
      m.resolution t (lookup (integrate m.neutral flow) t) ↔
      ¬ d.Overwritten (integrate m.neutral flow) t := by
  have hnot : (∀ b, lookup (integrate m.neutral flow) t ≠ .raw b) →
      ¬ d.Overwritten (integrate m.neutral flow) t := by
    rintro hraw ⟨b, -, -, hb, -⟩
    exact hraw b hb
  unfold FlowMatrix.contentIn
  cases hlookup : lookup (integrate m.neutral flow) t with
  | constant bits => exact iff_of_true rfl (hnot fun b hb => nomatch hlookup.symm.trans hb)
  | forward source => exact iff_of_true rfl (hnot fun b hb => nomatch hlookup.symm.trans hb)
  | absent =>
      refine iff_of_true ?_ (hnot fun b hb => nomatch hlookup.symm.trans hb)
      unfold Content.of
      rw [FlowMatrix.neutralContent_of_absent (FlowMatrix.lookup_neutral_of_absent hlookup)]
      rfl
  | raw b =>
      have hwidth : b.width = m.widthOf t :=
        (FlowMatrix.validate_eq_ok_iff.mp hv).1.width_raw_integrate hflow hlookup
      rw [← field_lane_iff h hv hown hflow henc hlookup]
      obtain rfl := h.matrix
      rw [← hwidth, ← fieldBits_eq_iff, hwidth]
      unfold drive Content.of FlowMatrix.resolution
      exact ⟨Assignment.value.inj, congrArg Assignment.value⟩

/-! ### The flows of the matrix itself -/

omit h in
theorem width_raw_of_flow (hown : m.flow step = .ok own) {b : Bits}
    (ht : lookup (integrate m.neutral own) t = .raw b) : b.width = m.widthOf t :=
  FlowMatrix.width_of_mem_literals hv (FlowMatrix.mem_literals_of_flow hown)
    (get?_rawLiterals_eq_some_iff.mpr ht)

theorem writes_within (hown : m.flow step = .ok own) : ∀ e ∈ d.laneWrites (integrate m.neutral own) ++
    d.selectorWrites (m.contentIn (integrate m.neutral own)), e.1 + e.2.width ≤ d.width := by
  have hmem := List.mem_cons_of_mem m.neutralContent
    (List.mem_of_getElem? (FlowMatrix.getElem?_stepContents hown))
  intro e he
  rcases List.mem_append.mp he with he | he
  · obtain ⟨t, ht, hoffset⟩ := mem_laneWrites_iff.mp he
    have := laneOf_le h (FlowMatrix.carriesRaw_of_flow hown ht)
    have := h.valueWord
    rw [width_raw_of_flow hv hown ht, ← hoffset]
    omega
  · obtain ⟨f, hf, rfl⟩ := List.mem_map.mp he
    rw [MicroField.width_selectorOf (h.numbers f hf) hmem]
    exact h.within f hf

/-- The writes for a step of the matrix are the same or miss each other. -/
theorem writes_pairwise (hown : m.flow step = .ok own) : (d.laneWrites (integrate m.neutral own) ++
    d.selectorWrites (m.contentIn (integrate m.neutral own))).Pairwise
      fun a b => Apart a.1 a.2.width b ∨ a = b := by
  have hmem := List.mem_cons_of_mem m.neutralContent
    (List.mem_of_getElem? (FlowMatrix.getElem?_stepContents hown))
  refine List.pairwise_append.mpr ⟨?_, ?_, ?_⟩
  · refine List.pairwise_of_forall_mem_list fun a ha b hb => ?_
    obtain ⟨t, ht, hoffset⟩ := mem_laneWrites_iff.mp ha
    obtain ⟨u, hu, hoffset'⟩ := mem_laneWrites_iff.mp hb
    rcases same_lane_or_apart h hv (FlowMatrix.mem_literals_of_flow hown) ht hu with ⟨hsame, heq⟩ | hapart
    · exact .inr (Prod.ext (by rw [← hoffset, ← hoffset', hsame]) heq)
    · rw [hoffset, hoffset', ← width_raw_of_flow hv hown ht] at hapart
      exact .inl hapart
  · unfold selectorWrites
    rw [List.pairwise_map]
    refine h.ordered.imp_of_mem fun {f g} hf _ hfg => .inl (.inl ?_)
    rw [MicroField.width_selectorOf (h.numbers f hf) hmem]
    exact hfg
  · intro a ha b hb
    obtain ⟨t, ht, hoffset⟩ := mem_laneWrites_iff.mp ha
    have hapart := lane_apart_selector h (FlowMatrix.carriesRaw_of_flow hown ht) hb
    rw [hoffset, ← width_raw_of_flow hv hown ht] at hapart
    exact .inl hapart

/-- A step is encoded with its own flow: literals that share a lane are the same. -/
theorem exists_encode (hown : m.flow step = .ok own) : ∃ word, d.encode step own = .ok word := by
  obtain ⟨word, hwrites, -⟩ := writeAll_ok (w := zeros d.width) h.width_lt (writes_within h hv hown)
    (writes_pairwise h hv hown) fun e _ => .inl (field_zeros _ _ _)
  refine ⟨word, (encode_eq_ok_iff h (FlowMatrix.getElem?_stepContents hown)).mpr ⟨?_, ?_, hwrites⟩⟩
  · exact fun t b ht => FlowMatrix.carriesRaw_of_flow hown ht
  · exact fun t _ => rfl

theorem not_overwritten (hown : m.flow step = .ok own) :
    ¬ d.Overwritten (integrate m.neutral own) t := by
  rintro ⟨b, u, b', ht, hzero, hu, hne, hlane⟩
  have hlit := FlowMatrix.mem_literals_of_flow hown
  have hrawt := FlowMatrix.carriesRaw_of_flow hown ht
  have hrawu := FlowMatrix.carriesRaw_of_flow hown hu
  rw [lane_eq_some h hrawu, lane_eq_some h hrawt, Option.some_inj] at hlane
  rcases same_lane_or_apart h hv hlit ht hu with ⟨-, rfl⟩ | hapart
  · exact hne hzero
  · refine hne (hapart.value_eq_zero ⟨by rw [hlane], ?_⟩)
    rw [width_raw_of_flow hv hown hu, ← width_laneOf h hrawu, ← width_laneOf h hrawt, hlane]

omit hv in
theorem width_of_encode (hown : m.flow step = .ok own) (henc : d.encode step flow = .ok word) :
    word.width = d.width := by
  obtain ⟨-, -, hwrites⟩ := (encode_eq_ok_iff h (FlowMatrix.getElem?_stepContents hown)).mp henc
  exact width_writeAll hwrites

theorem decode_eq_resolveStep (hown : m.flow step = .ok own) (henc : d.encode step own = .ok word) :
    d.decode word = m.resolveStep step := by
  have haccepts := (FlowMatrix.validate_eq_ok_iff.mp hv).2 own (FlowMatrix.mem_steps_of_flow hown)
  rw [decode_of_encode h hv hown henc, FlowMatrix.resolveStep_eq_ok hv hown]
  refine congrArg Except.ok (NatMap.tabulate_congr fun t _ => ?_)
  exact (drive_eq_resolution_iff h hv hown haccepts henc t).mpr (not_overwritten h hv hown)

/-- The word of a step passes its check. -/
theorem verifyStep_eq_ok (hown : m.flow step = .ok own) : d.verifyStep step = .ok () := by
  obtain ⟨word, henc⟩ := exists_encode h hv hown
  have hdecode := decode_eq_resolveStep h hv hown henc
  have hrequired := FlowMatrix.resolveStep_eq_ok hv hown
  unfold verifyStep
  rw [h.matrix, hown, ok_bind, henc, ok_bind, hdecode, hrequired, ok_bind, ok_bind]
  exact ensure_eq_ok_iff.mpr (decide_eq_true rfl)

end

/-- Every step of a valid matrix whose lanes and selectors fit a word is encoded, and the word
decodes to what the step requires. -/
theorem round_trip {m : FlowMatrix} (hv : m.validate = .ok ())
    (hfit : m.laneBits + m.selectorBits < Width.limit) (bound : Nat) {step : Nat}
    (hstep : step < m.steps.length) :
    ∃ d report, (compute m bound).result = .ok (d, report) ∧
      ∃ flow word required, m.flow step = .ok flow ∧ d.encode step flow = .ok word ∧
        m.resolveStep step = .ok required ∧ d.decode word = .ok required ∧
        d.verifyStep step = .ok () := by
  obtain ⟨d, report, hcompute, h⟩ := compute_ok hv hfit bound
  obtain ⟨flow, hflow⟩ := FlowMatrix.exists_flow hstep
  obtain ⟨word, henc⟩ := exists_encode h hv hflow
  have hrequired := FlowMatrix.resolveStep_eq_ok hv hflow
  exact ⟨d, report, hcompute, flow, word, _, hflow, henc, hrequired,
    (decode_eq_resolveStep h hv hflow henc).trans hrequired, verifyStep_eq_ok h hv hflow⟩

theorem round_trip_mixed : ∃ d report, (compute .mixed 6).result = .ok (d, report) ∧
    ∃ flow word required, FlowMatrix.mixed.flow 1 = .ok flow ∧ d.encode 1 flow = .ok word ∧
      FlowMatrix.mixed.resolveStep 1 = .ok required ∧ d.decode word = .ok required ∧
      d.verifyStep 1 = .ok () :=
  round_trip (by decide) (by decide) 6 (by decide)

/-- A word that was accepted for a step decodes, and gives a target what the encoded flow asks for
exactly if the target is not overwritten. -/
theorem decode_encode_iff {m : FlowMatrix} (hv : m.validate = .ok ())
    (hfit : m.laneBits + m.selectorBits < Width.limit) (bound : Nat) {step : Nat}
    (hstep : step < m.steps.length) {flow : StepFlow} (hflow : m.Accepts flow) :
    ∃ d report, (compute m bound).result = .ok (d, report) ∧
      ∀ word, d.encode step flow = .ok word →
        ∃ assigned, d.decode word = .ok assigned ∧ assigned.keys = m.targets ∧
          ∀ t ∈ m.targets,
            (∃ a, m.resolve t (lookup (integrate m.neutral flow) t) = .ok a ∧ assigned.get? t = some a) ↔
              ¬ d.Overwritten (integrate m.neutral flow) t := by
  obtain ⟨d, report, hcompute, h⟩ := compute_ok hv hfit bound
  obtain ⟨own, hown⟩ := FlowMatrix.exists_flow hstep
  refine ⟨d, report, hcompute, fun word henc => ⟨_, decode_of_encode h hv hown henc, ?_, fun t ht => ?_⟩⟩
  · unfold NatMap.keys
    rw [NatMap.entries_tabulate m.targets_ascending, List.map_map]
    exact List.map_id _
  · rw [← drive_eq_resolution_iff h hv hown hflow henc t,
      FlowMatrix.resolve_eq_ok (FlowMatrix.declared_of_mem_targets hv ht), NatMap.get?_tabulate, if_pos ht]
    simp [eq_comm]

/-- Two targets that hold the same literal in the only step. -/
def twins : FlowMatrix where
  signals := [.zeroed "a" 4, .zeroed "b" 4]
  neutral := .ofList [(0, .raw (.ofNat 3 4)), (1, .raw (.ofNat 3 4))]
  steps := [.empty]

/-- The first of the two targets is set to zero, the second one to two. -/
def zeroAndTwo : StepFlow := .ofList [(0, .raw (.ofNat 0 4)), (1, .raw (.ofNat 2 4))]

theorem twins_accepts : twins.Accepts zeroAndTwo :=
  FlowMatrix.checkBlock_eq_ok_iff.mp (by decide : twins.checkBlock .neutral zeroAndTwo = .ok ())

theorem decode_encode_twins : ∃ d report, (compute twins 6).result = .ok (d, report) ∧
    ∀ word, d.encode 0 zeroAndTwo = .ok word →
      ∃ assigned, d.decode word = .ok assigned ∧ assigned.keys = twins.targets ∧
        ∀ t ∈ twins.targets,
          (∃ a, twins.resolve t (lookup (integrate twins.neutral zeroAndTwo) t) = .ok a ∧
            assigned.get? t = some a) ↔ ¬ d.Overwritten (integrate twins.neutral zeroAndTwo) t :=
  decode_encode_iff (by decide) (by decide) 6 (by decide) twins_accepts

/-- The word that is accepted for the two targets gives two to both of them. -/
theorem twins_decode_two : twins.validate = .ok () ∧ twins.laneBits + twins.selectorBits < Width.limit ∧
    (∀ t ∈ zeroAndTwo.keys, t ∈ twins.targets) ∧ twins.Accepts zeroAndTwo ∧
    ∃ d report word assigned, (compute twins 6).result = .ok (d, report) ∧
      d.encode 0 zeroAndTwo = .ok word ∧ d.decode word = .ok assigned ∧
      twins.resolve 0 (lookup (integrate twins.neutral zeroAndTwo) 0) = .ok (.value (.zero 4)) ∧
      assigned.get? 0 = some (.value ⟨4, 2, by decide⟩) := by
  refine ⟨by decide, by decide, by decide, twins_accepts, ?_⟩
  exact ⟨_, _, _, _, rfl, rfl, rfl, rfl, rfl⟩

end Design

end ControlStore
