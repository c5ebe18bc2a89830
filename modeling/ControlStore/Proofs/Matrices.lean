import ControlStore.Matrix
import ControlStore.Proofs.Checked
import ControlStore.Proofs.Tables

/-! # What a valid matrix asks for

Looking up a target in a flow laid over another one gives the upper flow unless it is absent
(`StepFlow.lookup_integrate`).  For a matrix that passes its checks this says what every target
carries in a step (`FlowMatrix.contentIn`) and what it must receive (`FlowMatrix.resolution`), and
`FlowMatrix.resolveStep` is the map of the latter.  `FlowMatrix.laneBits` and
`FlowMatrix.selectorBits` count the bits that all targets would need side by side. -/

namespace ControlStore

open NatMap (tabulate)

namespace StepFlow

theorem lookup_override (f : StepFlow) (target t : SignalId) (flow : Flow) :
    lookup (override f target flow) t =
      if t = target ∧ flow ≠ .absent then flow else lookup f t := by
  unfold override
  by_cases h : flow = .absent
  · simp [h]
  · rw [if_neg h]
    unfold lookup
    rw [NatMap.get?_insert]
    by_cases ht : t = target
    · simp [ht, h]
    · simp [ht]

/-- A flow laid over another one counts unless it is absent. -/
theorem lookup_integrate (f g : StepFlow) (t : SignalId) :
    lookup (integrate f g) t = if lookup g t = .absent then lookup f t else lookup g t := by
  obtain ⟨l, hl⟩ := g
  show lookup (l.foldl _ f) t =
    if (l.lookup t).getD .absent = .absent then lookup f t else (l.lookup t).getD .absent
  induction l generalizing f with
  | nil => rfl
  | cons e l ih =>
      obtain ⟨key, flow⟩ := e
      obtain ⟨hkey, hl⟩ := List.pairwise_cons.mp hl
      rw [List.foldl_cons, ih _ hl, lookup_override, List.lookup_cons]
      by_cases ht : t = key
      · subst ht
        rw [NatMap.lookup_eq_none_of_lt hkey]
        by_cases hflow : flow = .absent <;> simp [hflow]
      · simp [ht, beq_eq_false_iff_ne.mpr ht]

theorem lookup_eq_absent_of_not_mem {f : StepFlow} {t : SignalId} (h : t ∉ f.keys) :
    lookup f t = .absent := by
  unfold lookup
  rw [NatMap.get?_eq_none_iff.mpr h]
  rfl

theorem get?_of_lookup {f : StepFlow} {t : SignalId} (h : lookup f t ≠ .absent) :
    f.get? t = some (lookup f t) := by
  unfold lookup at h ⊢
  cases hget : f.get? t with
  | none => simp [hget] at h
  | some flow => rfl

theorem get?_rawLiterals_eq_some_iff {f : StepFlow} {t : SignalId} {b : Bits} :
    (rawLiterals f).get? t = some b ↔ lookup f t = .raw b := by
  unfold rawLiterals lookup
  rw [NatMap.get?_filterMap]
  cases f.get? t with
  | none => simp
  | some flow => cases flow <;> simp

end StepFlow

namespace FlowMatrix

open StepFlow

/-! ### Accepted flows -/

/-- Every flow of a block passes its check. -/
def Accepts (m : FlowMatrix) (f : StepFlow) : Prop :=
  ∀ t flow, f.get? t = some flow → m.checkFlow t flow = .ok ()

/-- The declared width of a signal. -/
def widthOf (m : FlowMatrix) (t : SignalId) : Nat := (m.signals[t]?.map Signal.width).getD 0

/-- The initial value of a signal. -/
def initialOf (m : FlowMatrix) (t : SignalId) : Bits := (m.signals[t]?.map Signal.init).getD (.zero 0)

variable {m : FlowMatrix} {f g : StepFlow} {t : SignalId}

theorem checkBlock_eq_ok_iff {block : BlockId} : m.checkBlock block f = .ok () ↔ m.Accepts f := by
  unfold checkBlock Accepts
  rw [forM_eq_ok_iff]
  have hmap : ∀ e : Nat × Flow, ((m.checkFlow e.1 e.2).mapError fun error =>
      (⟨block, error⟩ : InvalidFlow)) = .ok () ↔ m.checkFlow e.1 e.2 = .ok () := by
    intro e
    cases m.checkFlow e.1 e.2 <;> simp [Except.mapError]
  constructor
  · intro h t flow hget
    exact (hmap (t, flow)).mp (h (t, flow) (NatMap.mem_entries_iff.mpr hget))
  · intro h e he
    exact (hmap e).mpr (h e.1 e.2 (NatMap.get?_eq_some_of_mem he))

theorem validate_eq_ok_iff : m.validate = .ok () ↔ m.Accepts m.neutral ∧ ∀ f ∈ m.steps, m.Accepts f := by
  unfold validate
  rw [bind_eq_ok_iff]
  constructor
  · rintro ⟨⟨⟩, hneutral, hsteps⟩
    refine ⟨checkBlock_eq_ok_iff.mp hneutral, fun f hf => ?_⟩
    obtain ⟨i, hi⟩ := List.mem_iff_getElem?.mp hf
    exact checkBlock_eq_ok_iff.mp
      (forM_eq_ok_iff.mp hsteps (f, i) (List.mem_zipIdx_iff_getElem?.mpr hi))
  · rintro ⟨hneutral, hsteps⟩
    refine ⟨(), checkBlock_eq_ok_iff.mpr hneutral, forM_eq_ok_iff.mpr ?_⟩
    rintro ⟨f, i⟩ hf
    exact checkBlock_eq_ok_iff.mpr (hsteps f (List.mem_of_getElem? (List.mem_zipIdx_iff_getElem?.mp hf)))

theorem Accepts.declared (h : m.Accepts f) (ht : t ∈ f.keys) : t < m.signals.length := by
  obtain ⟨flow, hget⟩ := Option.isSome_iff_exists.mp ((NatMap.mem_keys_iff f t).mp ht)
  have hcheck := h t flow hget
  unfold checkFlow at hcheck
  split at hcheck
  · cases hcheck
  · next signal hsignal => exact (List.getElem?_eq_some_iff.mp hsignal).1

theorem Accepts.width_raw (h : m.Accepts f) {b : Bits} (hb : lookup f t = .raw b) :
    b.width = m.widthOf t := by
  have hget : f.get? t = some (.raw b) := hb ▸ get?_of_lookup (by rw [hb]; exact Flow.noConfusion)
  have hcheck := h t _ hget
  unfold checkFlow at hcheck
  unfold widthOf
  split at hcheck
  · cases hcheck
  · next signal hsignal =>
    rw [hsignal]
    split at hcheck <;> simp_all

/-! ### Targets -/

theorem mem_targets_iff : t ∈ m.targets ↔ t ∈ m.neutral.keys ∨ ∃ f ∈ m.steps, t ∈ f.keys := by
  unfold targets
  rw [NatSet.mem_keys_ofList, List.mem_flatMap]
  constructor
  · rintro ⟨f, hf, ht⟩
    rcases List.mem_append.mp hf with hf | hf
    · exact .inr ⟨f, hf, ht⟩
    · exact .inl (List.mem_singleton.mp hf ▸ ht)
  · rintro (ht | ⟨f, hf, ht⟩)
    · exact ⟨m.neutral, List.mem_append_right _ (List.mem_singleton.mpr rfl), ht⟩
    · exact ⟨f, List.mem_append_left _ hf, ht⟩

theorem targets_ascending (m : FlowMatrix) : m.targets.Pairwise (· < ·) := NatMap.keys_ascending _

theorem targets_nodup (m : FlowMatrix) : m.targets.Nodup := NatMap.keys_nodup _

theorem lookup_neutral_of_not_mem (h : t ∉ m.targets) : lookup m.neutral t = .absent :=
  lookup_eq_absent_of_not_mem fun ht => h (mem_targets_iff.mpr (.inl ht))

theorem lookup_step_of_not_mem (h : t ∉ m.targets) (hf : f ∈ m.steps) : lookup f t = .absent :=
  lookup_eq_absent_of_not_mem fun ht => h (mem_targets_iff.mpr (.inr ⟨f, hf, ht⟩))

theorem declared_of_mem_targets (hv : m.validate = .ok ()) (ht : t ∈ m.targets) :
    t < m.signals.length := by
  obtain ⟨hneutral, hsteps⟩ := validate_eq_ok_iff.mp hv
  rcases mem_targets_iff.mp ht with ht | ⟨f, hf, ht⟩
  · exact hneutral.declared ht
  · exact (hsteps f hf).declared ht

/-! ### Contents and resolutions -/

/-- The content of a target in the neutral flow. -/
def neutralContent (m : FlowMatrix) (t : SignalId) : Content :=
  Content.of (lookup m.neutral t) (.literal (m.initialOf t))

/-- The content of a target under a merged flow. -/
def contentIn (m : FlowMatrix) (merged : StepFlow) (t : SignalId) : Content :=
  Content.of (lookup merged t) (m.neutralContent t)

/-- The contents in every step. -/
def stepContents (m : FlowMatrix) : List (SignalId → Content) := m.mergedFlows.map m.contentIn

/-- What a target receives through a flow. -/
def resolution (m : FlowMatrix) (t : SignalId) : Flow → Assignment
  | .constant bits => .value bits
  | .raw bits => .value bits
  | .forward source => .signal source
  | .absent => .value (m.initialOf t)

theorem signal_eq_ok (h : t < m.signals.length) :
    ∃ signal, m.signal t = .ok signal ∧ signal.width = m.widthOf t ∧ signal.init = m.initialOf t := by
  refine ⟨m.signals[t], fetch_eq_ok_iff.mpr (List.getElem?_eq_getElem h), ?_, ?_⟩
  · unfold widthOf
    rw [List.getElem?_eq_getElem h]
    rfl
  · unfold initialOf
    rw [List.getElem?_eq_getElem h]
    rfl

theorem resolve_eq_ok (h : t < m.signals.length) (flow : Flow) :
    m.resolve t flow = .ok (m.resolution t flow) := by
  obtain ⟨signal, hsignal, -, hinit⟩ := signal_eq_ok h
  cases flow with
  | constant bits => rfl
  | forward source => rfl
  | raw bits => rfl
  | absent =>
      unfold resolve resolution
      rw [hsignal, ← hinit]
      rfl

theorem resolveStep_eq_ok (hv : m.validate = .ok ()) {step : Nat} {flow : StepFlow}
    (h : m.flow step = .ok flow) : m.resolveStep step =
      .ok (tabulate (fun t => m.resolution t (lookup (integrate m.neutral flow) t)) m.targets) := by
  unfold resolveStep mergedFlow
  rw [h]
  simp only [ok_bind, pure_eq_ok]
  rw [mapM_eq_ok_map (g := fun t => (t, m.resolution t (lookup (integrate m.neutral flow) t)))
    fun t ht => by rw [resolve_eq_ok (declared_of_mem_targets hv ht)]; rfl]
  rfl

theorem getElem?_stepContents {step : Nat} {flow : StepFlow} (h : m.flow step = .ok flow) :
    m.stepContents[step]? = some (m.contentIn (integrate m.neutral flow)) := by
  unfold stepContents mergedFlows
  rw [List.getElem?_map, List.getElem?_map, fetch_eq_ok_iff.mp h]
  rfl

theorem exists_flow {step : Nat} (h : step < m.steps.length) : ∃ flow, m.flow step = .ok flow :=
  ⟨m.steps[step], fetch_eq_ok_iff.mpr (List.getElem?_eq_getElem h)⟩

theorem mem_steps_of_flow {step : Nat} {flow : StepFlow} (h : m.flow step = .ok flow) :
    flow ∈ m.steps :=
  List.mem_of_getElem? (fetch_eq_ok_iff.mp h)

/-! ### Literals stored verbatim -/

/-- The flow of some block stores a literal for the target verbatim. -/
def carriesRaw (m : FlowMatrix) (t : SignalId) : Bool :=
  (m.neutral :: m.steps).any fun f => ((rawLiterals f).get? t).isSome

/-- The bits of a value word in which every target has bits of its own. -/
def laneBits (m : FlowMatrix) : Nat := ((m.targets.filter m.carriesRaw).map m.widthOf).sum

/-- The selector bits if every target has a selector of its own. -/
def selectorBits (m : FlowMatrix) : Nat :=
  (m.targets.map fun t =>
    (SymbolTable.forTarget t (m.neutralContent t) (m.mergedFlows.map fun f => lookup f t)).width).sum

theorem carriesRaw_iff :
    m.carriesRaw t = true ↔ ∃ f ∈ m.neutral :: m.steps, ∃ b, lookup f t = .raw b := by
  unfold carriesRaw
  simp only [List.any_eq_true, Option.isSome_iff_exists, get?_rawLiterals_eq_some_iff]

/-- The contents of a lane are those of a target that carries a literal stored verbatim. -/
theorem carriesRaw_of_content {c : SignalId → Content} (hc : c ∈ m.neutralContent :: m.stepContents)
    (h : c t = .lane) : m.carriesRaw t = true := by
  have hof : ∀ {flow : Flow} {default : Content}, Content.of flow default = .lane →
      (∃ b, flow = .raw b) ∨ default = .lane := by
    intro flow default hflow
    cases flow <;> simp_all [Content.of]
  have hneutral : m.neutralContent t = .lane → m.carriesRaw t = true := by
    intro hlane
    rcases hof hlane with hraw | hdefault
    · exact carriesRaw_iff.mpr ⟨m.neutral, List.mem_cons_self, hraw⟩
    · cases hdefault
  rcases List.mem_cons.mp hc with rfl | hc
  · exact hneutral h
  · unfold stepContents mergedFlows at hc
    rw [List.map_map, List.mem_map] at hc
    obtain ⟨f, hf, rfl⟩ := hc
    rcases hof h with ⟨b, hraw⟩ | hdefault
    · rw [lookup_integrate] at hraw
      split at hraw
      · exact carriesRaw_iff.mpr ⟨m.neutral, List.mem_cons_self, b, hraw⟩
      · exact carriesRaw_iff.mpr ⟨f, List.mem_cons_of_mem _ hf, b, hraw⟩
    · exact hneutral hdefault

/-- The entries of contents by target, and those among them that use a lane. -/
theorem content_of_mem_entries {c : SignalId → Content} (hc : c ∈ m.neutralContent :: m.stepContents)
    {ts : List SignalId} {e : SignalId × Content} (he : e ∈ (tabulate c ts).entries) :
    e.1 ∈ ts ∧ e.2 = c e.1 ∧ (e.2 = .lane → m.carriesRaw e.1 = true) := by
  have hget := NatMap.get?_eq_some_of_mem he
  rw [NatMap.get?_tabulate] at hget
  split at hget
  · next ht =>
    obtain heq : c e.1 = e.2 := Option.some.inj hget
    exact ⟨ht, heq.symm, fun hlane => carriesRaw_of_content hc (heq.trans hlane)⟩
  · cases hget

theorem Accepts.width_raw_integrate (hf : m.Accepts f) (hg : m.Accepts g) {b : Bits}
    (hb : lookup (integrate f g) t = .raw b) : b.width = m.widthOf t := by
  rw [lookup_integrate] at hb
  split at hb
  · exact hf.width_raw hb
  · exact hg.width_raw hb

theorem lookup_neutral_of_absent (h : lookup (integrate m.neutral f) t = .absent) :
    lookup m.neutral t = .absent := by
  rw [lookup_integrate] at h
  split at h
  · exact h
  · next hne => exact absurd h hne

theorem neutralContent_of_absent (h : lookup m.neutral t = .absent) :
    m.neutralContent t = .literal (m.initialOf t) := by
  unfold neutralContent
  rw [h]
  rfl

/-- A flow laid over the neutral one uses the lane of exactly the targets it gives a literal stored
verbatim. -/
theorem contentIn_eq_lane_iff :
    m.contentIn (integrate m.neutral f) t = .lane ↔ ∃ b, lookup (integrate m.neutral f) t = .raw b := by
  unfold contentIn
  cases hflow : lookup (integrate m.neutral f) t with
  | constant bits => simp [Content.of]
  | forward source => simp [Content.of]
  | raw bits => simp [Content.of]
  | absent => simp [Content.of, neutralContent_of_absent (lookup_neutral_of_absent hflow)]

theorem carriesRaw_of_flow {step : Nat} (hf : m.flow step = .ok f) {b : Bits}
    (ht : lookup (integrate m.neutral f) t = .raw b) : m.carriesRaw t = true := by
  have hlane := contentIn_eq_lane_iff.mpr ⟨b, ht⟩
  have hc := List.mem_of_getElem? (getElem?_stepContents hf)
  exact carriesRaw_of_content (List.mem_cons_of_mem _ hc) hlane

theorem mem_targets_of_carriesRaw (h : m.carriesRaw t = true) : t ∈ m.targets := by
  obtain ⟨f, hf, b, hraw⟩ := carriesRaw_iff.mp h
  refine Decidable.byContradiction fun ht => ?_
  rcases List.mem_cons.mp hf with rfl | hf
  · rw [lookup_neutral_of_not_mem ht] at hraw
    cases hraw
  · rw [lookup_step_of_not_mem ht hf] at hraw
    cases hraw

/-- Two targets share a lane, and a third one takes a constant or follows the first. -/
def mixed : FlowMatrix where
  signals := [.zeroed "a" 4, .zeroed "b" 4, .zeroed "c" 4]
  neutral := .ofList [(0, .raw (.ofNat 3 4)), (1, .raw (.ofNat 3 4))]
  steps := [.empty, .ofList [(0, .raw (.ofNat 0 4)), (1, .forward 0), (2, .constant (.ofNat 9 4))],
    .ofList [(2, .forward 0)]]

end FlowMatrix

end ControlStore
