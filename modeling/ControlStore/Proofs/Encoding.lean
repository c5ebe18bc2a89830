import ControlStore.Proofs.Decoding

/-! # The writes of an encoding

Encoding a step writes the literals of its flow into their lanes and the symbol of the step into
every field.  It is accepted exactly if the flow gives every target the content that the step has on
record and the writes do not contradict each other (`Design.encode_eq_ok_iff`).  The literals
that one step gives two targets go to the same lane or to lanes that do not meet
(`Design.same_lane_or_apart`), and the selectors lie apart from everything else. -/

namespace ControlStore

open NatMap (tabulate)
open ControlWord StepFlow

/-! ### Symbols of a step -/

namespace MicroField

variable {neutral : SignalId → Content} {steps : List (SignalId → Content)} {f : MicroField}

/-- The selector value of a symbol that fits the selector. -/
def label (f : MicroField) (symbol : Nat) : Bits := (Bits.ofNat? symbol f.width).getD (.zero f.width)

/-- The selector of the contents `c`. -/
def selectorOf (f : MicroField) (c : SignalId → Content) : Bits := f.label (f.table.codeOf c)

theorem ofNat?_eq_label {symbol : Nat} (h : symbol < f.table.count) :
    Bits.ofNat? symbol f.width = some (f.label symbol) := by
  have hfits : bitLength symbol ≤ f.width := bitLength_le_iff.mpr (SymbolTable.lt_two_pow_width h)
  have hsome : Bits.ofNat? symbol f.width = some ⟨f.width, symbol, hfits⟩ :=
    Bits.ofNat?_eq_some_iff.mpr ⟨rfl, rfl⟩
  unfold label
  rw [hsome]
  rfl

theorem value_label {symbol : Nat} (h : symbol < f.table.count) : (f.label symbol).value = symbol :=
  (Bits.ofNat?_eq_some_iff.mp (ofNat?_eq_label h)).1

theorem width_label {symbol : Nat} (h : symbol < f.table.count) : (f.label symbol).width = f.width :=
  (Bits.ofNat?_eq_some_iff.mp (ofNat?_eq_label h)).2

theorem fieldBits_eq_label_iff {word : ControlWord} {symbol : Nat} (h : symbol < f.table.count) :
    word.fieldBits f.offset f.width = f.label symbol ↔ word.field f.offset f.width = symbol := by
  rw [← value_fieldBits]
  constructor
  · intro heq
    exact (congrArg Bits.value heq).trans (value_label h)
  · intro heq
    exact Bits.eq_of_width_value (width_label h).symm (heq.trans (value_label h).symm)

theorem label_inj {i j : Nat} (hi : i < f.table.count) (hj : j < f.table.count)
    (h : f.label i = f.label j) : i = j := by
  rw [← value_label hi, h, value_label hj]

theorem selector_eq_ok {symbol : Nat} (h : symbol < f.table.count) :
    f.selector symbol = .ok (f.label symbol) :=
  require_eq_ok_iff.mpr (ofNat?_eq_label h)

theorem ownContents_eq_ok {c : SignalId → Content} {ts : List SignalId}
    (hsub : ∀ t ∈ f.table.targets, t ∈ ts) :
    f.ownContents (tabulate c ts) = .ok (tabulate c f.table.targets) := by
  unfold ownContents
  rw [mapM_eq_ok_map (g := fun t => (t, c t))]
  · rfl
  · intro t ht
    rw [NatMap.get?_tabulate, if_pos (hsub t ht)]
    rfl

variable (h : f.table.Numbers neutral steps)
include h

theorem value_selectorOf {c : SignalId → Content} (hc : c ∈ neutral :: steps) :
    (f.selectorOf c).value = f.table.codeOf c :=
  value_label (h.codeOf_lt hc)

theorem width_selectorOf {c : SignalId → Content} (hc : c ∈ neutral :: steps) :
    (f.selectorOf c).width = f.width :=
  width_label (h.codeOf_lt hc)

/-- The symbol of a step is found exactly for the contents that the step has on record. -/
theorem symbolAt_eq_ok_iff {step symbol : Nat} {c c' : SignalId → Content} {ts : List SignalId}
    (hc : steps[step]? = some c) (hsub : ∀ t ∈ f.table.targets, t ∈ ts) :
    f.symbolAt step (tabulate c' ts) = .ok symbol ↔
      (∀ t ∈ f.table.targets, c' t = c t) ∧ symbol = f.table.codeOf c := by
  have hmem : c ∈ neutral :: steps := List.mem_cons_of_mem _ (List.mem_of_getElem? hc)
  unfold symbolAt
  rw [ownContents_eq_ok hsub, ok_bind, bind_eq_ok_iff]
  simp only [h.symbol_eq hc, ok_bind, require_eq_ok_iff, h.symbolOf?_eq_some_iff, bind_eq_ok_iff, pure_eq_ok,
    Except.ok.injEq]
  constructor
  · rintro ⟨s, hs, ⟨⟩, hrec, rfl⟩
    rw [ensure_eq_ok_iff, decide_eq_true_iff] at hrec
    subst hrec
    rw [h.values_codeOf hmem, Option.some_inj] at hs
    exact ⟨fun t ht => (NatMap.tabulate_eq_iff.mp hs t ht).symm, rfl⟩
  · rintro ⟨heq, rfl⟩
    refine ⟨f.table.codeOf c, ?_, (), ensure_eq_ok_iff.mpr (decide_eq_true rfl), rfl⟩
    rw [h.values_codeOf hmem, NatMap.tabulate_congr heq]

/-- Encoding a field writes its selector, after checking the contents. -/
theorem encode_eq_ok_iff {step : Nat} {c c' : SignalId → Content} {ts : List SignalId}
    {word word' : ControlWord} (hc : steps[step]? = some c) (hsub : ∀ t ∈ f.table.targets, t ∈ ts)
    (hoffset : f.offset ≤ word.width) (hword : word.width < Width.limit) :
    f.encode step (tabulate c' ts) word = .ok word' ↔
      (∀ t ∈ f.table.targets, c' t = c t) ∧ word.write f.offset (f.selectorOf c) = .ok word' := by
  have hmem : c ∈ neutral :: steps := List.mem_cons_of_mem _ (List.mem_of_getElem? hc)
  have hwrite : (if 0 < f.width then f.selector (f.table.codeOf c) >>= word.write f.offset
      else pure word) = word.write f.offset (f.selectorOf c) := by
    split
    · rw [selector_eq_ok (h.codeOf_lt hmem), ok_bind]
      rfl
    · next hzero =>
      have hwidth := width_selectorOf h hmem
      exact (write_eq_self (by omega) hoffset hword).symm
  unfold encode
  rw [bind_eq_ok_iff]
  constructor
  · rintro ⟨symbol, hsymbol, henc⟩
    obtain ⟨heq, rfl⟩ := (symbolAt_eq_ok_iff h hc hsub).mp hsymbol
    exact ⟨heq, hwrite.symm.trans henc⟩
  · rintro ⟨heq, henc⟩
    exact ⟨_, (symbolAt_eq_ok_iff h hc hsub).mpr ⟨heq, rfl⟩, hwrite.trans henc⟩

end MicroField

namespace Design

variable {m : FlowMatrix} {d : Design}

/-! ### The writes of a flow -/

/-- The literals of a merged flow at the offsets of their lanes. -/
def laneWrites (d : Design) (merged : StepFlow) : List (Nat × Bits) :=
  (rawLiterals merged).entries.map fun e => ((d.laneOf e.1).offset, e.2)

/-- The selectors of the contents `c` at the offsets of their fields. -/
def selectorWrites (d : Design) (c : SignalId → Content) : List (Nat × Bits) :=
  d.fields.map fun f => (f.offset, f.selectorOf c)

theorem writeLanes_eq_ok_iff (h : LaysOut m d) {step : Nat} {merged : StepFlow} {word word' : ControlWord} :
    d.writeLanes step merged word = .ok word' ↔
      (∀ t b, lookup merged t = .raw b → (d.packing.lanes.get? t).isSome) ∧
        word.writeAll (d.laneWrites merged) = .ok word' := by
  have hlist : ∀ (l : List (Nat × Bits)) (word : ControlWord),
      l.foldlM (fun word e => do
        let lane ← require (← d.packer.lane? e.1) (.noLaneInStep step e.1)
        word.write lane.offset e.2) word = .ok word' ↔
      (∀ e ∈ l, (d.packing.lanes.get? e.1).isSome) ∧
        word.writeAll (l.map fun e => ((d.laneOf e.1).offset, e.2)) = .ok word' := by
    intro l
    induction l with
    | nil => intro word; simp [writeAll]
    | cons e l ih =>
        intro word
        obtain ⟨target, bits⟩ := e
        rw [foldlM_cons_eq_ok_iff, List.map_cons, writeAll_cons_eq_ok_iff, List.forall_mem_cons,
          Packer.lane?_eq_ok h.packed, ok_bind]
        cases hget : d.packing.lanes.get? target with
        | none => simp [require]
        | some lane =>
            have hoffset : (d.laneOf target).offset = lane.offset := by
              unfold laneOf
              rw [hget]
              rfl
            simp only [hoffset, ih, Option.isSome_some, true_and]
            constructor
            · rintro ⟨w₁, h₁, hsome, h₂⟩
              exact ⟨hsome, w₁, h₁, h₂⟩
            · rintro ⟨hsome, w₁, h₁, h₂⟩
              exact ⟨w₁, h₁, hsome, h₂⟩
  refine (hlist (rawLiterals merged).entries word).trans ?_
  unfold laneWrites
  refine and_congr_left fun _ => ⟨fun hsome t b hb => ?_, fun hsome e he => ?_⟩
  · exact hsome (t, b) (NatMap.mem_entries_iff.mpr (get?_rawLiterals_eq_some_iff.mpr hb))
  · exact hsome e.1 e.2 (get?_rawLiterals_eq_some_iff.mp (NatMap.get?_eq_some_of_mem he))

theorem contentsOf_eq (h : LaysOut m d) (merged : StepFlow) :
    d.contentsOf merged = tabulate (m.contentIn merged) m.targets := by
  unfold contentsOf
  rw [h.neutral, NatMap.tabulate_map]
  rfl

/-- The fields are encoded if the contents are those on record and the selectors can be written. -/
theorem foldlM_encode_eq_ok_iff {step : Nat} {c c' : SignalId → Content} {ts : List SignalId}
    {fields : List MicroField} {word word' : ControlWord} (hc : m.stepContents[step]? = some c)
    (hnum : ∀ f ∈ fields, f.table.Numbers m.neutralContent m.stepContents)
    (hsub : ∀ f ∈ fields, ∀ t ∈ f.table.targets, t ∈ ts)
    (hoffset : ∀ f ∈ fields, f.offset ≤ word.width) (hword : word.width < Width.limit) :
    fields.foldlM (fun word field => field.encode step (tabulate c' ts) word) word = .ok word' ↔
      (∀ f ∈ fields, ∀ t ∈ f.table.targets, c' t = c t) ∧
        word.writeAll (fields.map fun f => (f.offset, f.selectorOf c)) = .ok word' := by
  induction fields generalizing word with
  | nil => simp [writeAll]
  | cons f fields ih =>
      obtain ⟨hnumf, hnum⟩ := List.forall_mem_cons.mp hnum
      obtain ⟨hsubf, hsub⟩ := List.forall_mem_cons.mp hsub
      obtain ⟨hoffsetf, hoffset⟩ := List.forall_mem_cons.mp hoffset
      rw [foldlM_cons_eq_ok_iff, List.map_cons, writeAll_cons_eq_ok_iff, List.forall_mem_cons]
      constructor
      · rintro ⟨w₁, h₁, h₂⟩
        obtain ⟨heq, hwrite⟩ := (MicroField.encode_eq_ok_iff hnumf hc hsubf hoffsetf hword).mp h₁
        have hwidth := width_write hwrite
        obtain ⟨hrest, hwrites⟩ := (ih hnum hsub (hwidth ▸ hoffset) (hwidth ▸ hword)).mp h₂
        exact ⟨⟨heq, hrest⟩, w₁, hwrite, hwrites⟩
      · rintro ⟨⟨heq, hrest⟩, w₁, hwrite, hwrites⟩
        have hwidth := width_write hwrite
        exact ⟨w₁, (MicroField.encode_eq_ok_iff hnumf hc hsubf hoffsetf hword).mpr ⟨heq, hwrite⟩,
          (ih hnum hsub (hwidth ▸ hoffset) (hwidth ▸ hword)).mpr ⟨hrest, hwrites⟩⟩

/-- A flow is accepted for a step exactly if it gives every target the content that the step has on
record, every literal has a lane, and the writes do not contradict each other. -/
theorem encode_eq_ok_iff (h : LaysOut m d) {step : Nat} {c : SignalId → Content}
    (hc : m.stepContents[step]? = some c) {flow : StepFlow} {word : ControlWord} :
    d.encode step flow = .ok word ↔
      (∀ t b, lookup (integrate m.neutral flow) t = .raw b → m.carriesRaw t = true) ∧
      (∀ t ∈ m.targets, m.contentIn (integrate m.neutral flow) t = c t) ∧
      (zeros d.width).writeAll (d.laneWrites (integrate m.neutral flow) ++ d.selectorWrites c) =
        .ok word := by
  have hsub : ∀ f ∈ d.fields, ∀ t ∈ f.table.targets, t ∈ m.targets :=
    fun f hf t ht => (mem_targets_iff h).mpr ⟨f, hf, ht⟩
  have hfields : ∀ {w : ControlWord}, w.width = d.width →
      (d.fields.foldlM (fun word field => field.encode step
        (tabulate (m.contentIn (integrate m.neutral flow)) m.targets) word) w = .ok word ↔
      (∀ t ∈ m.targets, m.contentIn (integrate m.neutral flow) t = c t) ∧
        w.writeAll (d.selectorWrites c) = .ok word) := by
    intro w hw
    have hoffset : ∀ f ∈ d.fields, f.offset ≤ w.width := by
      intro f hf
      have := h.within f hf
      omega
    rw [foldlM_encode_eq_ok_iff hc h.numbers hsub hoffset (hw ▸ h.width_lt), forall_targets_iff h]
    rfl
  unfold encode merge
  rw [bind_eq_ok_iff]
  simp only [writeLanes_eq_ok_iff h, h.lane_isSome, contentsOf_eq h, h.matrix]
  unfold writeAll
  rw [List.foldlM_append, bind_eq_ok_iff]
  constructor
  · rintro ⟨w₁, ⟨hlanes, hwrite⟩, hrest⟩
    obtain ⟨hcontents, hselectors⟩ := (hfields (width_writeAll hwrite)).mp hrest
    exact ⟨hlanes, hcontents, w₁, hwrite, hselectors⟩
  · rintro ⟨hlanes, hcontents, w₁, hwrite, hselectors⟩
    exact ⟨w₁, ⟨hlanes, hwrite⟩, (hfields (width_writeAll hwrite)).mpr ⟨hcontents, hselectors⟩⟩

/-! ### How the writes lie -/

theorem mem_laneWrites_iff {merged : StepFlow} {e : Nat × Bits} :
    e ∈ d.laneWrites merged ↔ ∃ t, lookup merged t = .raw e.2 ∧ (d.laneOf t).offset = e.1 := by
  unfold laneWrites
  rw [List.mem_map]
  constructor
  · rintro ⟨⟨t, b⟩, hmem, rfl⟩
    exact ⟨t, get?_rawLiterals_eq_some_iff.mp (NatMap.get?_eq_some_of_mem hmem), rfl⟩
  · rintro ⟨t, hraw, hoffset⟩
    exact ⟨(t, e.2), NatMap.mem_entries_iff.mpr (get?_rawLiterals_eq_some_iff.mpr hraw),
      Prod.ext hoffset rfl⟩

/-- Two targets that the same step gives literals have one lane, and then the same literal, or lanes
that do not meet. -/
theorem same_lane_or_apart (h : LaysOut m d) (hv : m.validate = .ok ()) {merged : StepFlow}
    (hmem : rawLiterals merged ∈ literals m) {t u : SignalId} {x y : Bits}
    (ht : lookup merged t = .raw x) (hu : lookup merged u = .raw y) :
    (d.laneOf t = d.laneOf u ∧ x = y) ∨
      Apart (d.laneOf t).offset (m.widthOf t) ((d.laneOf u).offset, y) := by
  have hx := get?_rawLiterals_eq_some_iff.mpr ht
  have hy := get?_rawLiterals_eq_some_iff.mpr hu
  have hraw : ∀ {v b}, (rawLiterals merged).get? v = some b → m.carriesRaw v = true := by
    intro v b hb
    rw [← FlowMatrix.any_literals, List.any_eq_true]
    exact ⟨_, hmem, Option.isSome_iff_exists.mpr ⟨b, hb⟩⟩
  by_cases htu : t = u
  · subst htu
    exact .inl ⟨rfl, Option.some.inj (hx.symm.trans hy)⟩
  · have hwx := FlowMatrix.width_of_mem_literals hv hmem hx
    have hwy := FlowMatrix.width_of_mem_literals hv hmem hy
    have hwt := width_laneOf h (hraw hx)
    have hwu := width_laneOf h (hraw hy)
    rcases h.packs.together_or_apart (conflict_comm _) (lane_eq_some h (hraw hx))
      (lane_eq_some h (hraw hy)) htu with ⟨hoffset, hcompat⟩ | hapart
    · obtain rfl := eq_of_conflict_eq_false hcompat hmem hx hy
      refine .inl ⟨?_, rfl⟩
      show (⟨(d.laneOf t).offset, (d.laneOf t).width⟩ : Lane) = ⟨(d.laneOf u).offset, (d.laneOf u).width⟩
      rw [hoffset, hwt, hwu, ← hwx, ← hwy]
    · right
      unfold Apart
      rw [hwt, hwu, ← hwy] at hapart
      exact hapart

theorem lane_apart_selector (h : LaysOut m d) {t : SignalId} (hraw : m.carriesRaw t = true)
    {c : SignalId → Content} {e : Nat × Bits} (he : e ∈ d.selectorWrites c) :
    Apart (d.laneOf t).offset (m.widthOf t) e := by
  obtain ⟨f, hf, rfl⟩ := List.mem_map.mp he
  have := laneOf_le h hraw
  have := h.behind f hf
  exact .inl (by show _ ≤ f.offset; omega)

/-- After an encoding every field holds the symbol of its contents. -/
theorem field_selector (h : LaysOut m d) {c : SignalId → Content}
    (hc : c ∈ m.neutralContent :: m.stepContents) {writes : List (Nat × Bits)} {w word : ControlWord}
    (hwrite : w.writeAll (writes ++ d.selectorWrites c) = .ok word) {f : MicroField} (hf : f ∈ d.fields) :
    word.field f.offset f.width = f.table.codeOf c := by
  have hord := h.ordered
  obtain ⟨before, after, hfields⟩ := List.append_of_mem hf
  unfold selectorWrites at hwrite
  rw [hfields, List.map_append, List.map_cons, ← List.append_assoc] at hwrite
  have hap : ∀ e ∈ after.map (fun g => (g.offset, g.selectorOf c)),
      Apart f.offset (f.selectorOf c).width e := by
    intro e he
    obtain ⟨g, hg, rfl⟩ := List.mem_map.mp he
    rw [hfields, List.pairwise_append, List.pairwise_cons] at hord
    rw [MicroField.width_selectorOf (h.numbers f hf) hc]
    exact .inl (hord.2.1.1 g hg)
  have := field_writeAll_last hwrite hap
  rwa [MicroField.width_selectorOf (h.numbers f hf) hc,
    MicroField.value_selectorOf (h.numbers f hf) hc] at this

end Design

end ControlStore
