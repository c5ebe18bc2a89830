import ControlStore.Proofs.Layout
import ControlStore.Proofs.WordFields

/-! # What a control word means

In a design for a matrix `m`, a field whose selector is a symbol decodes to what the contents of
that symbol drive (`Design.drive`), and to a fault if the selector is no symbol.  If the selectors of
all fields stand for the same contents, the whole word decodes to what these drive
(`Design.decode_eq_ok`). -/

namespace ControlStore

open NatMap (tabulate)
open ControlWord

namespace Design

variable {m : FlowMatrix} {d : Design} {word : ControlWord} {t : SignalId}

/-- The lane of a target that has one. -/
def laneOf (d : Design) (t : SignalId) : Lane := (d.packing.lanes.get? t).getD ⟨0, 0⟩

/-- What a target receives by its content and a control word. -/
def drive (d : Design) (word : ControlWord) (t : SignalId) : Content → Assignment
  | .literal bits => .value bits
  | .forward source => .signal source
  | .lane =>
      .value (word.fieldBits (d.laneOf t).offset (d.matrix.widthOf t))

/-! ### Lanes -/

theorem lane_eq_some (h : LaysOut m d) (hraw : m.carriesRaw t = true) :
    d.packing.lanes.get? t = some (d.laneOf t) := by
  obtain ⟨l, hl⟩ := Option.isSome_iff_exists.mp ((h.lane_isSome t).mpr hraw)
  unfold laneOf
  rw [hl]
  rfl

theorem lane_eq_ok (h : LaysOut m d) (hraw : m.carriesRaw t = true) : d.packer.lane t = .ok (d.laneOf t) := by
  rw [Packer.lane_eq h.packed, require_eq_ok_iff]
  exact lane_eq_some h hraw

theorem width_laneOf (h : LaysOut m d) (hraw : m.carriesRaw t = true) :
    (d.laneOf t).width = m.widthOf t :=
  h.packs.width_eq (lane_eq_some h hraw)

theorem laneOf_le (h : LaysOut m d) (hraw : m.carriesRaw t = true) :
    (d.laneOf t).offset + m.widthOf t ≤ d.packing.width :=
  width_laneOf h hraw ▸ h.packs.stop_le (lane_eq_some h hraw)

/-! ### Fields -/

variable (h : LaysOut m d)
include h

theorem mem_targets_iff : t ∈ m.targets ↔ ∃ f ∈ d.fields, t ∈ f.table.targets := by
  rw [← h.targets_perm.mem_iff, List.mem_flatMap]

theorem forall_targets_iff {p : SignalId → Prop} :
    (∀ f ∈ d.fields, ∀ t ∈ f.table.targets, p t) ↔ ∀ t ∈ m.targets, p t := by
  constructor
  · intro hall t ht
    obtain ⟨f, hf, htf⟩ := (mem_targets_iff h).mp ht
    exact hall f hf t htf
  · intro hall f hf t ht
    exact hall t ((mem_targets_iff h).mpr ⟨f, hf, ht⟩)

variable (hv : m.validate = .ok ()) (hw : word.width = d.width)

theorem read_selector {f : MicroField} (hw : word.width = d.width) (hf : f ∈ d.fields) :
    word.read f.offset f.width = .ok (word.field f.offset f.width) :=
  read_eq_field (hw ▸ h.width_lt) (hw ▸ h.within f hf)

include hv hw

theorem decodeContent_eq_ok {content : Content} (ht : t ∈ m.targets)
    (hlane : content = .lane → m.carriesRaw t = true) :
    MicroField.decodeContent word d.packer d.matrix t content = .ok (d.drive word t content) := by
  cases content with
  | literal bits => rfl
  | forward source => rfl
  | lane =>
      obtain rfl := h.matrix
      have hraw := hlane rfl
      obtain ⟨signal, hsignal, hwidth, -⟩ :=
        FlowMatrix.signal_eq_ok (FlowMatrix.declared_of_mem_targets hv ht)
      have hread : word.read (d.laneOf t).offset (d.laneOf t).width =
          .ok (word.field (d.laneOf t).offset (d.matrix.widthOf t)) := by
        rw [width_laneOf h hraw]
        have := laneOf_le h hraw
        have := h.valueWord
        exact read_eq_field (hw ▸ h.width_lt) (by omega)
      have hfit : Bits.ofNat? (word.field (d.laneOf t).offset (d.matrix.widthOf t)) (d.matrix.widthOf t) =
          some (word.fieldBits (d.laneOf t).offset (d.matrix.widthOf t)) :=
        Bits.ofNat?_eq_some_iff.mpr ⟨value_fieldBits _ _ _, rfl⟩
      unfold MicroField.decodeContent drive
      rw [lane_eq_ok h hraw, ok_bind, hread, ok_bind, hsignal,
        ok_bind, hwidth, hfit]
      rfl

/-- A field whose selector is a symbol decodes to what the contents of the symbol drive. -/
theorem decode_field_eq_ok {f : MicroField} (hf : f ∈ d.fields) {c : SignalId → Content}
    (hc : c ∈ m.neutralContent :: m.stepContents)
    (hsymbol : word.field f.offset f.width = f.table.codeOf c) :
    f.decode word d.packer d.matrix =
      .ok (tabulate (fun t => d.drive word t (c t)) f.table.targets) := by
  have hnum := h.numbers f hf
  have hrange : ensure (decide (f.table.codeOf c < f.table.count))
      (.symbolRange f.order (f.table.codeOf c)) = .ok () :=
    ensure_eq_ok_iff.mpr (decide_eq_true (hnum.codeOf_lt hc))
  unfold MicroField.decode
  rw [read_selector h hw hf, ok_bind, hsymbol, hrange, ok_bind, hnum.contents_codeOf hc, ok_bind]
  rw [mapM_eq_ok_map (g := fun e => (e.1, d.drive word e.1 e.2))]
  · rw [ok_bind, ← NatMap.tabulate_map (d.drive word) c]
    exact congrArg Except.ok (NatMap.ofList_entries ((tabulate c f.table.targets).map (d.drive word)))
  · rintro ⟨t, content⟩ hmem
    obtain ⟨ht, -, hlane⟩ := FlowMatrix.content_of_mem_entries hc hmem
    have htarget : t ∈ m.targets := (mem_targets_iff h).mpr ⟨f, hf, ht⟩
    simp only [decodeContent_eq_ok h hv hw htarget hlane, ok_bind]
    rfl

omit hv in
/-- A field whose selector is no symbol does not decode. -/
theorem decode_field_eq_error {f : MicroField} (hf : f ∈ d.fields)
    (hrange : f.table.count ≤ word.field f.offset f.width) :
    f.decode word d.packer d.matrix =
      .error (.symbolRange f.order (word.field f.offset f.width)) := by
  unfold MicroField.decode ensure
  rw [read_selector h hw hf, ok_bind, decide_eq_false (Nat.not_lt.mpr hrange)]
  rfl

/-- A word whose selectors all stand for the same contents decodes to what these drive. -/
theorem decode_eq_ok {c : SignalId → Content} (hc : c ∈ m.neutralContent :: m.stepContents)
    (hsymbols : ∀ f ∈ d.fields, word.field f.offset f.width = f.table.codeOf c) :
    d.decode word = .ok (tabulate (fun t => d.drive word t (c t)) m.targets) := by
  unfold decode
  rw [mapM_eq_ok_map fun f hf => decode_field_eq_ok h hv hw hf hc (hsymbols f hf), ok_bind]
  have hfold := NatMap.foldl_overlay_tabulate (fun t => d.drive word t (c t))
    (d.fields.map fun f => f.table.targets) []
  rw [List.map_map] at hfold
  refine congrArg Except.ok (hfold.trans (NatMap.tabulate_eq_of_mem_iff fun t => ?_))
  rw [List.nil_append, ← List.flatMap_def]
  exact h.targets_perm.mem_iff

end Design

end ControlStore
