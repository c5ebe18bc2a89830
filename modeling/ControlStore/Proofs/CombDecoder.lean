import ControlStore.Proofs.Encoding
import ControlStore.Proofs.Execution
import ControlStore.Proofs.Recording
import Mathlib.Data.List.Perm.Basic

/-! # The combinational decoder

`Design.outputs d word` lists what a control word drives into the targets: the contents of the
selected symbol, or unknown bits if the selector of a field is no symbol.  The combinational decoder
performs exactly these stores (`Design.addCombDecoder_ok`), one for every target
(`Design.map_fst_outputs`), so on every word it agrees with the reference decoder of each field. -/

namespace ControlStore

open NatMap (tabulate)
open ControlWord

/-- The stores into the targets of a field. -/
def MicroField.outputs (d : Design) (word : ControlWord) (f : MicroField) : List (Wire × Datum) :=
  match f.table.table.values[word.field f.offset f.width]? with
  | some contents =>
      contents.entries.map fun e => (.design e.1, .ofAssignment (d.drive word e.1 e.2))
  | none => f.table.targets.map fun t => (.design t, .unknown (d.matrix.widthOf t))

/-- The stores into all targets. -/
def Design.outputs (d : Design) (word : ControlWord) : List (Wire × Datum) :=
  d.fields.flatMap (MicroField.outputs d word)

namespace Design

variable {m : FlowMatrix} {d : Design} {regs : Registers} {word : ControlWord}

/-! ### Storing contents -/

/-- The expression for a content, the value word being on `wire`. -/
def exprOf (d : Design) (wire : Wire) (t : SignalId) : Content → Expr
  | .literal bits => .literal bits
  | .forward source => .read (.design source)
  | .lane => .slice wire (d.laneOf t).offset (d.matrix.widthOf t)

/-- The stores of contents into their targets, the value word being on `wire`. -/
def contentStmts (d : Design) (wire : Wire) (contents : Contents) : List Stmt :=
  contents.entries.map fun e => .store (.design e.1) (d.exprOf wire e.1 e.2)

/-- The wire carries the value word of `word`. -/
def CarriesValue (d : Design) (regs : Registers) (wire : Wire) (word : ControlWord) : Prop :=
  ∀ offset width, offset + width ≤ d.packing.width →
    (regs.read wire).slice offset width = .value (word.fieldBits offset width)

/-- One case for every symbol of a field, with the given labels. -/
def symbolCases (d : Design) (wire : Wire) (label : Nat → Bits) (f : MicroField) :
    List (Bits × List Stmt) :=
  f.table.table.indexed.map fun e => (label e.1, d.contentStmts wire e.2)

/-- The stores of unknown bits into the targets of a field. -/
def unknownStmts (d : Design) (f : MicroField) : List Stmt :=
  f.table.targets.map fun t => .store (.design t) (.unknown (d.matrix.widthOf t))

/-- The combinational decoder of a field, the control word being on the wire `cw`. -/
def combStmts (d : Design) (cw : LocalId) (f : MicroField) : List Stmt :=
  if f.table.count = 1 then d.contentStmts (.inner cw) (f.table.table.values.getD 0 .empty)
  else
    [.switch (.slice (.inner cw) f.offset f.width) (d.symbolCases (.inner cw) f.label f)
      (some (d.unknownStmts f))]

theorem outputs_of_getElem? {f : MicroField} {contents : Contents}
    (hget : f.table.table.values[word.field f.offset f.width]? = some contents) :
    f.outputs d word =
      contents.entries.map fun e => (.design e.1, .ofAssignment (d.drive word e.1 e.2)) := by
  unfold MicroField.outputs
  rw [hget]

theorem outputs_of_count_le {f : MicroField} (hle : f.table.count ≤ word.field f.offset f.width) :
    f.outputs d word = f.table.targets.map fun t => (.design t, .unknown (d.matrix.widthOf t)) := by
  unfold MicroField.outputs
  rw [List.getElem?_eq_none hle]

theorem storesOf_unknown (f : MicroField) :
    storesOf regs (d.unknownStmts f) =
      f.table.targets.map fun t => (.design t, .unknown (d.matrix.widthOf t)) :=
  storesOf_map_store _ _ _

theorem eval_selector {cw : LocalId} {b : Bits} (hcw : regs cw = .value b) (f : MicroField) :
    (Expr.slice (.inner cw) f.offset f.width).eval regs =
      .value ((⟨d.width, b.value⟩ : ControlWord).fieldBits f.offset f.width) := by
  show (regs cw).slice f.offset f.width = _
  rw [hcw]
  rfl

theorem carriesValue_of_word {cw : LocalId} {b : Bits} (hcw : regs cw = .value b) :
    d.CarriesValue regs (.inner cw) ⟨d.width, b.value⟩ := by
  intro offset width _
  show (regs cw).slice offset width = _
  rw [hcw]
  rfl

section
variable (h : LaysOut m d) {c : SignalId → Content}
include h

theorem contentExpr_eq_ok {valueWord : Option Wire} {wire : Wire} {t : SignalId} {content : Content}
    (hlane : content = .lane → m.carriesRaw t = true)
    (hwire : m.carriesRaw t = true → valueWord = some wire) :
    MicroField.contentExpr d.packer valueWord t content = .ok (d.exprOf wire t content) := by
  cases content with
  | literal bits => rfl
  | forward source => rfl
  | lane =>
      have hraw := hlane rfl
      unfold MicroField.contentExpr exprOf
      rw [lane_eq_ok h hraw, ok_bind, hwire hraw, h.matrix, ← width_laneOf h hraw]
      rfl

theorem storeContents_eq_ok {valueWord : Option Wire} {wire : Wire}
    (hwire : ∀ t, m.carriesRaw t = true → valueWord = some wire)
    (hc : c ∈ m.neutralContent :: m.stepContents) (ts : List SignalId) :
    MicroField.storeContents .statements d.packer valueWord (tabulate c ts) =
      .ok (d.contentStmts wire (tabulate c ts)) := by
  unfold MicroField.storeContents contentStmts
  apply mapM_eq_ok_map
  rintro ⟨t, content⟩ he
  obtain ⟨-, -, hlane⟩ := FlowMatrix.content_of_mem_entries hc he
  show (MicroField.contentExpr d.packer valueWord t content >>= _) = _
  rw [contentExpr_eq_ok h hlane (hwire t)]
  rfl

theorem storesOf_contentStmts {wire : Wire}
    (hwire : ∀ t, m.carriesRaw t = true → d.CarriesValue regs wire word)
    (hc : c ∈ m.neutralContent :: m.stepContents) (ts : List SignalId) :
    storesOf regs (d.contentStmts wire (tabulate c ts)) =
      (tabulate c ts).entries.map fun e => (.design e.1, .ofAssignment (d.drive word e.1 e.2)) := by
  unfold contentStmts
  rw [storesOf_map_store]
  refine List.map_congr_left fun e he => Prod.ext rfl ?_
  obtain ⟨-, -, hlane⟩ := FlowMatrix.content_of_mem_entries hc he
  obtain ⟨t, content⟩ := e
  cases content with
  | literal bits => rfl
  | forward source => rfl
  | lane =>
      have hraw := hlane rfl
      have hle := laneOf_le h hraw
      obtain rfl := h.matrix
      exact hwire t hraw _ _ hle

theorem storeUnknown_eq_ok (hv : m.validate = .ok ()) {f : MicroField} (hf : f ∈ d.fields) :
    f.storeUnknown .statements d.matrix = .ok (d.unknownStmts f) := by
  obtain rfl := h.matrix
  unfold MicroField.storeUnknown unknownStmts
  apply mapM_eq_ok_map
  intro t ht
  have hdeclared := FlowMatrix.declared_of_mem_targets hv ((mem_targets_iff h).mpr ⟨f, hf, ht⟩)
  obtain ⟨signal, hsignal, hwidth, -⟩ := FlowMatrix.signal_eq_ok hdeclared
  rw [hsignal, ← hwidth]
  rfl

/-! ### Cases for the symbols of a field -/

theorem mapM_symbolCases {valueWord : Option Wire} {wire : Wire}
    (hwire : ∀ t, m.carriesRaw t = true → valueWord = some wire) {f : MicroField} (hf : f ∈ d.fields)
    {makeLabel : Nat → Checked Bits} {label : Nat → Bits}
    (hlabel : ∀ symbol < f.table.count, makeLabel symbol = .ok (label symbol)) :
    f.table.table.indexed.mapM (fun (symbol, contents) => do
      let l ← makeLabel symbol
      return (l, ← MicroField.storeContents .statements d.packer valueWord contents)) =
        .ok (d.symbolCases wire label f) := by
  apply mapM_eq_ok_map
  rintro ⟨symbol, contents⟩ he
  have hget := Interned.mem_indexed_iff.mp he
  obtain ⟨c, hc, rfl⟩ := (h.numbers f hf).mem_values_iff.mp (List.mem_of_getElem? hget)
  show (makeLabel symbol >>= fun l => MicroField.storeContents .statements d.packer valueWord _ >>= _) = _
  rw [hlabel symbol (List.getElem?_eq_some_iff.mp hget).1, ok_bind, storeContents_eq_ok h hwire hc]
  rfl

/-- A switch over the label of a symbol performs the stores of its contents. -/
theorem storesOf_symbolCases {wire : Wire}
    (hwire : ∀ t, m.carriesRaw t = true → d.CarriesValue regs wire word) {f : MicroField}
    (hf : f ∈ d.fields) {label : Nat → Bits}
    (hinj : ∀ i < f.table.count, ∀ j < f.table.count, label i = label j → i = j)
    {otherwise : List (Wire × Datum)} {symbol : Nat} {contents : Contents}
    (hget : f.table.table.values[symbol]? = some contents) :
    storesOfCases regs (.value (label symbol)) otherwise (d.symbolCases wire label f) =
      contents.entries.map fun e => (.design e.1, .ofAssignment (d.drive word e.1 e.2)) := by
  have hmem : (label symbol, d.contentStmts wire contents) ∈ d.symbolCases wire label f :=
    List.mem_map.mpr ⟨(symbol, contents), Interned.mem_indexed_iff.mpr hget, rfl⟩
  have hnodup : ((d.symbolCases wire label f).map Prod.fst).Nodup := by
    unfold symbolCases
    rw [List.map_map, show (Prod.fst ∘ fun e : Nat × Contents => (label e.1, d.contentStmts wire e.2)) =
      label ∘ Prod.fst from rfl, ← List.map_map, Interned.map_fst_indexed]
    refine List.Nodup.map_on (fun i hi j hj => ?_) List.nodup_range
    exact hinj i (List.mem_range.mp hi) j (List.mem_range.mp hj)
  rw [storesOfCases_of_mem hmem hnodup]
  obtain ⟨c, hc, rfl⟩ := (h.numbers f hf).mem_values_iff.mp (List.mem_of_getElem? hget)
  exact storesOf_contentStmts h hwire hc _

/-! ### The stores of one field -/

/-- A field with a single symbol has a selector without bits, which selects it. -/
theorem getElem?_of_count_eq_one {f : MicroField} (hf : f ∈ d.fields) (hone : f.table.count = 1)
    (word : ControlWord) : f.table.table.values[word.field f.offset f.width]? =
      some (tabulate m.neutralContent f.table.targets) := by
  have hwidth : f.width = 0 := by
    unfold MicroField.width
    rw [SymbolTable.width_eq, hone]
    rfl
  rw [hwidth, field_zero_width]
  exact (h.numbers f hf).values_zero

/-- The only symbol of a field stands for the neutral contents. -/
theorem combStmts_of_count_eq_one {f : MicroField} (hf : f ∈ d.fields) (hone : f.table.count = 1)
    (cw : LocalId) :
    d.combStmts cw f = d.contentStmts (.inner cw) (tabulate m.neutralContent f.table.targets) := by
  unfold combStmts
  rw [if_pos hone, List.getD_eq_getElem?_getD, (h.numbers f hf).values_zero, Option.getD_some]

theorem combBody_eq_ok (hv : m.validate = .ok ()) {f : MicroField} (hf : f ∈ d.fields) (cw : LocalId) :
    f.combBody .statements d.packer d.matrix (.inner cw) = .ok (d.combStmts cw f) := by
  have hwire : ∀ t, m.carriesRaw t = true → some (Wire.inner cw) = some (.inner cw) := fun _ _ => rfl
  unfold MicroField.combBody
  by_cases hone : f.table.count = 1
  · rw [if_pos hone, (h.numbers f hf).contents_zero, ok_bind,
      storeContents_eq_ok h hwire List.mem_cons_self, combStmts_of_count_eq_one h hf hone]
  · rw [if_neg hone, mapM_symbolCases h hwire hf fun symbol => MicroField.selector_eq_ok, ok_bind,
      storeUnknown_eq_ok h hv hf]
    unfold combStmts
    rw [if_neg hone]
    rfl

/-- The combinational decoder of a field drives its targets as the control word says. -/
theorem storesOf_combStmts {f : MicroField} (hf : f ∈ d.fields) {cw : LocalId} {b : Bits}
    (hcw : regs cw = .value b) :
    storesOf regs (d.combStmts cw f) = f.outputs d ⟨d.width, b.value⟩ := by
  by_cases hone : f.table.count = 1
  · rw [combStmts_of_count_eq_one h hf hone,
      storesOf_contentStmts h (fun _ _ => carriesValue_of_word hcw) List.mem_cons_self,
      outputs_of_getElem? (getElem?_of_count_eq_one h hf hone _)]
  · unfold combStmts
    rw [if_neg hone, storesOf_switch, eval_selector hcw (d := d), storesOf_unknown]
    by_cases hlt : (⟨d.width, b.value⟩ : ControlWord).field f.offset f.width < f.table.count
    · rw [(MicroField.fieldBits_eq_label_iff hlt).mpr rfl, outputs_of_getElem? (List.getElem?_eq_getElem hlt)]
      exact storesOf_symbolCases h (fun _ _ => carriesValue_of_word hcw) hf
        (fun i hi j hj => MicroField.label_inj hi hj) (List.getElem?_eq_getElem hlt)
    · rw [outputs_of_count_le (Nat.not_lt.mp hlt)]
      apply storesOfCases_of_not_mem
      intro e he heq
      obtain ⟨⟨symbol, contents⟩, hmem, rfl⟩ := List.mem_map.mp he
      have hsymbol : symbol < f.table.count :=
        (List.getElem?_eq_some_iff.mp (Interned.mem_indexed_iff.mp hmem)).1
      have hvalue := (MicroField.fieldBits_eq_label_iff hsymbol).mp (Datum.value.inj heq)
      omega

/-! ### The whole decoder -/

theorem addCombDecoder_eq_ok (hv : m.validate = .ok ()) (M : DecoderModule) (cw : LocalId) :
    d.addCombDecoder M (.inner cw) = .ok
      (M.addProcess (.comb (.ofBody "cwdecode" (d.fields.flatMap (d.combStmts cw))) [.inner cw])) := by
  rw [addCombDecoder_eq, mapM_eq_ok_map fun f hf => combBody_eq_ok h hv (f := f) hf cw]
  rfl

theorem storesOf_decoder {cw : LocalId} {b : Bits} (hcw : regs cw = .value b) :
    storesOf regs (d.fields.flatMap (d.combStmts cw)) = d.outputs ⟨d.width, b.value⟩ := by
  unfold outputs
  rw [List.flatMap_def, storesOf_flatten, List.flatMap_map]
  exact List.flatMap_congr fun f hf => storesOf_combStmts h hf hcw

/-- The combinational decoder performs the stores that the control word stands for. -/
theorem addCombDecoder_ok (hv : m.validate = .ok ()) (M : DecoderModule) (cw : LocalId) :
    ∃ body, d.addCombDecoder M (.inner cw) =
        .ok (M.addProcess (.comb (.ofBody "cwdecode" body) [.inner cw])) ∧
      ∀ (regs : Registers) (b : Bits), regs cw = .value b →
        storesOf regs body = d.outputs ⟨d.width, b.value⟩ :=
  ⟨_, addCombDecoder_eq_ok h hv M cw, fun _ _ hcw => storesOf_decoder h hcw⟩

theorem map_fst_field_outputs {f : MicroField} (hf : f ∈ d.fields) (word : ControlWord) :
    ((f.outputs d word).map Prod.fst).Perm (f.table.targets.map .design) := by
  by_cases hlt : word.field f.offset f.width < f.table.count
  · have hget := List.getElem?_eq_getElem hlt
    obtain ⟨c, hc, hcontents⟩ := (h.numbers f hf).mem_values_iff.mp (List.mem_of_getElem? hget)
    rw [outputs_of_getElem? hget, hcontents, List.map_map]
    show ((tabulate c f.table.targets).entries.map fun e => Wire.design e.1).Perm _
    rw [show (fun e : Nat × Content => Wire.design e.1) = Wire.design ∘ Prod.fst from rfl, ← List.map_map]
    refine List.Perm.map _ ((List.perm_ext_iff_of_nodup (NatMap.keys_nodup _) ?_).mpr fun t => ?_)
    · have hnodup := h.targets_perm.nodup_iff.mpr m.targets_nodup
      exact (List.nodup_flatMap.mp hnodup).1 f hf
    · exact NatMap.mem_keys_tabulate
  · rw [outputs_of_count_le (Nat.not_lt.mp hlt), List.map_map]
    exact List.Perm.refl _

/-- Every target is driven once, and no other wire. -/
theorem map_fst_outputs (word : ControlWord) :
    ((d.outputs word).map Prod.fst).Perm (m.targets.map .design) := by
  unfold outputs
  rw [List.map_flatMap]
  refine (List.Perm.flatMap_left d.fields fun f hf => map_fst_field_outputs h hf word).trans ?_
  rw [← List.map_flatMap]
  exact h.targets_perm.map _

theorem mem_outputs_of_decode (hv : m.validate = .ok ()) {f : MicroField} (hf : f ∈ d.fields)
    (hw : word.width = d.width) (hlt : word.field f.offset f.width < f.table.count) :
    ∃ assigned, f.decode word d.packer d.matrix = .ok assigned ∧
      ∀ t ∈ f.table.targets, ∃ a, assigned.get? t = some a ∧
        (.design t, .ofAssignment a) ∈ d.outputs word := by
  obtain ⟨c, hc, hcode⟩ := (h.numbers f hf).exists_code hlt
  refine ⟨_, decode_field_eq_ok h hv hw hf hc hcode.symm, fun t ht => ⟨d.drive word t (c t), ?_, ?_⟩⟩
  · rw [NatMap.get?_tabulate, if_pos ht]
  · refine List.mem_flatMap.mpr ⟨f, hf, ?_⟩
    rw [outputs_of_getElem? (hcode ▸ (h.numbers f hf).values_codeOf hc)]
    refine List.mem_map.mpr ⟨(t, c t), NatMap.mem_entries_iff.mpr ?_, rfl⟩
    rw [NatMap.get?_tabulate, if_pos ht]

end

/-- On every control word the combinational decoder stores into every target once, and into nothing
else: what the field of the target decodes to, or unknown bits if the field does not decode. -/
theorem comb_decoder_agrees {m : FlowMatrix} (hv : m.validate = .ok ())
    (hfit : m.laneBits + m.selectorBits < Width.limit) (bound : Nat) :
    ∃ d report, (compute m bound).result = .ok (d, report) ∧
      (∀ t ∈ m.targets, ∃ f ∈ d.fields, t ∈ f.table.targets) ∧
      ∀ (M : DecoderModule) (cw : LocalId), ∃ body,
        d.addDecoder .combinational M (.inner cw) = .ok ({ d with decoderBuilt := true },
          M.addProcess (.comb (.ofBody "cwdecode" body) [.inner cw])) ∧
        ∀ (regs : Registers) (w : Bits), regs cw = .value w →
          ((storesOf regs body).map Prod.fst).Perm (m.targets.map .design) ∧
          ∀ f ∈ d.fields, ∃ symbol,
            (⟨d.width, w.value⟩ : ControlWord).read f.offset f.width = .ok symbol ∧
            (symbol < f.table.count → ∃ assigned,
              f.decode ⟨d.width, w.value⟩ d.packer d.matrix = .ok assigned ∧
              ∀ t ∈ f.table.targets, ∃ a, assigned.get? t = some a ∧
                (.design t, .ofAssignment a) ∈ storesOf regs body) ∧
            (f.table.count ≤ symbol →
              f.decode ⟨d.width, w.value⟩ d.packer d.matrix = .error (.symbolRange f.order symbol) ∧
              ∀ t ∈ f.table.targets, ∃ signal, m.signal t = .ok signal ∧
                (.design t, .unknown signal.width) ∈ storesOf regs body) := by
  obtain ⟨d, report, hcompute, h⟩ := compute_ok hv hfit bound
  refine ⟨d, report, hcompute, fun t ht => (mem_targets_iff h).mp ht, fun M cw => ?_⟩
  obtain ⟨body, hbody, hstores⟩ := addCombDecoder_ok h hv M cw
  refine ⟨body, ?_, fun regs w hcw => ?_⟩
  · unfold addDecoder
    rw [h.unbuilt, hbody]
    rfl
  · rw [hstores regs w hcw]
    refine ⟨map_fst_outputs h _, fun f hf => ⟨_, read_selector h rfl hf, ?_, fun hle => ⟨?_, ?_⟩⟩⟩
    · exact mem_outputs_of_decode h hv hf rfl
    · exact decode_field_eq_error h rfl hf hle
    · intro t ht
      have hdeclared := FlowMatrix.declared_of_mem_targets hv ((mem_targets_iff h).mpr ⟨f, hf, ht⟩)
      obtain ⟨signal, hsignal, hwidth, -⟩ := FlowMatrix.signal_eq_ok hdeclared
      refine ⟨signal, hsignal, List.mem_flatMap.mpr ⟨f, hf, ?_⟩⟩
      rw [outputs_of_count_le hle, hwidth, h.matrix]
      exact List.mem_map.mpr ⟨t, ht, rfl⟩

theorem comb_decoder_mixed : ∃ d report, (compute .mixed 6).result = .ok (d, report) ∧
    ∃ body, d.addDecoder .combinational (.ofMatrix .counting .mixed) (.inner 0) = .ok
      ({ d with decoderBuilt := true },
        (DecoderModule.ofMatrix .counting .mixed).addProcess (.comb (.ofBody "cwdecode" body) [.inner 0])) ∧
      ((storesOf (fun _ => .value (.zero d.width)) body).map Prod.fst).Perm
        [.design 0, .design 1, .design 2] := by
  obtain ⟨d, report, hcompute, -, hdecoder⟩ := comb_decoder_agrees (m := .mixed) (by decide) (by decide) 6
  obtain ⟨body, hbody, hstores⟩ := hdecoder (.ofMatrix .counting .mixed) 0
  exact ⟨d, report, hcompute, body, hbody, (hstores _ (.zero d.width) rfl).1⟩

end Design

end ControlStore
