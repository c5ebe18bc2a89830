import ControlStore.Proofs.Allocation
import ControlStore.Proofs.SizedStatements
import ControlStore.Proofs.StagedDecoder

/-! # The widths in a decoder agree

The flows of a valid matrix have the widths of their targets, and so have the contents that its
symbols stand for (`FlowMatrix.content_fits`), initial values included.  Every statement of a decoder
is therefore sized: those that store contents, those that register the value word and the symbols, and
those that decode from the registers.  Signals that are allocated later do not disturb the statements
made before.  The whole decoder of every mode is sized and can be written
(`Design.decoder_well_sized`). -/

namespace ControlStore

open NatMap (tabulate)
open StepFlow

namespace FlowMatrix

variable {m : FlowMatrix} {t : SignalId}

theorem width_initialOf (ht : t < m.signals.length) : (m.initialOf t).width = m.widthOf t := by
  obtain ⟨signal, -, hwidth, hinit⟩ := signal_eq_ok ht
  rw [← hwidth, ← hinit]
  exact signal.init_width

theorem widthOf_pos (hpos : ∀ s ∈ m.signals, 0 < s.width) (ht : t < m.signals.length) : 0 < m.widthOf t := by
  obtain ⟨signal, hsignal, hwidth, -⟩ := signal_eq_ok ht
  rw [← hwidth]
  exact hpos signal (List.mem_of_getElem? (fetch_eq_ok_iff.mp hsignal))

/-! ### Contents that fit their targets -/

/-- The flow has the width of its target. -/
def FlowFits (m : FlowMatrix) (t : SignalId) : Flow → Prop
  | .constant bits => bits.width = m.widthOf t
  | .raw bits => bits.width = m.widthOf t
  | .forward source => source < m.signals.length ∧ m.widthOf source = m.widthOf t
  | .absent => True

/-- The content has the width of its target; the width of a lane is that of its target. -/
def ContentFits (m : FlowMatrix) (t : SignalId) : Content → Prop
  | .literal bits => bits.width = m.widthOf t
  | .forward source => source < m.signals.length ∧ m.widthOf source = m.widthOf t
  | .lane => True

theorem flowFits_of_checkFlow {flow : Flow} (h : m.checkFlow t flow = .ok ()) : m.FlowFits t flow := by
  unfold checkFlow at h
  split at h
  · cases h
  · next signal hsignal =>
    have hwidth : m.widthOf t = signal.width := by simp [widthOf, hsignal]
    cases flow with
    | constant bits => simp_all [FlowFits]
    | raw bits => simp_all [FlowFits]
    | absent => trivial
    | forward source =>
        simp only at h
        split at h
        · cases h
        · split at h
          · cases h
          · next src hsrc =>
            refine ⟨(List.getElem?_eq_some_iff.mp hsrc).1, ?_⟩
            simp_all [widthOf]

theorem Accepts.flowFits {f : StepFlow} (h : m.Accepts f) (t : SignalId) : m.FlowFits t (lookup f t) := by
  by_cases habsent : lookup f t = .absent
  · rw [habsent]
    trivial
  · exact flowFits_of_checkFlow (h t _ (get?_of_lookup habsent))

theorem contentFits_of {flow : Flow} {default : Content} (hflow : m.FlowFits t flow)
    (hdefault : m.ContentFits t default) : m.ContentFits t (Content.of flow default) := by
  cases flow with
  | constant bits => exact hflow
  | forward source => exact hflow
  | raw bits => trivial
  | absent => exact hdefault

/-- The contents of a valid matrix have the widths of their targets. -/
theorem content_fits (hv : m.validate = .ok ()) {c : SignalId → Content}
    (hc : c ∈ m.neutralContent :: m.stepContents) (ht : t < m.signals.length) : m.ContentFits t (c t) := by
  obtain ⟨hneutral, hsteps⟩ := validate_eq_ok_iff.mp hv
  have hdefault : m.ContentFits t (m.neutralContent t) :=
    contentFits_of (hneutral.flowFits t) (width_initialOf ht)
  rcases List.mem_cons.mp hc with rfl | hc
  · exact hdefault
  · unfold stepContents mergedFlows at hc
    rw [List.map_map, List.mem_map] at hc
    obtain ⟨f, hf, rfl⟩ := hc
    refine contentFits_of ?_ hdefault
    rw [lookup_integrate]
    split
    · exact hneutral.flowFits t
    · exact (hsteps f hf).flowFits t

end FlowMatrix

namespace DecoderModule

theorem width_design {M : DecoderModule} {t : SignalId} (ht : t < M.matrix.signals.length) :
    M.width (.design t) = .ok (M.matrix.widthOf t) := by
  obtain ⟨signal, hsignal, hwidth, -⟩ := FlowMatrix.signal_eq_ok ht
  exact bind_eq_ok_iff.mpr ⟨signal, hsignal, congrArg Except.ok hwidth⟩

/-- A wire of at least `low` bits that slices can be cut from. -/
def Carries (M : DecoderModule) (low : Nat) (wire : Wire) : Prop :=
  ∃ n, M.width wire = .ok n ∧ low ≤ n ∧ n < Width.limit

theorem Carries.sized_slice {M : DecoderModule} {low lsb bits : Nat} {wire : Wire} (h : M.Carries low wire)
    (hpos : 0 < bits) (hle : lsb + bits ≤ low) : (Expr.slice wire lsb bits).Sized M bits := by
  obtain ⟨n, hn, hlow, hlt⟩ := h
  exact ⟨rfl, hpos, n, hn, by omega, hlt⟩

theorem Carries.mono {M M' : DecoderModule} (h : M.Grows M') {low : Nat} {wire : Wire}
    (hwire : M.Carries low wire) : M'.Carries low wire := by
  obtain ⟨n, hn, hle⟩ := hwire
  exact ⟨n, h.width_eq hn, hle⟩

end DecoderModule

namespace Design

variable {m : FlowMatrix} {d : Design} {M M' : DecoderModule}

/-! ### Statements that drive the targets of a field -/

section
variable (h : LaysOut m d) (hv : m.validate = .ok ())
  (hpos : ∀ s ∈ m.signals, 0 < s.width) (hM : M.matrix = m) {valueWord : Option Wire}
  (hvalue : ∀ wire ∈ valueWord, M.Carries d.packing.width wire)
include h hv hpos hM

include hvalue in
theorem contentExpr_sized {t : SignalId} {content : Content} {e : Expr} (ht : t < m.signals.length)
    (hfits : m.ContentFits t content)
    (he : MicroField.contentExpr d.packer valueWord t content = .ok e) : e.Sized M (m.widthOf t) := by
  obtain rfl := hM
  cases content with
  | literal bits =>
      cases he
      exact hfits
  | forward source =>
      cases he
      obtain ⟨hsource, hwidth⟩ := hfits
      rw [← hwidth]
      exact DecoderModule.width_design hsource
  | lane =>
      obtain ⟨lane, hlane, he⟩ := bind_eq_ok_iff.mp he
      obtain ⟨wire, hwire, he⟩ := bind_eq_ok_iff.mp he
      cases he
      have hget := require_eq_ok_iff.mp (Packer.lane_eq h.packed t ▸ hlane)
      have hwidth : lane.width = M.matrix.widthOf t := h.packs.width_eq hget
      have hstop : lane.offset + lane.width ≤ d.packing.width := h.packs.stop_le hget
      rw [← hwidth]
      refine (hvalue wire (require_eq_ok_iff.mp hwire)).sized_slice ?_ hstop
      rw [hwidth]
      exact FlowMatrix.widthOf_pos hpos ht

include hvalue in
theorem storeContents_sized {f : MicroField} (hf : f ∈ d.fields) {c : SignalId → Content}
    (hc : c ∈ m.neutralContent :: m.stepContents) {stmts : List Stmt}
    (hstmts : MicroField.storeContents .statements d.packer valueWord (tabulate c f.table.targets) = .ok stmts) :
    ∀ stmt ∈ stmts, stmt.Sized M := by
  intro stmt hstmt
  obtain ⟨⟨t, content⟩, hentry, heq⟩ := exists_of_mem_mapM hstmts hstmt
  obtain ⟨e, he, hstore⟩ := bind_eq_ok_iff.mp heq
  cases hstore
  obtain ⟨ht, hcontent, -⟩ := FlowMatrix.content_of_mem_entries hc hentry
  have hdeclared := FlowMatrix.declared_of_mem_targets hv ((mem_targets_iff h).mpr ⟨f, hf, ht⟩)
  obtain rfl : content = c t := hcontent
  have hfits := FlowMatrix.content_fits hv hc hdeclared
  refine .store ?_ (contentExpr_sized h hv hpos hM hvalue hdeclared hfits he)
  rw [← hM]
  exact DecoderModule.width_design (hM ▸ hdeclared)

omit hpos in
theorem storeUnknown_sized {f : MicroField} {stmts : List Stmt}
    (hstmts : f.storeUnknown .statements d.matrix = .ok stmts) : ∀ stmt ∈ stmts, stmt.Sized M := by
  obtain rfl := h.matrix
  intro stmt hstmt
  obtain ⟨t, ht, heq⟩ := exists_of_mem_mapM hstmts hstmt
  obtain ⟨signal, hsignal, hstore⟩ := bind_eq_ok_iff.mp heq
  cases hstore
  have hwidth : M.width (.design t) = .ok signal.width :=
    bind_eq_ok_iff.mpr ⟨signal, hM ▸ hsignal, rfl⟩
  exact .store hwidth rfl

/-- Labels that are as wide as the selector and tell the symbols apart. -/
structure Labels (f : MicroField) (width : Nat) (label : Nat → Bits) : Prop where
  width_eq : ∀ symbol < f.table.count, (label symbol).width = width
  inj : ∀ i < f.table.count, ∀ j < f.table.count, label i = label j → i = j

omit h hv hpos hM in
theorem labels_selector (f : MicroField) : Labels f f.width f.label :=
  ⟨fun _ => MicroField.width_label, fun _ hi _ hj => MicroField.label_inj hi hj⟩

omit h hv hpos hM in
theorem labels_oneHot (f : MicroField) : Labels f f.table.count fun symbol => .oneHotOf symbol f.table.count where
  width_eq symbol hlt := by
    unfold Bits.oneHotOf Bits.oneHot
    rw [dif_pos hlt]
  inj _ hi _ hj := Bits.oneHotOf_inj hi hj

omit h hv hpos hM in
theorem Labels.spec {f : MicroField} {width : Nat} {label : Nat → Bits} (hlabels : Labels f width label)
    {cases : List (Bits × List Stmt)} (hcases : cases.map Prod.fst = (List.range f.table.count).map label) :
    (∀ c ∈ cases, c.1.width = width) ∧ (cases.map Prod.fst).Nodup := by
  constructor
  · intro c hc
    have hmem : c.1 ∈ cases.map Prod.fst := List.mem_map.mpr ⟨c, hc, rfl⟩
    rw [hcases, List.mem_map] at hmem
    obtain ⟨symbol, hsymbol, hlabel⟩ := hmem
    rw [← hlabel]
    exact hlabels.width_eq symbol (List.mem_range.mp hsymbol)
  · rw [hcases]
    refine List.Nodup.map_on (fun i hi j hj => ?_) List.nodup_range
    exact hlabels.inj i (List.mem_range.mp hi) j (List.mem_range.mp hj)

include hvalue in
/-- The cases for the symbols of a field. -/
theorem symbolCases_sized {f : MicroField} (hf : f ∈ d.fields) {makeLabel : Nat → Checked Bits}
    {label : Nat → Bits} (hlabel : ∀ symbol < f.table.count, makeLabel symbol = .ok (label symbol))
    {cases : List (Bits × List Stmt)}
    (hcases : f.table.table.indexed.mapM (fun (symbol, contents) => do
      let l ← makeLabel symbol
      return (l, ← MicroField.storeContents .statements d.packer valueWord contents)) = .ok cases) :
    cases.map Prod.fst = (List.range f.table.count).map label ∧
      ∀ c ∈ cases, ∀ stmt ∈ c.2, stmt.Sized M := by
  constructor
  · rw [show f.table.count = f.table.table.size from rfl, ← Interned.map_fst_indexed, List.map_map]
    refine map_eq_of_mapM hcases fun ⟨symbol, contents⟩ hmem case hcase => ?_
    obtain ⟨l, hl, hcase⟩ := bind_eq_ok_iff.mp hcase
    obtain ⟨stmts, -, hcase⟩ := bind_eq_ok_iff.mp hcase
    cases hcase
    rw [hlabel symbol (List.getElem?_eq_some_iff.mp (Interned.mem_indexed_iff.mp hmem)).1] at hl
    cases hl
    rfl
  · intro case hcase
    obtain ⟨⟨symbol, contents⟩, hmem, heq⟩ := exists_of_mem_mapM hcases hcase
    obtain ⟨l, -, heq⟩ := bind_eq_ok_iff.mp heq
    obtain ⟨stmts, hstmts, heq⟩ := bind_eq_ok_iff.mp heq
    cases heq
    obtain ⟨c, hc, rfl⟩ := (h.numbers f hf).mem_values_iff.mp
      (List.mem_of_getElem? (Interned.mem_indexed_iff.mp hmem))
    exact storeContents_sized h hv hpos hM hvalue hf hc hstmts

omit hv hpos hM in
theorem selector_sized {f : MicroField} (hf : f ∈ d.fields) (hmany : f.table.count ≠ 1) {cw : Wire}
    (hcw : M.Carries d.width cw) : (Expr.slice cw f.offset f.width).Sized M f.width := by
  refine hcw.sized_slice ?_ (h.within f hf)
  have hcount := (h.numbers f hf).count_pos
  have hnot : ¬ selectorWidth f.table.count ≤ 0 := by
    rw [selectorWidth_le_iff]
    omega
  rw [MicroField.width, SymbolTable.width_eq]
  exact Nat.lt_of_not_le hnot

theorem combBody_sized {f : MicroField} (hf : f ∈ d.fields) {cw : Wire} (hcw : M.Carries d.width cw)
    {body : List Stmt} (hbody : f.combBody .statements d.packer d.matrix cw = .ok body) :
    ∀ stmt ∈ body, stmt.Sized M := by
  have hvalue : ∀ wire ∈ some cw, M.Carries d.packing.width wire := by
    rintro wire ⟨⟩
    obtain ⟨n, hn, hle, hlt⟩ := hcw
    exact ⟨n, hn, Nat.le_trans h.valueWord hle, hlt⟩
  unfold MicroField.combBody at hbody
  split at hbody
  · obtain ⟨contents, hcontents, hbody⟩ := bind_eq_ok_iff.mp hbody
    rw [(h.numbers f hf).contents_zero] at hcontents
    cases hcontents
    exact storeContents_sized h hv hpos hM hvalue hf List.mem_cons_self hbody
  · next hmany =>
    obtain ⟨cases, hcases, hbody⟩ := bind_eq_ok_iff.mp hbody
    obtain ⟨fallback, hfallback, hbody⟩ := bind_eq_ok_iff.mp hbody
    cases hbody
    obtain ⟨hlabels, hstmts⟩ := symbolCases_sized h hv hpos hM hvalue hf
      (fun symbol => MicroField.selector_eq_ok) hcases
    obtain ⟨hwidths, hnodup⟩ := (labels_selector f).spec hlabels
    refine List.forall_mem_singleton.mpr (.switch (selector_sized h hf hmany hcw) hwidths hnodup hstmts ?_)
    exact storeUnknown_sized h hv hM hfallback

/-- The register of a field, and the copy that is decoded from, have one bit for every symbol. -/
def HoldsSymbol (M : DecoderModule) (f : MicroField) (staged : Option StagedSymbol) : Prop :=
  ∀ st ∈ staged, M.width st.symbol = .ok f.table.count ∧ M.width st.decoded = .ok f.table.count

include hvalue in
theorem stagedBody_sized {f : MicroField} (hf : f ∈ d.fields) {staged : Option StagedSymbol}
    (hstaged : HoldsSymbol M f staged) {body : List Stmt}
    (hbody : f.stagedBody .statements d.packer d.matrix staged valueWord = .ok body) :
    ∀ stmt ∈ body, stmt.Sized M := by
  unfold MicroField.stagedBody at hbody
  rw [(h.numbers f hf).contents_zero, ok_bind] at hbody
  cases staged with
  | none => exact storeContents_sized h hv hpos hM hvalue hf List.mem_cons_self hbody
  | some st =>
      obtain ⟨zero, hzero, hbody⟩ := bind_eq_ok_iff.mp hbody
      obtain ⟨cases, hcases, hbody⟩ := bind_eq_ok_iff.mp hbody
      obtain ⟨fallback, hfallback, hbody⟩ := bind_eq_ok_iff.mp hbody
      cases hbody
      obtain ⟨hlabels, hstmts⟩ := symbolCases_sized h hv hpos hM hvalue hf
        (fun symbol => Bits.oneHot_eq_ok) hcases
      obtain ⟨hwidths, hnodup⟩ := (labels_oneHot f).spec hlabels
      have hzeros := storeContents_sized h hv hpos hM hvalue hf List.mem_cons_self hzero
      have hread : (Expr.read st.decoded).Sized M f.table.count := (hstaged st rfl).2
      refine List.forall_mem_singleton.mpr (.switch hread
        (List.forall_mem_cons.mpr ⟨rfl, hwidths⟩) ?_ (List.forall_mem_cons.mpr ⟨hzeros, hstmts⟩)
        (storeUnknown_sized h hv hM hfallback))
      rw [List.map_cons, List.nodup_cons, hlabels]
      refine ⟨fun hmem => ?_, hlabels ▸ hnodup⟩
      obtain ⟨symbol, hsymbol, heq⟩ := List.mem_map.mp hmem
      exact Bits.oneHotOf_ne_zero (List.mem_range.mp hsymbol) heq

end

/-! ### Statements that fill the registers -/

section
variable {cw : Wire} {fields : List MicroField} {staged : List (Option StagedSymbol)} {stmts : List Stmt}

theorem HoldsSymbol.mono (h : M.Grows M') {f : MicroField} {s : Option StagedSymbol}
    (hs : HoldsSymbol M f s) : HoldsSymbol M' f s :=
  fun st hst => ⟨h.width_eq (hs st hst).1, h.width_eq (hs st hst).2⟩

theorem sized_grows (h : M.Grows M') (hstmts : ∀ stmt ∈ stmts, stmt.Sized M) :
    ∀ stmt ∈ stmts, stmt.Sized M' :=
  fun stmt hstmt => (hstmts stmt hstmt).mono fun _ _ => h.width_eq

/-- A register is allocated and takes an expression of its width. -/
theorem register_sized {stem : String} {width : Nat} {wire : Wire} {src : Expr} (hsrc : src.Sized M width)
    (hallocate : M.allocate .plain stem width = .ok (wire, M')) : M.Grows M' ∧
      (∀ stmt ∈ [Stmt.store wire src], stmt.Sized M') ∧ M'.width wire = .ok width := by
  have hgrows : M.Grows M' := .allocate (by decide) hallocate
  have hwidth := DecoderModule.width_allocate hallocate
  exact ⟨hgrows, List.forall_mem_singleton.mpr (.store hwidth (hsrc.mono fun _ _ => hgrows.width_eq)), hwidth⟩

theorem syncValueWord_sized (h : LaysOut m d) (hcw : M.Carries d.packing.width cw) {wire : Option Wire}
    (hsync : d.syncValueWord .statements M cw = .ok (wire, stmts, M')) : M.Grows M' ∧
      (∀ stmt ∈ stmts, stmt.Sized M') ∧ ∀ w ∈ wire, M'.width w = .ok d.packing.width := by
  unfold syncValueWord at hsync
  rw [Packer.width_eq_ok h.packed, ok_bind] at hsync
  split at hsync
  · cases hsync
    exact ⟨.refl _, by simp, by simp⟩
  · next hne =>
    obtain ⟨⟨w, M₁⟩, hallocate, hsync⟩ := bind_eq_ok_iff.mp hsync
    cases hsync
    have hslice : (Expr.slice cw 0 d.packing.width).Sized M d.packing.width :=
      hcw.sized_slice (Nat.pos_of_ne_zero hne) (by omega)
    obtain ⟨hgrows, hstmts, hwidth⟩ := register_sized hslice hallocate
    refine ⟨hgrows, hstmts, ?_⟩
    rintro w ⟨⟩
    exact hwidth

theorem registerValueWord_sized (h : LaysOut m d) {first wire : Option Wire}
    (hfirst : ∀ w ∈ first, M.width w = .ok d.packing.width)
    (hregister : d.registerValueWord .statements M first = .ok (wire, stmts, M')) : M.Grows M' ∧
      (∀ stmt ∈ stmts, stmt.Sized M') ∧ ∀ w ∈ wire, M'.width w = .ok d.packing.width := by
  cases first with
  | none =>
      cases hregister
      exact ⟨.refl _, by simp, by simp⟩
  | some first =>
      obtain ⟨width, hwidth, hregister⟩ := bind_eq_ok_iff.mp hregister
      obtain rfl := Except.ok.inj ((Packer.width_eq_ok h.packed).symm.trans hwidth)
      obtain ⟨⟨w, M₁⟩, hallocate, hregister⟩ := bind_eq_ok_iff.mp hregister
      cases hregister
      have hread : (Expr.read first).Sized M d.packing.width := hfirst first rfl
      obtain ⟨hgrows, hstmts, hwidth⟩ := register_sized hread hallocate
      refine ⟨hgrows, hstmts, ?_⟩
      rintro w ⟨⟩
      exact hwidth

theorem registerBody_sized {f : MicroField} {first second : StagedSymbol} (hfirst : HoldsSymbol M f (some first))
    (hregister : f.registerBody .statements M first = .ok (second, stmts, M')) : M.Grows M' ∧
      (∀ stmt ∈ stmts, stmt.Sized M') ∧ HoldsSymbol M' f (some second) := by
  obtain ⟨⟨w, M₁⟩, hallocate, hregister⟩ := bind_eq_ok_iff.mp hregister
  cases hregister
  have hread : (Expr.read first.symbol).Sized M f.table.count := (hfirst first rfl).1
  obtain ⟨hgrows, hstmts, hwidth⟩ := register_sized hread hallocate
  refine ⟨hgrows, hstmts, ?_⟩
  rintro st ⟨⟩
  exact ⟨hgrows.width_eq (hfirst first rfl).1, hwidth⟩

/-- The case that registers a symbol, with its label and its one-hot code. -/
theorem syncCase_eq {f : MicroField} {w : Wire} {symbol : Nat} (hsymbol : symbol < f.table.count)
    {c : Bits × List Stmt} (hc : (do
      let label ← f.selector symbol
      let oneHot ← Bits.oneHot symbol f.table.count
      return (label, [Stmt.store w (.literal oneHot)])) = .ok c) :
    c = (f.label symbol, [.store w (.literal (.oneHotOf symbol f.table.count))]) := by
  rw [MicroField.selector_eq_ok hsymbol, ok_bind, Bits.oneHot_eq_ok hsymbol] at hc
  cases hc
  rfl

theorem syncBody_sized (h : LaysOut m d) {f : MicroField} (hf : f ∈ d.fields) (hcw : M.Carries d.width cw)
    {s : Option StagedSymbol} (hsync : f.syncBody .statements M cw = .ok (s, stmts, M')) : M.Grows M' ∧
      (∀ stmt ∈ stmts, stmt.Sized M') ∧ HoldsSymbol M' f s := by
  unfold MicroField.syncBody at hsync
  dsimp only at hsync
  split at hsync
  · cases hsync
    exact ⟨.refl _, by simp, by simp [HoldsSymbol]⟩
  · next hmany =>
    obtain ⟨⟨w, M₁⟩, hallocate, hsync⟩ := bind_eq_ok_iff.mp hsync
    obtain ⟨cases, hcases, hsync⟩ := bind_eq_ok_iff.mp hsync
    cases hsync
    have hgrows : M.Grows M₁ := .allocate (by decide) hallocate
    have hwidth := DecoderModule.width_allocate hallocate
    have hlabels : cases.map Prod.fst = (List.range f.table.count).map f.label :=
      map_eq_of_mapM hcases fun symbol hsymbol c hc =>
        congrArg Prod.fst (syncCase_eq (List.mem_range.mp hsymbol) hc)
    obtain ⟨hwidths, hnodup⟩ := (labels_selector f).spec hlabels
    refine ⟨hgrows, List.forall_mem_singleton.mpr (.switch (selector_sized h hf hmany (hcw.mono hgrows))
      hwidths hnodup ?_ ?_), ?_⟩
    · intro c hc
      obtain ⟨symbol, hsymbol, heq⟩ := exists_of_mem_mapM hcases hc
      rw [syncCase_eq (List.mem_range.mp hsymbol) heq]
      exact List.forall_mem_singleton.mpr
        (.store hwidth ((labels_oneHot f).width_eq symbol (List.mem_range.mp hsymbol)))
    · exact List.forall_mem_singleton.mpr (.store hwidth rfl)
    · rintro st ⟨⟩
      exact ⟨hwidth, hwidth⟩

/-- The first registers of all fields; those made later leave the widths as they are. -/
theorem syncFields_sized (h : LaysOut m d) (hfields : fields ⊆ d.fields) (hcw : M.Carries d.width cw)
    (hsync : syncFields .statements M cw fields = .ok (staged, stmts, M')) : M.Grows M' ∧
      (∀ stmt ∈ stmts, stmt.Sized M') ∧ List.Forall₂ (HoldsSymbol M') fields staged := by
  induction fields generalizing M staged stmts with
  | nil =>
      cases hsync
      exact ⟨.refl _, by simp, .nil⟩
  | cons f fields ih =>
      obtain ⟨hf, hfields⟩ := List.cons_subset.mp hfields
      rw [syncFields] at hsync
      obtain ⟨⟨s, first, M₁⟩, hfirst, hsync⟩ := bind_eq_ok_iff.mp hsync
      obtain ⟨⟨others, more, M₂⟩, hmore, hsync⟩ := bind_eq_ok_iff.mp hsync
      cases hsync
      obtain ⟨hgrows, hstmts, hs⟩ := syncBody_sized h hf hcw hfirst
      obtain ⟨hgrows', hmore, hothers⟩ := ih hfields (hcw.mono hgrows) hmore
      exact ⟨hgrows.trans hgrows', List.forall_mem_append.mpr ⟨sized_grows hgrows' hstmts, hmore⟩,
        .cons (hs.mono hgrows') hothers⟩

/-- The second registers of all fields. -/
theorem registerFields_sized {first : List (Option StagedSymbol)}
    (hfirst : List.Forall₂ (HoldsSymbol M) fields first)
    (hregister : registerFields .statements M (fields.zip first) = .ok (staged, stmts, M')) : M.Grows M' ∧
      (∀ stmt ∈ stmts, stmt.Sized M') ∧ List.Forall₂ (HoldsSymbol M') fields staged := by
  induction fields generalizing M first staged stmts with
  | nil =>
      cases hfirst
      cases hregister
      exact ⟨.refl _, by simp, .nil⟩
  | cons f fields ih =>
      cases hfirst with
      | @cons _ s _ rest hs hrest =>
          cases s with
          | none =>
              rw [List.zip_cons_cons, registerFields] at hregister
              obtain ⟨⟨others, more, M₁⟩, hmore, hregister⟩ := bind_eq_ok_iff.mp hregister
              cases hregister
              obtain ⟨hgrows, hstmts, hothers⟩ := ih hrest hmore
              exact ⟨hgrows, hstmts, .cons (hs.mono hgrows) hothers⟩
          | some st =>
              rw [List.zip_cons_cons, registerFields] at hregister
              obtain ⟨⟨second, stmts₁, M₁⟩, hsecond, hregister⟩ := bind_eq_ok_iff.mp hregister
              obtain ⟨⟨others, more, M₂⟩, hmore, hregister⟩ := bind_eq_ok_iff.mp hregister
              cases hregister
              obtain ⟨hgrows, hstmts, hst⟩ := registerBody_sized hs hsecond
              obtain ⟨hgrows', hmore, hothers⟩ := ih (hrest.imp fun f s hs => hs.mono hgrows) hmore
              exact ⟨hgrows.trans hgrows', List.forall_mem_append.mpr ⟨sized_grows hgrows' hstmts, hmore⟩,
                .cons (hst.mono hgrows') hothers⟩

end

/-! ### The whole decoder -/

/-- `M'` has further signals and processes, and the widths in the new processes agree. -/
def Extends (M M' : DecoderModule) : Prop :=
  ∃ M₁ ps, M.Grows M₁ ∧ M' = { M₁ with processes := M.processes ++ ps } ∧ ∀ p ∈ ps, p.Sized M₁

theorem Extends.sized (h : Extends M M') (hM : M.processes = []) : ∀ p ∈ M'.processes, p.Sized M' := by
  obtain ⟨M₁, ps, -, rfl, hps⟩ := h
  rw [hM]
  exact fun p hp => (hps p hp).mono fun wire n hn => by cases wire <;> exact hn

theorem Extends.enlarges (h : Extends M M') : M.Enlarges M' := by
  obtain ⟨M₁, ps, hgrows, hM', -⟩ := h
  exact ⟨M₁, _, hgrows, hM'⟩

section
variable (h : LaysOut m d) (hv : m.validate = .ok ())
  (hpos : ∀ s ∈ m.signals, 0 < s.width) (hM : M.matrix = m) {cw : Wire} (hcw : M.Carries d.width cw)
include h hv hpos hM

include hcw in
theorem addCombDecoder_sized (hadd : d.addCombDecoder M cw = .ok M') : Extends M M' := by
  rw [addCombDecoder_eq] at hadd
  obtain ⟨bodies, hbodies, hadd⟩ := bind_eq_ok_iff.mp hadd
  cases hadd
  refine ⟨M, _, .refl M, rfl, List.forall_mem_singleton.mpr (.comb (fun stmt hstmt => ?_) ?_)⟩
  · obtain ⟨body, hbody, hstmt⟩ := List.mem_flatten.mp hstmt
    obtain ⟨f, hf, hbody⟩ := exists_of_mem_mapM hbodies hbody
    exact combBody_sized h hv hpos hM hf hcw hbody stmt hstmt
  · obtain ⟨n, hn, -⟩ := hcw
    exact List.forall_mem_singleton.mpr ⟨n, hn⟩

/-- The two processes of a staged decoder, the registers being given. -/
theorem addStages_extends {M₁ : DecoderModule} (hgrows : M.Grows M₁) {clock : Wire}
    (hclock : M₁.width clock = .ok 1) {sync : List Stmt} (hsync : ∀ stmt ∈ sync, stmt.Sized M₁)
    {valueWord : Option Wire} (hvalue : ∀ w ∈ valueWord, M₁.width w = .ok d.packing.width)
    {staged : List (Option StagedSymbol)} (hstaged : List.Forall₂ (HoldsSymbol M₁) d.fields staged)
    {bodies : List (List Stmt)} (hbodies : (d.fields.zip staged).mapM
      (fun (f, staged) => f.stagedBody .statements d.packer d.matrix staged valueWord) = .ok bodies) :
    Extends M (addStages M₁ clock sync bodies.flatten) := by
  obtain ⟨-, hmatrix, hprocesses, -⟩ := hgrows.frame
  have hcarries : ∀ w ∈ valueWord, M₁.Carries d.packing.width w := fun w hw =>
    ⟨_, hvalue w hw, Nat.le_refl _, Nat.lt_of_le_of_lt h.valueWord h.width_lt⟩
  refine ⟨M₁, [.clocked clock (.ofBody "cwdecode_sync" sync), .comb (.ofBody "cwdecode_comb" bodies.flatten) []],
    hgrows, ?_, ?_⟩
  · rw [← hprocesses, ← processes_addStages]
    rfl
  · simp only [List.forall_mem_cons, List.not_mem_nil, false_imp_iff, implies_true, and_true]
    refine ⟨.clocked hsync hclock, .comb (fun stmt hstmt => ?_) (by simp)⟩
    obtain ⟨body, hbody, hstmt⟩ := List.mem_flatten.mp hstmt
    obtain ⟨⟨f, s⟩, hmem, hbody⟩ := exists_of_mem_mapM hbodies hbody
    exact stagedBody_sized h hv hpos (hmatrix.trans hM) hcarries (List.of_mem_zip hmem).1
      (List.forall₂_zip hstaged hmem) hbody stmt hstmt

include hcw in
theorem addStagedDecoder_sized {second : Bool} (hadd : d.addStagedDecoder second M cw = .ok M') :
    Extends M M' := by
  rw [addStagedDecoder_eq] at hadd
  obtain ⟨⟨clock, M₀⟩, hclock, hadd⟩ := bind_eq_ok_iff.mp hadd
  obtain ⟨⟨valueWord, valueStmts, M₁⟩, hvalue, hadd⟩ := bind_eq_ok_iff.mp hadd
  obtain ⟨⟨staged, symbolStmts, M₂⟩, hstaged, hadd⟩ := bind_eq_ok_iff.mp hadd
  have hgrows₀ : M.Grows M₀ := .allocate (by decide) hclock
  have hwidth := DecoderModule.width_allocate hclock
  have hcw₀ : M₀.Carries d.packing.width cw := by
    obtain ⟨n, hn, hle, hlt⟩ := hcw.mono hgrows₀
    exact ⟨n, hn, Nat.le_trans h.valueWord hle, hlt⟩
  obtain ⟨hgrows₁, hvalueStmts, hvalueWord⟩ := syncValueWord_sized h hcw₀ hvalue
  obtain ⟨hgrows₂, hsymbolStmts, hsymbols⟩ :=
    syncFields_sized h (List.Subset.refl _) (hcw.mono (hgrows₀.trans hgrows₁)) hstaged
  have hsync : ∀ stmt ∈ valueStmts ++ symbolStmts, stmt.Sized M₂ :=
    List.forall_mem_append.mpr ⟨sized_grows hgrows₂ hvalueStmts, hsymbolStmts⟩
  have hgrows := hgrows₁.trans hgrows₂
  have hword : ∀ w ∈ valueWord, M₂.width w = .ok d.packing.width :=
    fun w hw => hgrows₂.width_eq (hvalueWord w hw)
  cases second with
  | false =>
      obtain ⟨_, ⟨⟩, hadd⟩ := bind_eq_ok_iff.mp hadd
      obtain ⟨bodies, hbodies, hadd⟩ := bind_eq_ok_iff.mp hadd
      cases hadd
      exact addStages_extends h hv hpos hM (hgrows₀.trans hgrows) (hgrows.width_eq hwidth)
        (by rw [List.append_nil]; exact hsync) hword hsymbols hbodies
  | true =>
      obtain ⟨⟨w, delayValue, M₃⟩, hvalue', hadd⟩ := bind_eq_ok_iff.mp hadd
      obtain ⟨⟨s, delaySymbols, M₄⟩, hstaged', hadd⟩ := bind_eq_ok_iff.mp hadd
      obtain ⟨_, ⟨⟩, hadd⟩ := bind_eq_ok_iff.mp hadd
      obtain ⟨bodies, hbodies, hadd⟩ := bind_eq_ok_iff.mp hadd
      cases hadd
      obtain ⟨hgrows₃, hstmts, hw⟩ := registerValueWord_sized h hword hvalue'
      obtain ⟨hgrows₄, hstmts', hs⟩ :=
        registerFields_sized (hsymbols.imp fun f s hs => hs.mono hgrows₃) hstaged'
      have hgrows' := hgrows.trans (hgrows₃.trans hgrows₄)
      refine addStages_extends h hv hpos hM (hgrows₀.trans hgrows') (hgrows'.width_eq hwidth) ?_
        (fun w' hw' => hgrows₄.width_eq (hw w' hw')) hs hbodies
      simp only [List.forall_mem_append] at hsync ⊢
      exact ⟨⟨sized_grows (hgrows₃.trans hgrows₄) hsync.1, sized_grows (hgrows₃.trans hgrows₄) hsync.2⟩,
        sized_grows hgrows₄ hstmts, hstmts'⟩

include hcw in
theorem addDecoder_sized {mode : DecoderMode} {d' : Design} (hadd : d.addDecoder mode M cw = .ok (d', M')) :
    Extends M M' := by
  obtain ⟨-, -, hadd⟩ := bind_eq_ok_iff.mp hadd
  cases mode with
  | combinational =>
      obtain ⟨M₁, hM₁, ⟨⟩⟩ := bind_eq_ok_iff.mp hadd
      exact addCombDecoder_sized h hv hpos hM hcw hM₁
  | staged =>
      obtain ⟨M₁, hM₁, ⟨⟩⟩ := bind_eq_ok_iff.mp hadd
      exact addStagedDecoder_sized h hv hpos hM hcw hM₁
  | registered =>
      obtain ⟨M₁, hM₁, ⟨⟩⟩ := bind_eq_ok_iff.mp hadd
      exact addStagedDecoder_sized h hv hpos hM hcw hM₁

end

/-- In every mode there is a decoder: one process, or one to register and one to decode. -/
theorem exists_decoderModule (h : LaysOut m d) (hv : m.validate = .ok ())
    (hpos : ∀ s ∈ m.signals, 0 < s.width) (g : NameGenerator) (mode : DecoderMode) :
    ∃ M, Program.decoderModule g d mode = .ok M ∧ M.processes.map (fun p => p.procedure.name) =
      (if mode.isStaged then ["cwdecode_sync", "cwdecode_comb"] else ["cwdecode"]) := by
  by_cases hmode : mode = .combinational
  · obtain ⟨M, body, hM, hprocesses, -⟩ := combModule_ok h hv g
    refine ⟨M, hmode ▸ hM, ?_⟩
    rw [hprocesses, hmode]
    rfl
  · obtain ⟨M, clock, sync, out, hM, hprocesses, -⟩ := stagedModule_ok h hv hpos g hmode
    refine ⟨M, hM, ?_⟩
    rw [hprocesses, DecoderMode.isStaged, if_pos (bne_iff_ne.mpr hmode)]
    rfl

/-- The decoder module extends the module that has only the control word as input, and all its
processes are sized. -/
theorem decoderModule_sized (h : LaysOut m d) (hv : m.validate = .ok ())
    (hpos : ∀ s ∈ m.signals, 0 < s.width) {g : NameGenerator} {mode : DecoderMode}
    (hM : Program.decoderModule g d mode = .ok M) :
    ∃ M₀, (DecoderModule.ofMatrix g m).allocate .input "cw" (max d.width 1) = .ok (.inner 0, M₀) ∧
      Extends M₀ M ∧ ∀ p ∈ M.processes, p.Sized M := by
  obtain ⟨⟨cw, M₀⟩, hcw, hM⟩ := bind_eq_ok_iff.mp hM
  obtain ⟨⟨d', M₁⟩, hadd, hM⟩ := bind_eq_ok_iff.mp hM
  cases hM
  rw [h.matrix] at hcw
  obtain ⟨-, rfl, hM₀⟩ := DecoderModule.allocate_eq_ok_iff.mp hcw
  have hlimit : 1 < Width.limit := by decide
  have hcarries : M₀.Carries d.width (.inner 0) :=
    ⟨_, DecoderModule.width_allocate hcw, Nat.le_max_left _ _, Nat.max_lt.mpr ⟨h.width_lt, hlimit⟩⟩
  have hextends : Extends M₀ M :=
    addDecoder_sized h hv hpos (congrArg DecoderModule.matrix hM₀) hcarries hadd
  exact ⟨M₀, hcw, hextends, hextends.sized (congrArg DecoderModule.processes hM₀)⟩

/-- In every mode the decoder of a valid matrix has one process, or one to register and one to decode.
The control word comes in on a wire of its width, at least one bit.  All widths in the processes
agree, the switches are complete and unambiguous, and the module can be written. -/
theorem decoder_well_sized {m : FlowMatrix} (hv : m.validate = .ok ())
    (hfit : m.laneBits + m.selectorBits < Width.limit) (hpos : ∀ s ∈ m.signals, 0 < s.width) (bound : Nat)
    (g : NameGenerator) (mode : DecoderMode) :
    ∃ d report M, (compute m bound).result = .ok (d, report) ∧ Program.decoderModule g d mode = .ok M ∧
      M.processes.map (fun p => p.procedure.name) =
        (if mode.isStaged then ["cwdecode_sync", "cwdecode_comb"] else ["cwdecode"]) ∧
      M.width (.inner 0) = .ok (max d.width 1) ∧ (∀ p ∈ M.processes, p.Sized M) ∧
      ∃ text, M.text = .ok text := by
  obtain ⟨d, report, hcompute, h⟩ := compute_ok hv hfit bound
  obtain ⟨M, hM, hnames⟩ := exists_decoderModule h hv hpos g mode
  obtain ⟨M₀, hM₀, hextends, hsized⟩ := decoderModule_sized h hv hpos hM
  exact ⟨d, report, M, hcompute, hM, hnames, hextends.enlarges.width_eq (DecoderModule.width_allocate hM₀), hsized,
    DecoderModule.text_ok hsized⟩

theorem decoder_well_sized_mixed : ∃ d report M, (compute .mixed 6).result = .ok (d, report) ∧
    Program.decoderModule .counting d .registered = .ok M ∧
    M.processes.map (fun p => p.procedure.name) = ["cwdecode_sync", "cwdecode_comb"] ∧
    M.width (.inner 0) = .ok (max d.width 1) ∧ (∀ p ∈ M.processes, p.Sized M) ∧ ∃ text, M.text = .ok text :=
  decoder_well_sized (m := .mixed) (by decide) (by decide) (by decide) 6 .counting .registered

end Design

end ControlStore
