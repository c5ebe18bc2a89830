import ControlStore.Program
import ControlStore.Proofs.CombDecoder
import ControlStore.Proofs.Pipelines
import Mathlib.Data.List.Forall2

/-! # Staged decoders

A staged decoder registers the value word and the symbol of every field.  Both registers are chains
of the same length, so they always show the same control word, the zero word at first, and the
combinational part drives what that word stands for (`Design.stagedBody_ok`).  A staged decoder is
therefore the combinational one, delayed by its latency (`Design.stagedModule_ok`). -/

namespace ControlStore

open NatMap (tabulate)
open ControlWord

/-! ### One-hot symbols -/

namespace Bits

/-- The one-hot literal of an index that fits. -/
def oneHotOf (index width : Nat) : Bits :=
  match oneHot index width with
  | .ok bits => bits
  | .error _ => .zero width

theorem oneHot_eq_ok {index width : Nat} (h : index < width) :
    oneHot index width = .ok (oneHotOf index width) := by
  unfold oneHotOf oneHot
  rw [dif_pos h]

theorem value_oneHotOf {index width : Nat} (h : index < width) :
    (oneHotOf index width).value = 2 ^ index := by
  unfold oneHotOf oneHot
  rw [dif_pos h]
  exact twoPow_eq index

theorem oneHotOf_inj {i j width : Nat} (hi : i < width) (hj : j < width)
    (h : oneHotOf i width = oneHotOf j width) : i = j := by
  have hpow : 2 ^ i = 2 ^ j := by
    rw [← value_oneHotOf hi, h, value_oneHotOf hj]
  exact (Nat.pow_right_inj (by decide)).mp hpow

theorem oneHotOf_ne_zero {index width : Nat} (h : index < width) : oneHotOf index width ≠ zero width := by
  intro heq
  have hpos := Nat.two_pow_pos index
  rw [← value_oneHotOf h, heq] at hpos
  exact Nat.lt_irrefl 0 hpos

end Bits

/-- What the symbol register of a field takes from a control word. -/
def MicroField.symbolDatum (f : MicroField) (word : ControlWord) : Datum :=
  if word.field f.offset f.width < f.table.count then
    .value (.oneHotOf (word.field f.offset f.width) f.table.count)
  else .unknown f.table.count

namespace Design

/-- What the register of the value word takes from a control word. -/
def valueDatum (d : Design) (word : ControlWord) : Datum :=
  .value (word.fieldBits 0 d.packing.width)

theorem valueDatum_zeros (d : Design) :
    d.valueDatum (.zeros d.width) = .value (.zero d.packing.width) :=
  congrArg Datum.value (Bits.eq_of_width_value rfl ((value_fieldBits _ _ _).trans (field_zeros _ _ _)))

/-- The register of the value word shows `word`. -/
def ShowsValue (d : Design) (regs : Registers) (word : ControlWord) (wire : Option Wire) : Prop :=
  (d.packing.width = 0 ∧ wire = none) ∨
    ∃ i, wire = some (.inner i) ∧ regs i = d.valueDatum word

/-- The symbol register of a field shows `word`; a register that holds zero shows symbol 0. -/
def ShowsSymbol (regs : Registers) (word : ControlWord) (f : MicroField) (wire : Option Wire) : Prop :=
  (f.table.count = 1 ∧ wire = none) ∨
    ∃ i, wire = some (.inner i) ∧ (regs i = f.symbolDatum word ∨
      (regs i = .value (.zero f.table.count) ∧ word.field f.offset f.width = 0))

/-- The cases for the symbol register of a field: zero stands for symbol 0. -/
def stagedCases (d : Design) (wire : Wire) (neutral : Contents) (f : MicroField) :
    List (Bits × List Stmt) :=
  (.zero f.table.count, d.contentStmts wire neutral) ::
    d.symbolCases wire (fun symbol => .oneHotOf symbol f.table.count) f

variable {m : FlowMatrix} {d : Design}

/-! ### Decoding from the registers -/

section
variable (h : LaysOut m d)
include h

theorem packing_width_pos (hpos : ∀ s ∈ m.signals, 0 < s.width) {t : SignalId}
    (hv : m.validate = .ok ()) (hraw : m.carriesRaw t = true) : 0 < d.packing.width := by
  have hdeclared :=
    FlowMatrix.declared_of_mem_targets hv (FlowMatrix.mem_targets_of_carriesRaw hraw)
  obtain ⟨signal, hsignal, hwidth, -⟩ := FlowMatrix.signal_eq_ok hdeclared
  have := hpos signal (List.mem_of_getElem? (fetch_eq_ok_iff.mp hsignal))
  have := laneOf_le h hraw
  omega

omit h in
theorem carriesValue_of_register {regs : Registers} {word : ControlWord} {i : LocalId}
    (hregs : regs i = d.valueDatum word) : d.CarriesValue regs (.inner i) word := by
  intro offset width hle
  show (regs i).slice offset width = _
  rw [hregs]
  unfold valueDatum Datum.slice
  refine congrArg Datum.value (Bits.eq_of_width_value rfl ?_)
  rw [Bits.value_ofNat, value_fieldBits, value_fieldBits, field_of_low word hle]

theorem storesOf_stagedCases {regs : Registers} {word : ControlWord} {wire : Wire}
    (hwire : ∀ t, m.carriesRaw t = true → d.CarriesValue regs wire word) {f : MicroField}
    (hf : f ∈ d.fields) {symbol : Datum} (hsymbol : symbol = f.symbolDatum word ∨
      (symbol = .value (.zero f.table.count) ∧ word.field f.offset f.width = 0)) :
    storesOfCases regs symbol (f.table.targets.map fun t => (.design t, .unknown (d.matrix.widthOf t)))
      (d.stagedCases wire (tabulate m.neutralContent f.table.targets) f) = f.outputs d word := by
  unfold stagedCases
  rw [storesOfCases]
  rcases hsymbol with rfl | ⟨rfl, hzero⟩
  · unfold MicroField.symbolDatum
    by_cases hlt : word.field f.offset f.width < f.table.count
    · have hne : ¬ Datum.value (.oneHotOf (word.field f.offset f.width) f.table.count) =
          .value (.zero f.table.count) := fun heq => Bits.oneHotOf_ne_zero hlt (Datum.value.inj heq)
      rw [if_pos hlt, if_neg hne, outputs_of_getElem? (List.getElem?_eq_getElem hlt)]
      exact storesOf_symbolCases h hwire hf (fun i hi j hj => Bits.oneHotOf_inj hi hj)
        (List.getElem?_eq_getElem hlt)
    · rw [if_neg hlt, if_neg Datum.noConfusion, outputs_of_count_le (Nat.not_lt.mp hlt)]
      exact storesOfCases_of_not_mem fun _ _ => Datum.noConfusion
  · have hget := (h.numbers f hf).values_zero
    rw [← hzero] at hget
    rw [if_pos rfl, storesOf_contentStmts h hwire List.mem_cons_self, outputs_of_getElem? hget]

/-- The combinational part of a staged decoder drives what its registers show.  A lane is read only if there is
one, and then the value word has bits. -/
theorem stagedBody_ok (hv : m.validate = .ok ()) (hpos : ∀ s ∈ m.signals, 0 < s.width) {f : MicroField}
    (hf : f ∈ d.fields) {staged : Option StagedSymbol} {valueWord : Option Wire}
    (hstaged : staged = none → f.table.count = 1) (hvalue : valueWord = none → d.packing.width = 0) :
    ∃ body, f.stagedBody .statements d.packer d.matrix staged valueWord = .ok body ∧
      ∀ (regs : Registers) (word : ControlWord), d.ShowsValue regs word valueWord →
        ShowsSymbol regs word f (staged.map StagedSymbol.decoded) →
        storesOf regs body = f.outputs d word := by
  have hwire : ∀ t, m.carriesRaw t = true → valueWord = some (valueWord.getD (.inner 0)) := by
    intro t hraw
    have := packing_width_pos h hpos hv hraw
    cases valueWord with
    | none => exact absurd (hvalue rfl) (by omega)
    | some wire => rfl
  have hcarries : ∀ {regs : Registers} {word : ControlWord}, d.ShowsValue regs word valueWord →
      ∀ t, m.carriesRaw t = true → d.CarriesValue regs (valueWord.getD (.inner 0)) word := by
    intro regs word hshows t hraw
    have := packing_width_pos h hpos hv hraw
    rcases hshows with ⟨hzero, -⟩ | ⟨i, rfl, hregs⟩
    · omega
    · exact carriesValue_of_register hregs
  have hzero := storeContents_eq_ok h hwire (c := m.neutralContent) List.mem_cons_self f.table.targets
  unfold MicroField.stagedBody
  rw [(h.numbers f hf).contents_zero, ok_bind]
  cases staged with
  | none =>
      refine ⟨_, hzero, fun regs word hshows _ => ?_⟩
      rw [storesOf_contentStmts h (hcarries hshows) List.mem_cons_self,
        outputs_of_getElem? (getElem?_of_count_eq_one h hf (hstaged rfl) word)]
  | some st =>
      refine ⟨[.switch (.read st.decoded)
        (d.stagedCases (valueWord.getD (.inner 0)) (tabulate m.neutralContent f.table.targets) f)
        (some (d.unknownStmts f))], ?_, ?_⟩
      · dsimp only
        rw [hzero, ok_bind, mapM_symbolCases h hwire hf fun _ hlt => Bits.oneHot_eq_ok hlt, ok_bind,
          storeUnknown_eq_ok h hv hf]
        rfl
      · intro regs word hshows hsymbol
        rw [storesOf_switch, storesOf_unknown]
        rcases hsymbol with ⟨-, hnone⟩ | ⟨i, hi, hregs⟩
        · exact absurd hnone (Option.some_ne_none _)
        · obtain hdecoded : st.decoded = .inner i := Option.some.inj hi
          rw [hdecoded]
          exact storesOf_stagedCases h (hcarries hshows) hf hregs

end

/-! ### The first registers -/

/-- A wire that carries the value word of the control word `k` edges ago. -/
def RegistersValue (d : Design) (cw : LocalId) (widths : List Nat) (sync : List Stmt) (k : Nat)
    (wire : Option Wire) : Prop :=
  Registered (d.packing.width = 0) cw widths sync (fun b => d.valueDatum ⟨d.width, b.value⟩)
    d.packing.width k wire

/-- A wire that carries the symbol of a field in the control word `k` edges ago. -/
def RegistersSymbol (d : Design) (cw : LocalId) (widths : List Nat) (sync : List Stmt) (k : Nat)
    (f : MicroField) (wire : Option Wire) : Prop :=
  Registered (f.table.count = 1) cw widths sync (fun b => f.symbolDatum ⟨d.width, b.value⟩)
    f.table.count k wire

variable {cw : LocalId} {sync : List Stmt} {k : Nat} {M : DecoderModule}

theorem syncValueWord_ok (hpacked : d.packer.packing = some d.packing) (cw : LocalId) (M : DecoderModule) :
    ∃ wire stmts M',
    d.syncValueWord .statements M (.inner cw) = .ok (wire, stmts, M') ∧ Block cw M stmts M' ∧
      d.RegistersValue cw M'.widths stmts 1 wire := by
  unfold syncValueWord
  rw [Packer.width_eq_ok hpacked, ok_bind]
  by_cases hzero : d.packing.width = 0
  · exact ⟨none, [], M, if_pos hzero, .refl cw M, Or.inl ⟨hzero, rfl⟩⟩
  · obtain ⟨M', hM', hwidths, hprocesses⟩ :=
      DecoderModule.allocate_ok (Nat.pos_of_ne_zero hzero) .plain "D1_CW" M
    have hstores : ∀ (regs : Registers) (b : Bits), regs cw = .value b →
        storesOf regs [.store (.inner M.widths.length) (.slice (.inner cw) 0 d.packing.width)] =
          [(.inner M.widths.length, d.valueDatum ⟨d.width, b.value⟩)] := by
      intro regs b hcw
      show [(Wire.inner M.widths.length, (regs cw).slice 0 d.packing.width)] = _
      rw [hcw]
      rfl
    refine ⟨some (.inner M.widths.length), _, M', ?_,
      .single hwidths hprocesses fun regs b hcw => ⟨_, hstores regs b hcw⟩,
      Or.inr ⟨hzero, _, rfl, .first hwidths hstores⟩⟩
    dsimp only
    rw [if_neg hzero, hM']
    rfl

theorem storesOf_syncCases {regs : Registers} {b : Bits} (hcw : regs cw = .value b) (d : Design)
    (f : MicroField) (dst : Wire) :
    storesOf regs [.switch (.slice (.inner cw) f.offset f.width)
      ((List.range f.table.count).map fun symbol =>
        (f.label symbol, [.store dst (.literal (.oneHotOf symbol f.table.count))]))
      (some [.store dst (.unknown f.table.count)])] =
        [(dst, f.symbolDatum ⟨d.width, b.value⟩)] := by
  rw [storesOf_switch, eval_selector hcw (d := d)]
  unfold MicroField.symbolDatum
  by_cases hlt : (⟨d.width, b.value⟩ : ControlWord).field f.offset f.width < f.table.count
  · rw [if_pos hlt, (MicroField.fieldBits_eq_label_iff hlt).mpr rfl]
    refine (storesOfCases_of_mem (List.mem_map.mpr ⟨_, List.mem_range.mpr hlt, rfl⟩) ?_).trans rfl
    rw [List.map_map]
    refine List.Nodup.map_on (fun i hi j hj hij => ?_) List.nodup_range
    exact MicroField.label_inj (List.mem_range.mp hi) (List.mem_range.mp hj) hij
  · rw [if_neg hlt]
    refine (storesOfCases_of_not_mem fun c hc heq => hlt ?_).trans rfl
    obtain ⟨symbol, hsymbol, rfl⟩ := List.mem_map.mp hc
    rw [(MicroField.fieldBits_eq_label_iff (List.mem_range.mp hsymbol)).mp (Datum.value.inj heq)]
    exact List.mem_range.mp hsymbol

theorem syncBody_ok {f : MicroField} (hcount : 0 < f.table.count) (d : Design) (cw : LocalId)
    (M : DecoderModule) : ∃ staged stmts M', f.syncBody .statements M (.inner cw) = .ok (staged, stmts, M') ∧
      Block cw M stmts M' ∧ (∀ st, staged = some st → st.delayed = none) ∧
      d.RegistersSymbol cw M'.widths stmts 1 f (staged.map StagedSymbol.symbol) := by
  unfold MicroField.syncBody
  by_cases hone : f.table.count = 1
  · exact ⟨none, [], M, if_pos hone, .refl cw M, by simp, Or.inl ⟨hone, rfl⟩⟩
  · obtain ⟨M', hM', hwidths, hprocesses⟩ :=
      DecoderModule.allocate_ok hcount .plain s!"MUXSymbol{f.order}" M
    refine ⟨some ⟨.inner M.widths.length, none⟩, _, M', ?_,
      .single hwidths hprocesses fun regs b hcw => ⟨_, storesOf_syncCases hcw d f _⟩, ?_,
      Or.inr ⟨hone, _, rfl, .first hwidths fun regs b hcw => storesOf_syncCases hcw d f _⟩⟩
    · dsimp only
      rw [if_neg hone, hM', ok_bind]
      dsimp only
      rw [mapM_eq_ok_map (g := fun symbol => (f.label symbol,
        [.store (.inner M.widths.length) (.literal (.oneHotOf symbol f.table.count))])) fun symbol hs => ?_]
      · rfl
      · rw [MicroField.selector_eq_ok (List.mem_range.mp hs), ok_bind,
          Bits.oneHot_eq_ok (List.mem_range.mp hs)]
        rfl
    · rintro st ⟨⟩
      rfl

/-- The first registers of the symbols of all fields. -/
theorem syncFields_ok {fields : List MicroField} (hcount : ∀ f ∈ fields, 0 < f.table.count) (d : Design)
    (cw : LocalId) (M : DecoderModule) : ∃ staged stmts M',
      syncFields .statements M (.inner cw) fields = .ok (staged, stmts, M') ∧ Block cw M stmts M' ∧
      List.Forall₂ (fun f s => (∀ st, s = some st → st.delayed = none) ∧
        d.RegistersSymbol cw M'.widths stmts 1 f (s.map StagedSymbol.symbol)) fields staged := by
  induction fields generalizing M with
  | nil => exact ⟨[], [], M, rfl, .refl cw M, .nil⟩
  | cons f fields ih =>
      obtain ⟨hf, hfields⟩ := List.forall_mem_cons.mp hcount
      obtain ⟨s, stmts, M₁, hsync, hblock, hundelayed, hregisters⟩ := syncBody_ok hf d cw M
      obtain ⟨staged, more, M₂, hsyncs, hblocks, hall⟩ := ih hfields M₁
      refine ⟨s :: staged, stmts ++ more, M₂, ?_, hblock.append hblocks, .cons ⟨hundelayed, ?_⟩ ?_⟩
      · rw [syncFields, hsync, ok_bind]
        dsimp only
        rw [hsyncs]
        rfl
      · exact hregisters.mono hblocks.widths (List.subset_append_left _ _)
      · exact hall.imp fun f s hs => ⟨hs.1, hs.2.mono List.prefix_rfl (List.subset_append_right _ _)⟩

/-! ### The second registers -/

theorem registerValueWord_ok (hpacked : d.packer.packing = some d.packing) {wire : Option Wire}
    (h : d.RegistersValue cw M.widths sync k wire) :
    ∃ wire' stmts M', d.registerValueWord .statements M wire = .ok (wire', stmts, M') ∧ Block cw M stmts M' ∧
      d.RegistersValue cw M'.widths (sync ++ stmts) (k + 1) wire' := by
  rcases h with ⟨hzero, rfl⟩ | ⟨hpos, i, rfl, hdelays⟩
  · exact ⟨none, [], M, rfl, .refl cw M, Or.inl ⟨hzero, rfl⟩⟩
  · obtain ⟨M', hM', hwidths, hprocesses⟩ :=
      DecoderModule.allocate_ok (Nat.pos_of_ne_zero hpos) .plain "D2_CW" M
    refine ⟨some (.inner M.widths.length), _, M', ?_, .single hwidths hprocesses fun regs b hcw => ⟨_, rfl⟩,
      Or.inr ⟨hpos, _, rfl, hdelays.register hwidths⟩⟩
    rw [registerValueWord, Packer.width_eq_ok hpacked, ok_bind, hM']
    rfl

theorem registerBody_ok {f : MicroField} (hcount : 0 < f.table.count) {st : StagedSymbol}
    (h : d.RegistersSymbol cw M.widths sync k f (some st.symbol)) : ∃ st' stmts M',
      f.registerBody .statements M st = .ok (st', stmts, M') ∧ Block cw M stmts M' ∧
      d.RegistersSymbol cw M'.widths (sync ++ stmts) (k + 1) f (some st'.decoded) := by
  rcases h with ⟨-, hnone⟩ | ⟨hmany, i, hwire, hdelays⟩
  · exact absurd hnone (Option.some_ne_none _)
  · obtain ⟨M', hM', hwidths, hprocesses⟩ :=
      DecoderModule.allocate_ok hcount .plain s!"MUXReg{f.order}" M
    obtain hsymbol : st.symbol = .inner i := Option.some.inj hwire
    refine ⟨{ st with delayed := some (.inner M.widths.length) }, _, M', ?_,
      .single hwidths hprocesses fun regs b hcw => ⟨_, rfl⟩,
      Or.inr ⟨hmany, _, rfl, hdelays.register hwidths⟩⟩
    unfold MicroField.registerBody
    rw [hM', ← hsymbol]
    rfl

/-- The second registers of the symbols of all fields. -/
theorem registerFields_ok {fields : List MicroField} {staged : List (Option StagedSymbol)}
    (hcount : ∀ f ∈ fields, 0 < f.table.count) (h : List.Forall₂ (fun f s =>
      d.RegistersSymbol cw M.widths sync k f (s.map StagedSymbol.symbol)) fields staged) :
    ∃ staged' stmts M', registerFields .statements M (fields.zip staged) = .ok (staged', stmts, M') ∧
      Block cw M stmts M' ∧ List.Forall₂ (fun f s =>
        d.RegistersSymbol cw M'.widths (sync ++ stmts) (k + 1) f (s.map StagedSymbol.decoded))
        fields staged' := by
  induction fields generalizing staged M with
  | nil =>
      cases h
      exact ⟨[], [], M, rfl, .refl cw M, .nil⟩
  | cons f fields ih =>
      obtain ⟨hf, hfields⟩ := List.forall_mem_cons.mp hcount
      cases h with
      | @cons _ s _ rest hs hrest =>
          cases s with
          | none =>
              obtain ⟨staged', more, M₂, hmore, hblocks, hall⟩ := ih hfields hrest
              refine ⟨none :: staged', more, M₂, ?_, hblocks, .cons (Or.inl ⟨hs.absent_of_none, rfl⟩) hall⟩
              rw [List.zip_cons_cons, registerFields, hmore]
              rfl
          | some st =>
              obtain ⟨st', stmts, M₁, hstmts, hblock, hregisters⟩ := registerBody_ok hf hs
              obtain ⟨staged', more, M₂, hmore, hblocks, hall⟩ :=
                ih hfields (hrest.imp fun f s hs => hs.mono hblock.widths (List.Subset.refl _))
              have hhead : sync ++ stmts ⊆ sync ++ (stmts ++ more) :=
                ((List.sublist_append_left _ _).append_left _).subset
              have htail : sync ++ more ⊆ sync ++ (stmts ++ more) :=
                ((List.sublist_append_right _ _).append_left _).subset
              refine ⟨some st' :: staged', stmts ++ more, M₂, ?_, hblock.append hblocks,
                .cons (hregisters.mono hblocks.widths hhead)
                  (hall.imp fun f s hs => hs.mono List.prefix_rfl htail)⟩
              rw [List.zip_cons_cons, registerFields, hstmts, ok_bind]
              dsimp only
              rw [hmore]
              rfl

theorem map_decoded {s : Option StagedSymbol} (h : ∀ st, s = some st → st.delayed = none) :
    s.map StagedSymbol.decoded = s.map StagedSymbol.symbol := by
  cases s with
  | none => rfl
  | some st =>
      rw [Option.map_some, Option.map_some, StagedSymbol.decoded, h st rfl]
      rfl

/-! ### What the registers show -/

/-- The control word that a chain of `k` registers shows after `n` edges. -/
def shownWord (d : Design) (k : Nat) (words : Nat → Bits) (n : Nat) : ControlWord :=
  ⟨d.width, if n < k then 0 else (words (n - k)).value⟩

section
variable {M₀ : DecoderModule} (hblock : Block cw M₀ sync M) (hcw : cw < M₀.widths.length)
include hblock hcw

theorem showsValue_after {wire : Option Wire} (h : d.RegistersValue cw M.widths sync k wire)
    (words : Nat → Bits) (n : Nat) :
    d.ShowsValue (.after cw sync M.powerUp words n) (d.shownWord k words n) wire := by
  rcases h with habsent | ⟨-, i, hwire, hdelays⟩
  · exact .inl habsent
  · refine .inr ⟨i, hwire, ?_⟩
    rw [hdelays.after_eq hblock hcw]
    unfold shownWord
    by_cases hlt : n < k
    · rw [if_pos hlt, if_pos hlt]
      exact (valueDatum_zeros d).symm
    · rw [if_neg hlt, if_neg hlt]

theorem showsSymbol_after {f : MicroField} {wire : Option Wire}
    (h : d.RegistersSymbol cw M.widths sync k f wire) (words : Nat → Bits) (n : Nat) :
    ShowsSymbol (.after cw sync M.powerUp words n) (d.shownWord k words n) f wire := by
  rcases h with habsent | ⟨-, i, hwire, hdelays⟩
  · exact .inl habsent
  · refine .inr ⟨i, hwire, ?_⟩
    rw [hdelays.after_eq hblock hcw]
    unfold shownWord
    by_cases hlt : n < k
    · rw [if_pos hlt, if_pos hlt]
      exact .inr ⟨rfl, field_zeros d.width f.offset f.width⟩
    · rw [if_neg hlt, if_neg hlt]
      exact .inl rfl

end

/-! ### The whole decoder -/

/-- The module with the two processes of a staged decoder. -/
def addStages (M : DecoderModule) (clock : Wire) (sync out : List Stmt) : DecoderModule :=
  (M.addProcess (.clocked clock (.ofBody "cwdecode_sync" sync))).addProcess
    (.comb (.ofBody "cwdecode_comb" out) [])

theorem processes_addStages (M : DecoderModule) (clock : Wire) (sync out : List Stmt) :
    (addStages M clock sync out).processes = M.processes ++
      [.clocked clock (.ofBody "cwdecode_sync" sync), .comb (.ofBody "cwdecode_comb" out) []] :=
  List.append_assoc _ _ _

section
variable (h : LaysOut m d) (hv : m.validate = .ok ()) (hpos : ∀ s ∈ m.signals, 0 < s.width)
include h hv hpos

theorem stagedBodies_ok {valueWord : Option Wire} (hvalue : d.RegistersValue cw M.widths sync k valueWord)
    {fields : List MicroField} {staged : List (Option StagedSymbol)} (hsub : fields ⊆ d.fields)
    (hstaged : List.Forall₂ (fun f s =>
      d.RegistersSymbol cw M.widths sync k f (s.map StagedSymbol.decoded)) fields staged) :
    ∃ bodies, (fields.zip staged).mapM (fun e => e.1.stagedBody .statements d.packer d.matrix e.2 valueWord) =
        .ok bodies ∧
      ∀ (regs : Registers) (word : ControlWord), d.ShowsValue regs word valueWord →
        List.Forall₂ (fun f s => ShowsSymbol regs word f (s.map StagedSymbol.decoded)) fields staged →
        storesOf regs bodies.flatten = fields.flatMap (MicroField.outputs d word) := by
  induction hstaged with
  | nil => exact ⟨[], rfl, fun regs word _ _ => rfl⟩
  | @cons f s fields staged hs _ ih =>
      obtain ⟨hf, hfields⟩ := List.cons_subset.mp hsub
      have hnone : s = none → f.table.count = 1 := by
        rintro rfl
        exact hs.absent_of_none
      have hzero : valueWord = none → d.packing.width = 0 := by
        rintro rfl
        exact hvalue.absent_of_none
      obtain ⟨body, hbody, hstores⟩ := stagedBody_ok h hv hpos hf hnone hzero
      obtain ⟨bodies, hbodies, hall⟩ := ih hfields
      refine ⟨body :: bodies, ?_, fun regs word hshows hsymbols => ?_⟩
      · rw [List.zip_cons_cons, List.mapM_cons, hbody, ok_bind, hbodies]
        rfl
      · obtain ⟨hsymbol, hsymbols⟩ := List.forall₂_cons.mp hsymbols
        rw [List.flatten_cons, storesOf_append, List.flatMap_cons, hstores regs word hshows hsymbol,
          hall regs word hshows hsymbols]

theorem storesOf_stagedBodies {M₀ : DecoderModule} (hblock : Block cw M₀ sync M)
    (hcw : cw < M₀.widths.length) {valueWord : Option Wire}
    (hvalue : d.RegistersValue cw M.widths sync k valueWord) {staged : List (Option StagedSymbol)}
    (hstaged : List.Forall₂ (fun f s =>
      d.RegistersSymbol cw M.widths sync k f (s.map StagedSymbol.decoded)) d.fields staged) :
    ∃ bodies, (d.fields.zip staged).mapM (fun e => e.1.stagedBody .statements d.packer d.matrix e.2 valueWord) =
        .ok bodies ∧
      ∀ (words : Nat → Bits) (n : Nat), storesOf (.after cw sync M.powerUp words n) bodies.flatten =
        d.outputs (d.shownWord k words n) := by
  obtain ⟨bodies, hbodies, hstores⟩ := stagedBodies_ok h hv hpos hvalue (List.Subset.refl _) hstaged
  refine ⟨bodies, hbodies, fun words n => ?_⟩
  exact hstores _ _ (showsValue_after hblock hcw hvalue words n)
    (hstaged.imp fun f s hs => showsSymbol_after hblock hcw hs words n)

/-- A staged decoder drives what the control word stands for that its registers show; with one stage the first
registers are decoded from, with two their copies. -/
theorem addStagedDecoder_ok (second : Bool) (hcw : cw < M.widths.length) :
    ∃ clock sync out M', d.addStagedDecoder second M (.inner cw) = .ok M' ∧
      M'.processes = M.processes ++ [.clocked clock (.ofBody "cwdecode_sync" sync),
        .comb (.ofBody "cwdecode_comb" out) []] ∧
      ∀ (words : Nat → Bits) (n : Nat), storesOf (.after cw sync M'.powerUp words n) out =
        d.outputs (d.shownWord (if second then 2 else 1) words n) := by
  have hcount : ∀ f ∈ d.fields, 0 < f.table.count := fun f hf => (h.numbers f hf).count_pos
  obtain ⟨M₀, hclock, hwidths₀, hprocesses₀⟩ := DecoderModule.allocate_ok Nat.one_pos .clock "clk" M
  obtain ⟨valueWord, valueStmts, M₁, hsync₁, hblock₁, hvalue⟩ := syncValueWord_ok h.packed cw M₀
  obtain ⟨staged, symbolStmts, M₂, hsync₂, hblock₂, hstaged⟩ := syncFields_ok hcount d cw M₁
  have hblock : Block cw M₀ (valueStmts ++ symbolStmts) M₂ := hblock₁.append hblock₂
  have hvalue₁ : d.RegistersValue cw M₂.widths (valueStmts ++ symbolStmts) 1 valueWord :=
    hvalue.mono hblock₂.widths (List.subset_append_left _ _)
  have hlt : cw < M₀.widths.length := by
    rw [hwidths₀, List.length_append]
    exact Nat.lt_add_right 1 hcw
  rw [addStagedDecoder_eq]
  simp only [hclock, ok_bind, hsync₁, hsync₂]
  cases second with
  | false =>
      have hsymbols : List.Forall₂ (fun f s => d.RegistersSymbol cw M₂.widths (valueStmts ++ symbolStmts) 1 f
          (s.map StagedSymbol.decoded)) d.fields staged := by
        refine hstaged.imp fun f s hs => ?_
        rw [map_decoded hs.1]
        exact hs.2.mono List.prefix_rfl (List.subset_append_right _ _)
      obtain ⟨bodies, hbodies, hstores⟩ := storesOf_stagedBodies h hv hpos hblock hlt hvalue₁ hsymbols
      refine ⟨.inner M.widths.length, valueStmts ++ symbolStmts, bodies.flatten,
        addStages M₂ (.inner M.widths.length) (valueStmts ++ symbolStmts) bodies.flatten, ?_, ?_, hstores⟩
      · simp only [Bool.false_eq_true, if_false, pure_eq_ok, ok_bind, hbodies, List.append_nil]
        rfl
      · rw [processes_addStages, hblock.processes, hprocesses₀]
  | true =>
      have hsymbols : List.Forall₂ (fun f s => d.RegistersSymbol cw M₂.widths (valueStmts ++ symbolStmts) 1 f
          (s.map StagedSymbol.symbol)) d.fields staged :=
        hstaged.imp fun f s hs => hs.2.mono List.prefix_rfl (List.subset_append_right _ _)
      obtain ⟨valueWord', delayValue, M₃, hdelay₁, hblock₃, hvalue₂⟩ := registerValueWord_ok h.packed hvalue₁
      obtain ⟨staged', delaySymbols, M₄, hdelay₂, hblock₄, hsymbols₂⟩ :=
        registerFields_ok hcount (hsymbols.imp fun f s hs => hs.mono hblock₃.widths (List.Subset.refl _))
      have hblock' := hblock.append (hblock₃.append hblock₄)
      have hfirst : valueStmts ++ symbolStmts ++ delayValue ⊆
          valueStmts ++ symbolStmts ++ (delayValue ++ delaySymbols) :=
        ((List.sublist_append_left _ _).append_left _).subset
      have hsecond : valueStmts ++ symbolStmts ++ delaySymbols ⊆
          valueStmts ++ symbolStmts ++ (delayValue ++ delaySymbols) :=
        ((List.sublist_append_right _ _).append_left _).subset
      obtain ⟨bodies, hbodies, hstores⟩ := storesOf_stagedBodies h hv hpos hblock' hlt
        (hvalue₂.mono hblock₄.widths hfirst) (hsymbols₂.imp fun f s hs => hs.mono List.prefix_rfl hsecond)
      refine ⟨.inner M.widths.length, valueStmts ++ symbolStmts ++ (delayValue ++ delaySymbols),
        bodies.flatten, addStages M₄ (.inner M.widths.length)
          (valueStmts ++ symbolStmts ++ (delayValue ++ delaySymbols)) bodies.flatten, ?_, ?_, hstores⟩
      · simp only [if_true, hdelay₁, hdelay₂, pure_eq_ok, ok_bind, hbodies]
        rfl
      · rw [processes_addStages, hblock'.processes, hprocesses₀]

omit h hv hpos in
theorem exists_input (g : NameGenerator) (d : Design) : ∃ M : DecoderModule,
    (DecoderModule.ofMatrix g d.matrix).allocate .input "cw" (max d.width 1) = .ok (.inner 0, M) ∧
      0 < M.widths.length ∧ M.processes = [] := by
  have hwidth : 0 < max d.width 1 := Nat.lt_of_lt_of_le Nat.one_pos (Nat.le_max_right _ _)
  obtain ⟨M, hM, hwidths, hprocesses⟩ :=
    DecoderModule.allocate_ok hwidth .input "cw" (.ofMatrix g d.matrix)
  refine ⟨M, hM, ?_, hprocesses⟩
  rw [hwidths, List.length_append]
  exact Nat.succ_pos _

omit hpos in
theorem combModule_ok (g : NameGenerator) : ∃ comb body, Program.decoderModule g d .combinational = .ok comb ∧
    comb.processes = [.comb (.ofBody "cwdecode" body) [.inner 0]] ∧
    ∀ (regs : Registers) (b : Bits), regs 0 = .value b →
      storesOf regs body = d.outputs ⟨d.width, b.value⟩ := by
  obtain ⟨M, hM, -, hprocesses⟩ := exists_input g d
  obtain ⟨body, hbody, hstores⟩ := addCombDecoder_ok h hv M 0
  refine ⟨M.addProcess (.comb (.ofBody "cwdecode" body) [.inner 0]), body, ?_, ?_, hstores⟩
  · unfold Program.decoderModule addDecoder
    rw [hM, h.unbuilt, ok_bind]
    dsimp only
    rw [hbody]
    rfl
  · unfold DecoderModule.addProcess
    rw [hprocesses]
    rfl

theorem stagedModule_ok (g : NameGenerator) {mode : DecoderMode} (hmode : mode ≠ .combinational) :
    ∃ staged clock sync out, Program.decoderModule g d mode = .ok staged ∧
      staged.processes = [.clocked clock (.ofBody "cwdecode_sync" sync),
        .comb (.ofBody "cwdecode_comb" out) []] ∧
      ∀ (words : Nat → Bits) (n : Nat), storesOf (.after 0 sync staged.powerUp words n) out =
        d.outputs (d.shownWord mode.latency words n) := by
  obtain ⟨M, hM, hcw, hprocesses⟩ := exists_input g d
  have hadd : ∀ second, ∃ staged clock sync out, d.addStagedDecoder second M (.inner 0) = .ok staged ∧
      staged.processes = [.clocked clock (.ofBody "cwdecode_sync" sync),
        .comb (.ofBody "cwdecode_comb" out) []] ∧
      ∀ (words : Nat → Bits) (n : Nat), storesOf (.after 0 sync staged.powerUp words n) out =
        d.outputs (d.shownWord (if second then 2 else 1) words n) := by
    intro second
    obtain ⟨clock, sync, out, staged, hstaged, hprocesses', hstores⟩ :=
      addStagedDecoder_ok h hv hpos second hcw
    rw [hprocesses] at hprocesses'
    exact ⟨staged, clock, sync, out, hstaged, hprocesses', hstores⟩
  unfold Program.decoderModule addDecoder
  rw [hM, h.unbuilt, ok_bind]
  cases mode with
  | combinational => exact absurd rfl hmode
  | staged =>
      obtain ⟨staged, clock, sync, out, hstaged, hrest⟩ := hadd false
      refine ⟨staged, clock, sync, out, ?_, hrest⟩
      dsimp only
      rw [hstaged]
      rfl
  | registered =>
      obtain ⟨staged, clock, sync, out, hstaged, hrest⟩ := hadd true
      refine ⟨staged, clock, sync, out, ?_, hrest⟩
      dsimp only
      rw [hstaged]
      rfl

end

/-- A staged decoder drives after `n` clock edges what the combinational decoder drives for the control
word that came as many edges ago as the latency says, and before that what it drives for the zero
word. -/
theorem staged_decoder_delays (g : NameGenerator) {m : FlowMatrix} (hv : m.validate = .ok ())
    (hfit : m.laneBits + m.selectorBits < Width.limit) (hpos : ∀ s ∈ m.signals, 0 < s.width) (bound : Nat)
    {mode : DecoderMode} (hmode : mode ≠ .combinational) :
    ∃ d report, (compute m bound).result = .ok (d, report) ∧ ∃ comb staged body clock sync out,
      Program.decoderModule g d .combinational = .ok comb ∧
      comb.processes = [.comb (.ofBody "cwdecode" body) [.inner 0]] ∧
      Program.decoderModule g d mode = .ok staged ∧
      staged.processes = [.clocked clock (.ofBody "cwdecode_sync" sync),
        .comb (.ofBody "cwdecode_comb" out) []] ∧
      ∀ (words : Nat → Bits) (n : Nat) (regs : Registers),
        regs 0 = .value (if n < mode.latency then .zero d.width else words (n - mode.latency)) →
        storesOf (.after 0 sync staged.powerUp words n) out = storesOf regs body ∧
        ((storesOf regs body).map Prod.fst).Perm (m.targets.map .design) := by
  obtain ⟨d, report, hcompute, h⟩ := compute_ok hv hfit bound
  obtain ⟨comb, body, hcomb, hprocesses, hstores⟩ := combModule_ok h hv g
  obtain ⟨staged, clock, sync, out, hstaged, hprocesses', hstores'⟩ := stagedModule_ok h hv hpos g hmode
  refine ⟨d, report, hcompute, comb, staged, body, clock, sync, out, hcomb, hprocesses, hstaged, hprocesses',
    fun words n regs hregs => ?_⟩
  have hword : d.shownWord mode.latency words n =
      ⟨d.width, (if n < mode.latency then Bits.zero d.width else words (n - mode.latency)).value⟩ := by
    unfold shownWord
    rw [apply_ite Bits.value]
    rfl
  rw [hstores' words n, hstores regs _ hregs, hword]
  exact ⟨rfl, map_fst_outputs h _⟩

theorem staged_decoder_mixed : ∃ d report, (compute .mixed 6).result = .ok (d, report) ∧
    ∃ comb staged body clock sync out, Program.decoderModule .counting d .combinational = .ok comb ∧
      comb.processes = [.comb (.ofBody "cwdecode" body) [.inner 0]] ∧
      Program.decoderModule .counting d .registered = .ok staged ∧
      staged.processes = [.clocked clock (.ofBody "cwdecode_sync" sync),
        .comb (.ofBody "cwdecode_comb" out) []] ∧
      ∀ words : Nat → Bits, storesOf (.after 0 sync staged.powerUp words 1) out =
          storesOf (fun _ => .value (.zero d.width)) body ∧
        storesOf (.after 0 sync staged.powerUp words 5) out =
          storesOf (fun _ => .value (words 3)) body := by
  obtain ⟨d, report, hcompute, comb, staged, body, clock, sync, out, hcomb, hprocesses, hstaged, hprocesses',
    hstores⟩ := staged_decoder_delays .counting (m := .mixed) (by decide) (by decide) (by decide) 6
      (show DecoderMode.registered ≠ .combinational by decide)
  exact ⟨d, report, hcompute, comb, staged, body, clock, sync, out, hcomb, hprocesses, hstaged, hprocesses',
    fun words => ⟨(hstores words 1 _ rfl).1, (hstores words 5 _ rfl).1⟩⟩

end Design

end ControlStore
