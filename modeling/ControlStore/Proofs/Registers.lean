import ControlStore.Proofs.Allocation
import ControlStore.Proofs.SizedStatements
import ControlStore.Proofs.StagedDecoder

/-! # What the parts of a decoder touch

`Touches stmts D R` says which signals of the design the statements drive and which they read.  The
registers of a staged decoder are allocated signals that are no ports, and the statements that fill
them touch no signal of the design (`Design.Fills`); this holds for every part of the register stage,
so a staged decoder consists of a clock, such registers and the statements that decode from them
(`Design.addStagedDecoder_parts`). -/

namespace ControlStore

/-! ### Touched signals -/

/-- The statements drive the signals of the design in `D` and read those in `R`, and no others. -/
structure Touches (stmts : List Stmt) (D R : SignalId → Prop) : Prop where
  drives : ∀ s, Wire.design s ∈ drivesOf stmts ↔ D s
  reads : ∀ s, Wire.design s ∈ readsOf stmts ↔ R s

/-- The statements touch no signal of the design. -/
abbrev TouchesNothing (stmts : List Stmt) : Prop := Touches stmts (fun _ => False) fun _ => False

/-- The wire is no signal of the design. -/
def Wire.Inside (wire : Wire) : Prop := ∀ s, wire ≠ .design s

theorem Wire.inside_inner (i : LocalId) : (Wire.inner i).Inside := fun _ => Wire.noConfusion

/-- The expression reads no signal of the design. -/
def Expr.Inside (e : Expr) : Prop := ∀ wire ∈ e.wire?, wire.Inside

theorem Expr.inside_literal (bits : Bits) : (Expr.literal bits).Inside := nofun

theorem Expr.inside_unknown (width : Nat) : (Expr.unknown width).Inside := nofun

theorem Expr.inside_read {wire : Wire} (h : wire.Inside) : (Expr.read wire).Inside := by
  rintro _ ⟨⟩
  exact h

theorem Expr.inside_slice {wire : Wire} (h : wire.Inside) (lsb width : Nat) : (Expr.slice wire lsb width).Inside := by
  rintro _ ⟨⟩
  exact h

namespace Touches

variable {stmts stmts' : List Stmt} {D R D' R' : SignalId → Prop}

theorem nil : TouchesNothing [] where
  drives s := by simp [drivesOf]
  reads s := by simp [readsOf]

theorem congr (h : Touches stmts D R) (hD : ∀ s, D s ↔ D' s) (hR : ∀ s, R s ↔ R' s) : Touches stmts D' R' :=
  ⟨fun s => (h.drives s).trans (hD s), fun s => (h.reads s).trans (hR s)⟩

theorem append (h : Touches stmts D R) (h' : Touches stmts' D' R') :
    Touches (stmts ++ stmts') (fun s => D s ∨ D' s) (fun s => R s ∨ R' s) where
  drives s := by
    rw [← h.drives, ← h'.drives]
    simp only [mem_drivesOf_iff, List.mem_append, or_and_right, exists_or]
  reads s := by
    rw [← h.reads, ← h'.reads]
    simp only [mem_readsOf_iff, List.mem_append, or_and_right, exists_or]

theorem append_nothing (h : TouchesNothing stmts) (h' : TouchesNothing stmts') :
    TouchesNothing (stmts ++ stmts') :=
  (h.append h').congr (fun _ => or_self_iff) (fun _ => or_self_iff)

/-- A store from one inner wire to another. -/
theorem store_inside {dst : Wire} (hdst : dst.Inside) {src : Expr} (hsrc : src.Inside) :
    TouchesNothing [.store dst src] where
  drives s := by
    simp only [drivesOf, Stmt.drives, List.append_nil, List.mem_singleton, iff_false]
    exact fun h => hdst s h.symm
  reads s := by
    simp only [readsOf, Stmt.reads, List.append_nil, Option.mem_toList, iff_false]
    exact fun h => hsrc _ h s rfl

/-- A switch that reads its selector from an inner wire. -/
theorem switch {selector : Expr} (hselector : selector.Inside)
    {cases : List (Bits × List Stmt)} {fallback : List Stmt}
    (hcases : ∀ s, ∀ c ∈ cases, Wire.design s ∈ drivesOf c.2 → D s)
    (hreads : ∀ s, (∃ c ∈ cases, Wire.design s ∈ readsOf c.2) ↔ R s)
    (hfallback : Touches fallback D fun _ => False) :
    Touches [.switch selector cases (some fallback)] D R where
  drives s := by
    simp only [drivesOf, Stmt.drives, drivesOfFallback, List.append_nil, List.mem_append,
      mem_drivesOfCases_iff, hfallback.drives]
    refine or_iff_right_of_imp ?_
    rintro ⟨c, hc, hs⟩
    exact hcases s c hc hs
  reads s := by
    have hnot : ¬ selector.wire? = some (.design s) := fun h => hselector _ h s rfl
    simp only [readsOf, Stmt.reads, readsOfFallback, List.append_nil, List.mem_append, Option.mem_toList,
      mem_readsOfCases_iff, hfallback.reads, hnot, hreads, false_or, or_false]

end Touches

/-! ### Registers -/

/-- The stems of the names of registers. -/
inductive RegisterStem : String → Prop
  | value : RegisterStem "D1_CW"
  | delayedValue : RegisterStem "D2_CW"
  | symbol (order : Nat) : RegisterStem s!"MUXSymbol{order}"
  | delayedSymbol (order : Nat) : RegisterStem s!"MUXReg{order}"

/-- A signal inside the module that is named as a register. -/
structure LocalSignal.IsRegister (g : NameGenerator) (l : LocalSignal) : Prop where
  usage : l.usage = .plain
  name : ∃ stem, RegisterStem stem ∧ g.Gives stem l.name

namespace Design

/-- At most `count` registers were allocated, and the statements touch no signal of the design. -/
structure Fills (count : Nat) (M : DecoderModule) (stmts : List Stmt) (M' : DecoderModule) : Prop where
  allocated : Relation.ReflTransGen (fun M M' => ∃ stem width wire,
    RegisterStem stem ∧ DecoderModule.allocate M .plain stem width = .ok (wire, M')) M M'
  few : M'.locals.length ≤ M.locals.length + count
  touches : TouchesNothing stmts

namespace Fills

variable {count count' : Nat} {M M₁ M' : DecoderModule} {stmts more : List Stmt}

theorem refl (count : Nat) (M : DecoderModule) : Fills count M [] M := ⟨.refl, Nat.le_add_right _ _, .nil⟩

theorem mono (h : Fills count M stmts M') (hle : count ≤ count') : Fills count' M stmts M' :=
  ⟨h.allocated, h.few.trans (Nat.add_le_add_left hle _), h.touches⟩

theorem append (h : Fills count M stmts M₁) (h' : Fills count' M₁ more M') :
    Fills (count + count') M (stmts ++ more) M' where
  allocated := h.allocated.trans h'.allocated
  few := by
    have := h.few
    have := h'.few
    omega
  touches := h.touches.append_nothing h'.touches

theorem single {stem : String} {width : Nat} {wire : Wire} (hstem : RegisterStem stem)
    (h : M.allocate .plain stem width = .ok (wire, M'))
    (htouches : wire.Inside → TouchesNothing stmts) : Fills 1 M stmts M' ∧ wire.Inside := by
  obtain ⟨-, hwire, hM'⟩ := DecoderModule.allocate_eq_ok_iff.mp h
  have hinside : wire.Inside := hwire ▸ Wire.inside_inner _
  refine ⟨⟨.single ⟨stem, width, wire, hstem, h⟩, ?_, htouches hinside⟩, hinside⟩
  rw [hM', List.length_append, List.length_singleton]

theorem grows (h : Fills count M stmts M') : M.Grows M' := by
  obtain ⟨hallocated, -, -⟩ := h
  induction hallocated with
  | refl => exact .refl M
  | tail _ hstep ih =>
      obtain ⟨stem, width, wire, -, hallocate⟩ := hstep
      exact ih.trans (.allocate (by decide) hallocate)

theorem locals (h : Fills count M stmts M') : ∃ registers, M'.locals = M.locals ++ registers ∧
    ∀ l ∈ registers, l.IsRegister M.names.generator := by
  have hgenerator : M'.names.generator = M.names.generator := h.grows.frame.1
  obtain ⟨hallocated, -, -⟩ := h
  rw [← hgenerator]
  clear hgenerator
  induction hallocated with
  | refl => exact ⟨[], (List.append_nil _).symm, by simp⟩
  | @tail M₁ M₂ _ hstep ih =>
      obtain ⟨stem, width, wire, hstem, hallocate⟩ := hstep
      obtain ⟨-, -, rfl⟩ := DecoderModule.allocate_eq_ok_iff.mp hallocate
      obtain ⟨registers, hlocals, hregisters⟩ := ih
      refine ⟨registers ++ [⟨(M₁.names.fresh stem).1, .plain, width⟩], ?_, ?_⟩
      · rw [← List.append_assoc, ← hlocals]
      · exact List.forall_mem_append.mpr ⟨hregisters, List.forall_mem_singleton.mpr
          ⟨rfl, stem, hstem, M₁.names.gives_fresh stem⟩⟩

end Fills

variable {d : Design} {M M' : DecoderModule} {cw : LocalId} {stmts : List Stmt}

theorem syncValueWord_fills {wire : Option Wire}
    (h : d.syncValueWord .statements M (.inner cw) = .ok (wire, stmts, M')) :
    Fills 1 M stmts M' ∧ ∀ w ∈ wire, w.Inside := by
  unfold syncValueWord at h
  obtain ⟨width, -, h⟩ := bind_eq_ok_iff.mp h
  split at h
  · cases h
    exact ⟨.refl 1 M, by simp⟩
  · obtain ⟨⟨w, M₁⟩, hallocate, h⟩ := bind_eq_ok_iff.mp h
    cases h
    obtain ⟨hfills, hinside⟩ := Fills.single .value hallocate fun hw =>
      .store_inside hw (Expr.inside_slice (Wire.inside_inner cw) 0 width)
    exact ⟨hfills, by rintro w ⟨⟩; exact hinside⟩

theorem registerValueWord_fills {first wire : Option Wire} (hfirst : ∀ w ∈ first, w.Inside)
    (h : d.registerValueWord .statements M first = .ok (wire, stmts, M')) :
    Fills 1 M stmts M' ∧ ∀ w ∈ wire, w.Inside := by
  cases first with
  | none =>
      cases h
      exact ⟨.refl 1 M, by simp⟩
  | some first =>
      obtain ⟨width, -, h⟩ := bind_eq_ok_iff.mp h
      obtain ⟨⟨w, M₁⟩, hallocate, h⟩ := bind_eq_ok_iff.mp h
      cases h
      obtain ⟨hfills, hinside⟩ := Fills.single .delayedValue hallocate fun hw =>
        .store_inside hw (Expr.inside_read (hfirst first rfl))
      exact ⟨hfills, by rintro w ⟨⟩; exact hinside⟩

/-- The symbol of a field is registered on inner wires; only a field with a single symbol has no
register. -/
structure Staged (f : MicroField) (staged : Option StagedSymbol) : Prop where
  count : staged = none → f.table.count = 1
  inside : ∀ st ∈ staged, st.symbol.Inside ∧ st.decoded.Inside

theorem registerBody_fills {f : MicroField} {first second : StagedSymbol} (hfirst : Staged f (some first))
    (h : f.registerBody .statements M first = .ok (second, stmts, M')) :
    Fills 1 M stmts M' ∧ Staged f (some second) := by
  obtain ⟨⟨w, M₁⟩, hallocate, h⟩ := bind_eq_ok_iff.mp h
  cases h
  have hsymbol := (hfirst.inside first rfl).1
  obtain ⟨hfills, hinside⟩ := Fills.single (.delayedSymbol f.order) hallocate fun hw =>
    .store_inside hw (Expr.inside_read hsymbol)
  exact ⟨hfills, nofun, by rintro st ⟨⟩; exact ⟨hsymbol, hinside⟩⟩

theorem syncBody_fills {f : MicroField} {s : Option StagedSymbol}
    (h : f.syncBody .statements M (.inner cw) = .ok (s, stmts, M')) : Fills 1 M stmts M' ∧ Staged f s := by
  unfold MicroField.syncBody at h
  dsimp only at h
  split at h
  · next hone =>
    cases h
    exact ⟨.refl 1 M, fun _ => hone, by simp⟩
  · obtain ⟨⟨w, M₁⟩, hallocate, h⟩ := bind_eq_ok_iff.mp h
    obtain ⟨cases, hcases, h⟩ := bind_eq_ok_iff.mp h
    cases h
    have hcase : w.Inside → ∀ c ∈ cases, TouchesNothing c.2 := by
      intro hw c hc
      obtain ⟨symbol, -, heq⟩ := exists_of_mem_mapM hcases hc
      obtain ⟨label, -, heq⟩ := bind_eq_ok_iff.mp heq
      obtain ⟨oneHot, -, heq⟩ := bind_eq_ok_iff.mp heq
      cases heq
      exact .store_inside hw (Expr.inside_literal oneHot)
    obtain ⟨hfills, hinside⟩ := Fills.single (.symbol f.order) hallocate fun hw =>
      .switch (Expr.inside_slice (Wire.inside_inner cw) f.offset f.width)
        (fun s c hc => ((hcase hw c hc).drives s).mp)
        (fun s => iff_of_false (fun ⟨c, hc, hs⟩ => ((hcase hw c hc).reads s).mp hs) id)
        (.store_inside hw (Expr.inside_unknown f.table.count))
    exact ⟨hfills, nofun, by rintro st ⟨⟩; exact ⟨hinside, hinside⟩⟩

theorem syncFields_fills {fields : List MicroField} {staged : List (Option StagedSymbol)}
    (h : syncFields .statements M (.inner cw) fields = .ok (staged, stmts, M')) :
    Fills fields.length M stmts M' ∧ List.Forall₂ Staged fields staged := by
  induction fields generalizing M staged stmts with
  | nil =>
      cases h
      exact ⟨.refl 0 _, .nil⟩
  | cons f fields ih =>
      rw [syncFields] at h
      obtain ⟨⟨s, first, M₁⟩, hfirst, h⟩ := bind_eq_ok_iff.mp h
      obtain ⟨⟨others, more, M₂⟩, hmore, h⟩ := bind_eq_ok_iff.mp h
      cases h
      obtain ⟨hfills, hs⟩ := syncBody_fills hfirst
      obtain ⟨hfills', hothers⟩ := ih hmore
      exact ⟨(hfills.append hfills').mono (Nat.add_comm 1 _).le, .cons hs hothers⟩

theorem registerFields_fills {fields : List MicroField} {first staged : List (Option StagedSymbol)}
    (hfirst : List.Forall₂ Staged fields first)
    (h : registerFields .statements M (fields.zip first) = .ok (staged, stmts, M')) :
    Fills fields.length M stmts M' ∧ List.Forall₂ Staged fields staged := by
  induction hfirst generalizing M staged stmts with
  | nil =>
      cases h
      exact ⟨.refl 0 _, .nil⟩
  | @cons f s fields first hs _ ih =>
      cases s with
      | none =>
          rw [List.zip_cons_cons, registerFields] at h
          obtain ⟨⟨others, more, M₁⟩, hmore, h⟩ := bind_eq_ok_iff.mp h
          cases h
          obtain ⟨hfills, hothers⟩ := ih hmore
          exact ⟨hfills.mono (Nat.le_succ _), .cons hs hothers⟩
      | some st =>
          rw [List.zip_cons_cons, registerFields] at h
          obtain ⟨⟨second, stmts₁, M₁⟩, hsecond, h⟩ := bind_eq_ok_iff.mp h
          obtain ⟨⟨others, more, M₂⟩, hmore, h⟩ := bind_eq_ok_iff.mp h
          cases h
          obtain ⟨hfills, hst⟩ := registerBody_fills hs hsecond
          obtain ⟨hfills', hothers⟩ := ih hmore
          exact ⟨(hfills.append hfills').mono (Nat.add_comm 1 _).le, .cons hst hothers⟩

/-- A staged decoder consists of a clock, registers and the statements that decode from them. -/
theorem addStagedDecoder_parts {second : Bool} (h : d.addStagedDecoder second M (.inner cw) = .ok M') :
    ∃ clock M₀ sync M₁ valueWord staged bodies, M.allocate .clock "clk" 1 = .ok (clock, M₀) ∧
      Fills (1 + d.fields.length + (1 + d.fields.length)) M₀ sync M₁ ∧
      (∀ w ∈ valueWord, w.Inside) ∧ List.Forall₂ Staged d.fields staged ∧
      (d.fields.zip staged).mapM (fun (f, staged) => f.stagedBody .statements d.packer d.matrix staged valueWord) =
        .ok bodies ∧ M' = addStages M₁ clock sync bodies.flatten := by
  rw [addStagedDecoder_eq] at h
  obtain ⟨⟨clock, M₀⟩, hclock, h⟩ := bind_eq_ok_iff.mp h
  obtain ⟨⟨valueWord, valueStmts, M₁⟩, hvalue, h⟩ := bind_eq_ok_iff.mp h
  obtain ⟨⟨staged, symbolStmts, M₂⟩, hstaged, h⟩ := bind_eq_ok_iff.mp h
  obtain ⟨hfills₁, hinside⟩ := syncValueWord_fills hvalue
  obtain ⟨hfills₂, hsymbols⟩ := syncFields_fills hstaged
  have hfills := hfills₁.append hfills₂
  cases second with
  | false =>
      obtain ⟨_, ⟨⟩, h⟩ := bind_eq_ok_iff.mp h
      obtain ⟨bodies, hbodies, h⟩ := bind_eq_ok_iff.mp h
      cases h
      exact ⟨clock, M₀, _, M₂, valueWord, staged, bodies, hclock, hfills.append (.refl _ M₂), hinside, hsymbols,
        hbodies, rfl⟩
  | true =>
      obtain ⟨⟨w, delayValue, M₃⟩, hvalue', h⟩ := bind_eq_ok_iff.mp h
      obtain ⟨⟨s, delaySymbols, M₄⟩, hstaged', h⟩ := bind_eq_ok_iff.mp h
      obtain ⟨_, ⟨⟩, h⟩ := bind_eq_ok_iff.mp h
      obtain ⟨bodies, hbodies, h⟩ := bind_eq_ok_iff.mp h
      cases h
      obtain ⟨hfills₃, hinside'⟩ := registerValueWord_fills hinside hvalue'
      obtain ⟨hfills₄, hsymbols'⟩ := registerFields_fills hsymbols hstaged'
      exact ⟨clock, M₀, _, M₄, w, s, bodies, hclock, hfills.append (hfills₃.append hfills₄), hinside', hsymbols',
        hbodies, rfl⟩

/-- A decoder allocates a clock and, for the value word and each field, a register in either stage. -/
theorem addDecoder_locals_length {mode : DecoderMode} {d' : Design}
    (h : d.addDecoder mode M (.inner cw) = .ok (d', M')) :
    M'.locals.length ≤ M.locals.length + (2 * d.fields.length + 3) := by
  have hstaged : ∀ {second : Bool} {M'}, d.addStagedDecoder second M (.inner cw) = .ok M' →
      M'.locals.length ≤ M.locals.length + (2 * d.fields.length + 3) := by
    intro second M' h
    obtain ⟨clock, M₀, sync, M₁, valueWord, staged, bodies, hclock, hfills, -, -, -, rfl⟩ :=
      addStagedDecoder_parts h
    obtain ⟨-, -, rfl⟩ := DecoderModule.allocate_eq_ok_iff.mp hclock
    have hfew := hfills.few
    rw [List.length_append, List.length_singleton] at hfew
    show M₁.locals.length ≤ _
    omega
  obtain ⟨-, -, h⟩ := bind_eq_ok_iff.mp h
  cases mode with
  | combinational =>
      obtain ⟨M₁, hM₁, ⟨⟩⟩ := bind_eq_ok_iff.mp h
      rw [addCombDecoder_eq] at hM₁
      obtain ⟨bodies, -, ⟨⟩⟩ := bind_eq_ok_iff.mp hM₁
      exact Nat.le_add_right _ _
  | staged =>
      obtain ⟨M₁, hM₁, ⟨⟩⟩ := bind_eq_ok_iff.mp h
      exact hstaged hM₁
  | registered =>
      obtain ⟨M₁, hM₁, ⟨⟩⟩ := bind_eq_ok_iff.mp h
      exact hstaged hM₁

end Design

end ControlStore
