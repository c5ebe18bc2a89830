import ControlStore.Decoder.Assembly
import ControlStore.Proofs.Nesting

/-! # Bodies recorded as events and as statements

The bodies of a decoder are written for any recorder.  Recorded as events they are well nested and stand for the
same bodies recorded as statements, part by part: both computations fail alike, or they succeed and their results
are related (`Alike`).  So a builder takes the events of every decoder, and the processes of a decoder hold the
statements (`Design.addCombDecoder_eq`, `Design.addStagedDecoder_eq`). -/

namespace ControlStore

/-! ### Computations with related results -/

/-- The computations fail alike, or they succeed with related results. -/
inductive Alike {α β : Type} (R : α → β → Prop) : Checked α → Checked β → Prop
  | ok {a : α} {b : β} (h : R a b) : Alike R (.ok a) (.ok b)
  | error (e : Fault) : Alike R (.error e) (.error e)

namespace Alike

variable {α β γ δ : Type} {R : α → β → Prop} {S : γ → δ → Prop}

theorem eq {x y : Checked α} (h : Alike Eq x y) : x = y := by
  cases h with
  | ok h => rw [h]
  | error e => rfl

theorem imp {R' : α → β → Prop} {x : Checked α} {y : Checked β} (h : Alike R x y) (himp : ∀ a b, R a b → R' a b) :
    Alike R' x y := by
  cases h with
  | ok h => exact .ok (himp _ _ h)
  | error e => exact .error e

theorem bind {x : Checked α} {y : Checked β} (h : Alike R x y) {f : α → Checked γ} {g : β → Checked δ}
    (hfg : ∀ a b, R a b → Alike S (f a) (g b)) : Alike S (x >>= f) (y >>= g) := by
  cases h with
  | ok h => exact hfg _ _ h
  | error e => exact .error e

/-- What comes after a common part is alike if it is so for every result of this part. -/
theorem bind_same {x : Checked α} {f : α → Checked γ} {g : α → Checked δ} (hfg : ∀ a, Alike S (f a) (g a)) :
    Alike S (x >>= f) (x >>= g) := by
  cases x with
  | error e => exact .error e
  | ok a => exact hfg a

theorem mapM {l : List γ} {f : γ → Checked α} {g : γ → Checked β} (hfg : ∀ c ∈ l, Alike R (f c) (g c)) :
    Alike (List.Forall₂ R) (l.mapM f) (l.mapM g) := by
  induction l with
  | nil => exact .ok .nil
  | cons c l ih =>
      rw [List.mapM_cons, List.mapM_cons]
      refine (hfg c List.mem_cons_self).bind fun a b hab => ?_
      refine (ih fun c' hc' => hfg c' (List.mem_cons_of_mem c hc')).bind fun as bs hall => ?_
      exact .ok (.cons hab hall)

end Alike

/-! ### Stores and switches -/

/-- Records a body as statements. -/
def Recorder.statements : Recorder Stmt where
  store := .store
  switch selector cases fallback := [.switch selector cases (some fallback)]

theorem WellNested.flatten {events : List (List BuildEvent)} {bodies : List (List Stmt)}
    (h : List.Forall₂ WellNested events bodies) : WellNested events.flatten bodies.flatten := by
  induction h with
  | nil => exact .nil
  | cons first _ ih => exact ih.append first

theorem WellNested.of_stores {events : List BuildEvent} {body : List Stmt}
    (h : List.Forall₂ (fun event stmt => WellNested [event] [stmt]) events body) : WellNested events body := by
  induction h with
  | nil => exact .nil
  | cons first _ ih => exact ih.append first

/-- A case and what is recorded for it. -/
def NestedCase (c : Bits × List BuildEvent) (c' : Bits × List Stmt) : Prop := c.1 = c'.1 ∧ WellNested c.2 c'.2

theorem wellNestedCases_flatMap {cases : List (Bits × List BuildEvent)} {cases' : List (Bits × List Stmt)}
    (h : List.Forall₂ NestedCase cases cases') : WellNestedCases
      (cases.flatMap fun c => .beginCase c.1 :: c.2 ++ [.endCase]) cases' none := by
  induction h with
  | nil => exact .nil
  | @cons c c' cases cases' first _ ih =>
      obtain ⟨label, events⟩ := c
      obtain ⟨label', body⟩ := c'
      obtain ⟨rfl, own⟩ : label = label' ∧ WellNested events body := first
      simpa using WellNestedCases.case own ih

theorem wellNested_switch (selector : Expr) {cases : List (Bits × List BuildEvent)}
    {cases' : List (Bits × List Stmt)} (hcases : List.Forall₂ NestedCase cases cases')
    {fallback : List BuildEvent} {fallback' : List Stmt} (hfallback : WellNested fallback fallback') :
    WellNested (Recorder.events.switch selector cases fallback)
      (Recorder.statements.switch selector cases' fallback') := by
  have harms := (WellNestedCases.default hfallback .nil).append (.inl rfl) (wellNestedCases_flatMap hcases)
  simpa [Recorder.events, Recorder.statements] using WellNested.switch harms .nil

/-! ### The bodies of a field -/

/-- A value with a body and a module: the values and the modules are the same. -/
def NestedResult {α : Type} (r : α × List BuildEvent × DecoderModule) (r' : α × List Stmt × DecoderModule) : Prop :=
  r.1 = r'.1 ∧ WellNested r.2.1 r'.2.1 ∧ r.2.2 = r'.2.2

namespace MicroField

theorem alike_storeContents (packer : Packer) (valueWord : Option Wire) (contents : Contents) :
    Alike WellNested (storeContents .events packer valueWord contents)
      (storeContents .statements packer valueWord contents) := by
  have hstores : Alike (List.Forall₂ fun event stmt => WellNested [event] [stmt])
      (storeContents .events packer valueWord contents) (storeContents .statements packer valueWord contents) := by
    refine .mapM fun e _ => ?_
    obtain ⟨target, content⟩ := e
    exact .bind_same fun src => .ok (.store .nil)
  exact hstores.imp fun _ _ => .of_stores

theorem alike_storeUnknown (f : MicroField) (matrix : FlowMatrix) :
    Alike WellNested (f.storeUnknown .events matrix) (f.storeUnknown .statements matrix) := by
  have hstores : Alike (List.Forall₂ fun event stmt => WellNested [event] [stmt])
      (f.storeUnknown .events matrix) (f.storeUnknown .statements matrix) :=
    .mapM fun target _ => .bind_same fun signal => .ok (.store .nil)
  exact hstores.imp fun _ _ => .of_stores

theorem alike_combBody (f : MicroField) (packer : Packer) (matrix : FlowMatrix) (cw : Wire) :
    Alike WellNested (f.combBody .events packer matrix cw) (f.combBody .statements packer matrix cw) := by
  unfold combBody
  split
  · exact .bind_same fun contents => alike_storeContents packer _ contents
  · have hcases : Alike (List.Forall₂ NestedCase)
        (f.table.table.indexed.mapM fun e => do
          let label ← f.selector e.1
          return (label, ← storeContents .events packer (some cw) e.2))
        (f.table.table.indexed.mapM fun e => do
          let label ← f.selector e.1
          return (label, ← storeContents .statements packer (some cw) e.2)) :=
      .mapM fun e _ => .bind_same fun label => (alike_storeContents packer _ e.2).bind fun _ _ own => .ok ⟨rfl, own⟩
    refine hcases.bind fun cases cases' hcases => ?_
    exact (f.alike_storeUnknown matrix).bind fun _ _ hfallback => .ok (wellNested_switch _ hcases hfallback)

theorem alike_syncBody (f : MicroField) (d : DecoderModule) (cw : Wire) :
    Alike NestedResult (f.syncBody .events d cw) (f.syncBody .statements d cw) := by
  unfold syncBody
  simp only
  split
  · exact .ok ⟨rfl, .nil, rfl⟩
  · refine .bind_same fun allocated => ?_
    have hcases : Alike (List.Forall₂ NestedCase)
        ((List.range f.table.count).mapM fun sym => do
          let label ← f.selector sym
          let oneHot ← Bits.oneHot sym f.table.count
          return (label, [Recorder.events.store allocated.1 (.literal oneHot)]))
        ((List.range f.table.count).mapM fun sym => do
          let label ← f.selector sym
          let oneHot ← Bits.oneHot sym f.table.count
          return (label, [Recorder.statements.store allocated.1 (.literal oneHot)])) :=
      .mapM fun sym _ => .bind_same fun label => .bind_same fun oneHot => .ok ⟨rfl, .store .nil⟩
    exact hcases.bind fun _ _ hcases => .ok ⟨rfl, wellNested_switch _ hcases (.store .nil), rfl⟩

theorem alike_registerBody (f : MicroField) (d : DecoderModule) (staged : StagedSymbol) :
    Alike NestedResult (f.registerBody .events d staged) (f.registerBody .statements d staged) :=
  .bind_same fun _ => .ok ⟨rfl, .store .nil, rfl⟩

theorem alike_stagedBody (f : MicroField) (packer : Packer) (matrix : FlowMatrix) (staged : Option StagedSymbol)
    (valueWord : Option Wire) : Alike WellNested (f.stagedBody .events packer matrix staged valueWord)
      (f.stagedBody .statements packer matrix staged valueWord) := by
  refine .bind_same fun neutral => ?_
  cases staged with
  | none => exact alike_storeContents packer valueWord neutral
  | some staged =>
      refine (alike_storeContents packer valueWord neutral).bind fun _ _ hzero => ?_
      have hcases : Alike (List.Forall₂ NestedCase)
          (f.table.table.indexed.mapM fun e => do
            let label ← Bits.oneHot e.1 f.table.count
            return (label, ← storeContents .events packer valueWord e.2))
          (f.table.table.indexed.mapM fun e => do
            let label ← Bits.oneHot e.1 f.table.count
            return (label, ← storeContents .statements packer valueWord e.2)) :=
        .mapM fun e _ => .bind_same fun label => (alike_storeContents packer _ e.2).bind fun _ _ own => .ok ⟨rfl, own⟩
      refine hcases.bind fun _ _ hcases => ?_
      refine (f.alike_storeUnknown matrix).bind fun _ _ hfallback => ?_
      exact .ok (wellNested_switch _ (.cons ⟨rfl, hzero⟩ hcases) hfallback)

end MicroField

/-! ### The bodies of a decoder -/

namespace Design

theorem alike_syncValueWord (d : Design) (m : DecoderModule) (cw : Wire) :
    Alike NestedResult (d.syncValueWord .events m cw) (d.syncValueWord .statements m cw) := by
  refine .bind_same fun bits => ?_
  split
  · exact .ok ⟨rfl, .nil, rfl⟩
  · exact .bind_same fun _ => .ok ⟨rfl, .store .nil, rfl⟩

theorem alike_registerValueWord (d : Design) (m : DecoderModule) (valueWord : Option Wire) :
    Alike NestedResult (d.registerValueWord .events m valueWord) (d.registerValueWord .statements m valueWord) := by
  cases valueWord with
  | none => exact .ok ⟨rfl, .nil, rfl⟩
  | some first => exact .bind_same fun _ => .bind_same fun _ => .ok ⟨rfl, .store .nil, rfl⟩

theorem alike_syncFields (fields : List MicroField) (m : DecoderModule) (cw : Wire) :
    Alike NestedResult (syncFields .events m cw fields) (syncFields .statements m cw fields) := by
  induction fields generalizing m with
  | nil => exact .ok ⟨rfl, .nil, rfl⟩
  | cons f fields ih =>
      refine (f.alike_syncBody m cw).bind ?_
      rintro ⟨staged, events, m₁⟩ ⟨_, body, _⟩ ⟨rfl, hbody, rfl⟩
      refine (ih m₁).bind ?_
      rintro ⟨others, more, m₂⟩ ⟨_, rest, _⟩ ⟨rfl, hrest, rfl⟩
      exact .ok ⟨rfl, hrest.append hbody, rfl⟩

theorem alike_registerFields (staged : List (MicroField × Option StagedSymbol)) (m : DecoderModule) :
    Alike NestedResult (registerFields .events m staged) (registerFields .statements m staged) := by
  induction staged generalizing m with
  | nil => exact .ok ⟨rfl, .nil, rfl⟩
  | cons e staged ih =>
      obtain ⟨f, symbol⟩ := e
      cases symbol with
      | none =>
          refine (ih m).bind ?_
          rintro ⟨others, more, m₁⟩ ⟨_, rest, _⟩ ⟨rfl, hrest, rfl⟩
          exact .ok ⟨rfl, hrest, rfl⟩
      | some symbol =>
          refine (f.alike_registerBody m symbol).bind ?_
          rintro ⟨delayed, events, m₁⟩ ⟨_, body, _⟩ ⟨rfl, hbody, rfl⟩
          refine (ih m₁).bind ?_
          rintro ⟨others, more, m₂⟩ ⟨_, rest, _⟩ ⟨rfl, hrest, rfl⟩
          exact .ok ⟨rfl, hrest.append hbody, rfl⟩

/-! ### Decoders -/

/-- The process of the combinational decoder holds the bodies of all fields. -/
theorem addCombDecoder_eq (d : Design) (m : DecoderModule) (cw : Wire) : d.addCombDecoder m cw = (do
    let bodies ← d.fields.mapM fun f => f.combBody .statements d.packer d.matrix cw
    return m.addProcess (.comb (.ofBody "cwdecode" bodies.flatten) [cw])) := by
  have hbodies := Alike.mapM fun f (_ : f ∈ d.fields) => f.alike_combBody d.packer d.matrix cw
  refine (hbodies.bind fun events bodies h => ?_).eq
  rw [(WellNested.flatten h).ofEvents_ok, ok_bind]
  exact .ok rfl

/-- The last part of a staged decoder, when the registers of the fields are known. -/
theorem alike_stagedEnd (d : Design) (clock : Wire) (valueWord : Option Wire) (staged : List (Option StagedSymbol))
    (m : DecoderModule) {events : List BuildEvent} {stmts : List Stmt} (h : WellNested events stmts) :
    Alike Eq (do
      let sync ← Procedure.ofEvents "cwdecode_sync" events
      let m := m.addProcess (.clocked clock sync)
      let bodies ← (d.fields.zip staged).mapM fun (f, staged) =>
        f.stagedBody .events d.packer d.matrix staged valueWord
      let comb ← Procedure.ofEvents "cwdecode_comb" bodies.flatten
      return m.addProcess (.comb comb []))
    (do
      let m := m.addProcess (.clocked clock (.ofBody "cwdecode_sync" stmts))
      let bodies ← (d.fields.zip staged).mapM fun (f, staged) =>
        f.stagedBody .statements d.packer d.matrix staged valueWord
      return m.addProcess (.comb (.ofBody "cwdecode_comb" bodies.flatten) [])) := by
  have hbodies := Alike.mapM fun (e : MicroField × Option StagedSymbol) (_ : e ∈ d.fields.zip staged) =>
    e.1.alike_stagedBody d.packer d.matrix e.2 valueWord
  rw [h.ofEvents_ok, ok_bind]
  refine hbodies.bind fun events bodies hall => ?_
  rw [(WellNested.flatten hall).ofEvents_ok, ok_bind]
  exact .ok rfl

/-- The clocked process of a staged decoder holds what its registers take, the other one the bodies of all
fields. -/
theorem addStagedDecoder_eq (d : Design) (second : Bool) (m : DecoderModule) (cw : Wire) :
    d.addStagedDecoder second m cw = (do
      let (clock, m) ← m.allocate .clock "clk" 1
      let (valueWord, valueStmts, m) ← d.syncValueWord .statements m cw
      let (staged, symbolStmts, m) ← syncFields .statements m cw d.fields
      let (valueWord, staged, delayStmts, m) ←
        if second then do
          let (valueWord, valueStmts, m) ← d.registerValueWord .statements m valueWord
          let (staged, symbolStmts, m) ← registerFields .statements m (d.fields.zip staged)
          pure (valueWord, staged, valueStmts ++ symbolStmts, m)
        else
          pure (valueWord, staged, [], m)
      let sync := Procedure.ofBody "cwdecode_sync" (valueStmts ++ symbolStmts ++ delayStmts)
      let m := m.addProcess (.clocked clock sync)
      let bodies ← (d.fields.zip staged).mapM fun (f, staged) =>
        f.stagedBody .statements d.packer d.matrix staged valueWord
      return m.addProcess (.comb (.ofBody "cwdecode_comb" bodies.flatten) [])) := by
  refine Alike.eq (.bind_same fun allocated => ?_)
  obtain ⟨clock, m⟩ := allocated
  refine (d.alike_syncValueWord m cw).bind ?_
  rintro ⟨valueWord, valueEvents, m₁⟩ ⟨_, valueStmts, _⟩ ⟨rfl, hvalue, rfl⟩
  refine (alike_syncFields d.fields m₁ cw).bind ?_
  rintro ⟨staged, symbolEvents, m₂⟩ ⟨_, symbolStmts, _⟩ ⟨rfl, hsymbols, rfl⟩
  have hfirst := hsymbols.append hvalue
  cases second with
  | false => exact d.alike_stagedEnd clock valueWord staged m₂ (WellNested.nil.append hfirst)
  | true =>
      refine (d.alike_registerValueWord m₂ valueWord).bind ?_
      rintro ⟨delayed, events, m₃⟩ ⟨_, stmts, _⟩ ⟨rfl, hstmts, rfl⟩
      refine (alike_registerFields (d.fields.zip staged) m₃).bind ?_
      rintro ⟨others, more, m₄⟩ ⟨_, rest, _⟩ ⟨rfl, hrest, rfl⟩
      exact d.alike_stagedEnd clock delayed others m₄ ((hrest.append hstmts).append hfirst)

end Design

end ControlStore
