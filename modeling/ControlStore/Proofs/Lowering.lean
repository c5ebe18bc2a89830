import ControlStore.Proofs.Matrices
import ControlStore.Proofs.Violations

/-! # Lowering reports the first violation

Every part of lowering is described by what there is to complain about and by what it makes of a
file without complaints (`Reports`).  A scope holds the declarations it was made from
(`Scope.Declares`), a step flow the assignments of its block (`Lowers`), and a matrix the whole file
(`FlowFile.Lowered`).  The complaints about a file are its violations, so a file is lowered exactly
if it is well-formed, and otherwise its first violation is reported
(`FlowFile.lowerReporting_iff_wellFormed`).  Matrices that come out of this always pass their own
checks (`FlowFile.Lowered.validate`). -/

namespace ControlStore.Source

/-! ### What is lowered to what -/

/-- A literal at a width. -/
def Number.Denotes (number : Number) (width : Nat) (bits : Bits) : Prop :=
  bits.value = number.value ∧ bits.width = width

/-- The signal of a declaration; the initial value is zero if none is given. -/
structure Declaration.Describes (d : Declaration) (signal : Signal) : Prop where
  name : signal.name = d.name.name
  width : signal.width = d.width.value
  init_width : signal.init.width = d.width.value
  init_value : signal.init.value = (d.init.map Number.value).getD 0

/-- The flow of a right-hand side, for a target of the given width. -/
inductive RightSide.Lowers (signals : List Declaration) (width : Nat) : RightSide → Flow → Prop
  | constant {number bits} : number.Denotes width bits → Lowers signals width (.constant number) (.constant bits)
  | raw {number bits} : number.Denotes width bits → Lowers signals width (.raw number) (.raw bits)
  | forward {source : Ident} {i s} : signals[i]? = some s → s.name.name = source.name →
      Lowers signals width (.forward source) (.forward i)
  | absent : Lowers signals width .absent .absent

/-- A step flow that holds, for every signal that is assigned, the flow of an assignment to it. -/
structure Lowers (signals : List Declaration) (assignments : List Assign) (f : StepFlow) : Prop where
  sound : ∀ {t flow}, f.get? t = some flow → ∃ d, signals[t]? = some d ∧
    ∃ a ∈ assignments, a.target.name = d.name.name ∧ a.source.Lowers signals d.width.value flow
  complete : ∀ {t d}, signals[t]? = some d → ∀ a ∈ assignments, a.target.name = d.name.name →
    ∃ flow, f.get? t = some flow ∧ a.source.Lowers signals d.width.value flow

/-- The assignments of the neutral block; there are none without such a block. -/
def FlowFile.neutralAssignments (file : FlowFile) : List Assign :=
  (file.neutral.map Block.assignments).getD []

/-- The matrix of a file. -/
structure FlowFile.Lowered (file : FlowFile) (m : FlowMatrix) : Prop where
  signals : List.Forall₂ Declaration.Describes file.signals m.signals
  neutral : Lowers file.signals file.neutralAssignments m.neutral
  steps : List.Forall₂ (fun block f => Lowers file.signals block.assignments f) file.steps m.steps

/-! ### Positions -/

/-- Where names are distinct, a name stands at one position. -/
theorem position_eq_iff {signals : List Declaration} (hnames : (signals.map fun d => d.name.name).Nodup)
    {t t' : SignalId} {d d' : Declaration} (hd : signals[t]? = some d) (hd' : signals[t']? = some d') :
    t = t' ↔ d.name.name = d'.name.name := by
  constructor
  · rintro rfl
    rw [Option.some.inj (hd.symm.trans hd')]
  · intro hname
    have ht : t < (signals.map fun d => d.name.name).length := by
      rw [List.length_map]
      exact (List.getElem?_eq_some_iff.mp hd).1
    rw [← List.getElem?_inj ht hnames, List.getElem?_map, List.getElem?_map, hd, hd']
    exact congrArg some hname

/-! ### Declarations -/

theorem reports_lowerLiteral (number : Number) (target : String) (width : Nat) :
    Reports (lowerLiteral number target width) (number.violations target width)
      fun bits => number.Denotes width bits.1 := by
  unfold lowerLiteral Number.violations
  split
  · next bits hbits =>
    have hdenotes := Bits.ofNat?_eq_some_iff.mp hbits
    rw [if_pos (hdenotes.1 ▸ hdenotes.2 ▸ bits.value_lt)]
    exact .ok hdenotes
  · next hnone =>
    have hwide : ¬ number.value < 2 ^ width := fun hfits => by
      rw [Bits.ofNat?_eq_some_iff (b := ⟨width, number.value, bitLength_le_iff.mpr hfits⟩).mpr ⟨rfl, rfl⟩] at hnone
      cases hnone
    rw [if_neg hwide]
    exact .error _ _

theorem reports_lowerWidth (width : Number) :
    Reports (lowerWidth width) width.widthViolations (· = width.value) := by
  unfold lowerWidth Number.widthViolations
  split
  · exact .error _ _
  · rw [Width.limit_eq]
    split
    · exact .ok rfl
    · exact .error _ _

/-- A scope that holds the given declarations, with distinct names. -/
structure Scope.Declares (scope : Scope) (signals : List Declaration) : Prop where
  names : (signals.map fun d => d.name.name).Nodup
  entries : List.Forall₂ (fun d e => d.Describes e.signal ∧ e.span = d.name.span) signals scope

namespace Scope.Declares

variable {scope : Scope} {signals : List Declaration}

/-- A name is found in the scope where it is declared.  The scope is searched with its positions, which
start at `k` behind the first `k` declarations. -/
theorem find? (h : scope.Declares signals) (name : String) :
    Option.Rel (fun d found => signals[found.1]? = some d ∧ d.Describes found.2.signal ∧
      found.2.span = d.name.span) (declarationOf? signals name) (scope.find? name) := by
  obtain ⟨-, hentries⟩ := h
  have general : ∀ (k : Nat) (before : List Declaration), before.length = k →
      Option.Rel (fun d found => (before ++ signals)[found.2]? = some d ∧ d.Describes found.1.signal ∧
        found.1.span = d.name.span) (declarationOf? signals name)
        ((scope.zipIdx k).find? fun e => e.1.signal.name = name) := by
    induction hentries with
    | nil => exact fun k before hk => .none
    | @cons d e signals scope hde hrest ih =>
        intro k before hk
        unfold declarationOf?
        rw [List.zipIdx_cons, List.find?_cons, List.find?_cons]
        dsimp only
        rw [hde.1.name]
        by_cases hname : d.name.name = name
        · simp only [hname, decide_true]
          exact .some ⟨by simp [← hk], hde⟩
        · simp only [hname, decide_false]
          have hafter := ih (k + 1) (before ++ [d]) (by simp [hk])
          rwa [List.append_assoc] at hafter
  have hfound := general 0 [] rfl
  have hfind : scope.find? name =
      (scope.zipIdx.find? fun e => e.1.signal.name = name).map fun e => (e.2, e.1) := rfl
  rw [hfind]
  generalize declarationOf? signals name = declared at hfound ⊢
  generalize (scope.zipIdx.find? fun e => e.1.signal.name = name) = found at hfound ⊢
  cases hfound with
  | none => exact .none
  | some h => exact .some h

theorem resolve (h : scope.Declares signals) (name : Ident) :
    (declarationOf? signals name.name = none ∧ scope.resolve name = .error (.unknownSignal name)) ∨
      ∃ d i e, declarationOf? signals name.name = some d ∧ scope.resolve name = .ok (i, e) ∧
        signals[i]? = some d ∧ d.Describes e.signal := by
  have hfound := h.find? name.name
  unfold Scope.resolve
  generalize declarationOf? signals name.name = declared at hfound ⊢
  generalize scope.find? name.name = found at hfound ⊢
  cases hfound with
  | none => exact .inl ⟨rfl, rfl⟩
  | some h => exact .inr ⟨_, _, _, rfl, rfl, h.1, h.2.1⟩

theorem concat (h : scope.Declares signals) {d : Declaration} (hfresh : declarationOf? signals d.name.name = none)
    {e : Declared} (he : d.Describes e.signal ∧ e.span = d.name.span) :
    Scope.Declares (scope ++ [e]) (signals ++ [d]) := by
  refine ⟨?_, List.rel_append h.entries (.cons he .nil)⟩
  rw [List.map_append, List.nodup_append]
  refine ⟨h.names, List.nodup_singleton _, ?_⟩
  intro name hname other hother
  obtain ⟨d', hd', rfl⟩ := List.mem_map.mp hname
  rw [List.map_singleton, List.mem_singleton] at hother
  rw [hother]
  exact declarationOf?_eq_none_iff.mp hfresh d' hd'

theorem lowerDeclaration (h : scope.Declares signals) (d : Declaration) :
    Reports (lowerDeclaration scope d) (d.violations signals) fun scope' =>
      scope'.Declares (signals ++ [d]) := by
  have hfound := h.find? d.name.name
  unfold Source.lowerDeclaration Declaration.violations
  cases hdeclared : declarationOf? signals d.name.name with
  | some first =>
      rw [hdeclared] at hfound
      generalize scope.find? d.name.name = found at hfound ⊢
      cases hfound with
      | some hfirst =>
          dsimp only
          rw [hfirst.2.2]
          exact .error _ _
  | none =>
      rw [hdeclared] at hfound
      generalize scope.find? d.name.name = found at hfound ⊢
      cases hfound
      refine (reports_lowerWidth d.width).bind fun width hwidth => ?_
      subst hwidth
      cases hinit : d.init with
      | none => exact .ok (h.concat hdeclared ⟨⟨rfl, rfl, rfl, by rw [hinit]; rfl⟩, rfl⟩)
      | some number =>
          rw [Option.toList_some, List.flatMap_singleton]
          refine (reports_lowerLiteral number d.name.name d.width.value).map fun bits hbits => ?_
          exact h.concat hdeclared ⟨⟨rfl, rfl, hbits.2, by rw [hinit]; exact hbits.1⟩, rfl⟩

end Scope.Declares

theorem reports_lowerDeclarations (signals : List Declaration) :
    Reports (signals.foldlM lowerDeclaration []) (along Declaration.violations [] signals) fun scope =>
      scope.Declares signals := by
  have hempty : Scope.Declares [] [] := ⟨List.nodup_nil, .nil⟩
  exact Reports.foldlM (I := fun earlier scope => Scope.Declares scope earlier)
    (fun _ d _ hscope => hscope.lowerDeclaration d) hempty signals

/-! ### Blocks -/

theorem Lowers.nil (signals : List Declaration) : Lowers signals [] .empty where
  sound hget := by cases hget
  complete _ _ ha := by cases ha

section
variable {scope : Scope} {signals : List Declaration} (h : scope.Declares signals)
variable {t : SignalId} {d : Declaration}
include h

theorem Scope.Declares.lowerSource {signal : Signal} {a : Assign} (hd : signals[t]? = some d)
    (hsignal : d.Describes signal) (htarget : d.name.name = a.target.name) :
    Reports (lowerSource scope t signal a) (a.sourceViolations signals d)
      (a.source.Lowers signals d.width.value) := by
  unfold Source.lowerSource Assign.sourceViolations
  rw [← hsignal.width]
  cases a.source with
  | constant number => exact (reports_lowerLiteral number a.target.name signal.width).map fun _ => .constant
  | raw number => exact (reports_lowerLiteral number a.target.name signal.width).map fun _ => .raw
  | absent => exact .ok .absent
  | forward source =>
      dsimp only
      rcases h.resolve source with ⟨hnone, hresolve⟩ | ⟨s, i, e, hs, hresolve, hi, he⟩
      · rw [hnone, hresolve]
        exact .error _ _
      · rw [hs, hresolve]
        have hname := name_of_declarationOf? hs
        have hself : i = t ↔ source.name = a.target.name := by
          rw [position_eq_iff h.names hi hd, hname, htarget]
        simp only [ok_bind, hself, he.width]
        split
        · exact .error _ _
        · split
          · exact .ok (.forward hi hname)
          · exact .error _ _

/-- The flows and the spans of the assignments of a block so far. -/
structure BlockState.Holds (signals : List Declaration) (earlier : List Assign) (state : BlockState) : Prop where
  flow : Lowers signals earlier state.flow
  assigned : ∀ {t d}, signals[t]? = some d →
    state.assigned.get? t = (assignmentTo? earlier d.name.name).map Assign.span

theorem BlockState.Holds.insert {earlier : List Assign} {state : BlockState} (hstate : state.Holds signals earlier)
    (hd : signals[t]? = some d) {a : Assign} (htarget : d.name.name = a.target.name)
    (hfresh : assignmentTo? earlier a.target.name = none) {flow : Flow}
    (hflow : a.source.Lowers signals d.width.value flow) :
    BlockState.Holds signals (earlier ++ [a]) ⟨state.flow.insert t flow, state.assigned.insert t a.span⟩ := by
  have hindex : ∀ {t' d'}, signals[t']? = some d' → (t' = t ↔ d'.name.name = a.target.name) :=
    fun hd' => by rw [position_eq_iff h.names hd' hd, htarget]
  refine ⟨⟨?_, ?_⟩, ?_⟩
  · intro t' flow' hget
    rw [NatMap.get?_insert] at hget
    split at hget
    · next ht =>
      obtain rfl := Option.some.inj hget
      exact ⟨d, ht ▸ hd, a, List.mem_append_right _ (List.mem_singleton.mpr rfl), htarget.symm, hflow⟩
    · obtain ⟨d', hd', a', ha', hrest⟩ := hstate.flow.sound hget
      exact ⟨d', hd', a', List.mem_append_left _ ha', hrest⟩
  · intro t' d' hd' a' ha' hname
    rw [NatMap.get?_insert]
    rcases List.mem_append.mp ha' with ha' | ha'
    · have hne : t' ≠ t := fun ht =>
        assignmentTo?_eq_none_iff.mp hfresh a' ha' (hname.trans ((hindex hd').mp ht))
      rw [if_neg hne]
      exact hstate.flow.complete hd' a' ha' hname
    · obtain rfl := List.mem_singleton.mp ha'
      obtain rfl := (hindex hd').mpr hname.symm
      obtain rfl := Option.some.inj (hd.symm.trans hd')
      exact ⟨flow, if_pos rfl, hflow⟩
  · intro t' d' hd'
    unfold assignmentTo?
    rw [NatMap.get?_insert, List.find?_append, hstate.assigned hd']
    by_cases ht : t' = t
    · have hname := (hindex hd').mp ht
      unfold assignmentTo? at hfresh
      rw [if_pos ht, hname, hfresh]
      simp
    · have hname : a.target.name ≠ d'.name.name := fun heq => ht ((hindex hd').mpr heq.symm)
      simp [ht, hname, assignmentTo?]

theorem Scope.Declares.lowerAssign {earlier : List Assign} {state : BlockState}
    (hstate : state.Holds signals earlier) (block : Span) (a : Assign) :
    Reports (lowerAssign scope block state a) (a.violations signals block earlier) fun state' =>
      state'.Holds signals (earlier ++ [a]) := by
  unfold Source.lowerAssign Assign.violations
  rcases h.resolve a.target with ⟨hnone, hresolve⟩ | ⟨d, t, e, hd, hresolve, ht, he⟩
  · rw [hnone, hresolve]
    exact .error _ _
  · have hname := name_of_declarationOf? hd
    have hassigned := hstate.assigned ht
    rw [hname] at hassigned
    rw [hd, hresolve, ok_bind]
    dsimp only
    rw [hassigned]
    cases hfirst : assignmentTo? earlier a.target.name with
    | some first => exact .error _ _
    | none => exact (h.lowerSource ht he hname).map fun flow hflow => hstate.insert h ht hname hfirst hflow

theorem Scope.Declares.lowerBlock (block : Block) :
    Reports (lowerBlock scope block) (block.violations signals) (Lowers signals block.assignments) := by
  have hempty : BlockState.Holds signals [] ⟨.empty, .empty⟩ := ⟨.nil signals, fun _ => rfl⟩
  have hblock := Reports.foldlM (I := BlockState.Holds signals)
    (fun _ a _ hstate => h.lowerAssign hstate block.span a) hempty block.assignments
  exact hblock.map fun _ hstate => hstate.flow

end

/-! ### Files -/

theorem foldl_declare (signals : List Signal) (m : FlowMatrix) :
    signals.foldl FlowMatrix.declare m = { m with signals := m.signals ++ signals } := by
  induction signals generalizing m with
  | nil => rw [List.foldl_nil, List.append_nil]
  | cons s signals ih =>
      rw [List.foldl_cons, FlowMatrix.declare_eq, ih]
      simp only [List.append_assoc, List.singleton_append]

theorem foldl_setNeutral (entries : List (SignalId × Flow)) (m : FlowMatrix) :
    entries.foldl (fun m e => m.setNeutral e.1 e.2) m =
      { m with neutral := entries.foldl (fun f e => f.insert e.1 e.2) m.neutral } := by
  induction entries generalizing m with
  | nil => rfl
  | cons e entries ih => rw [List.foldl_cons, ih, List.foldl_cons, FlowMatrix.setNeutral]

theorem foldl_pushStep (steps : List StepFlow) (m : FlowMatrix) :
    steps.foldl FlowMatrix.pushStep m = { m with steps := m.steps ++ steps } := by
  induction steps generalizing m with
  | nil => rw [List.foldl_nil, List.append_nil]
  | cons f steps ih =>
      rw [List.foldl_cons, ih, FlowMatrix.pushStep]
      simp only [List.append_assoc, List.singleton_append]

/-- The matrix that is built up from signals, a neutral flow and steps has them. -/
theorem build_eq (signals : List Signal) (neutral : StepFlow) (steps : List StepFlow) :
    steps.foldl FlowMatrix.pushStep (neutral.entries.foldl (fun m (target, flow) => m.setNeutral target flow)
      (signals.foldl FlowMatrix.declare .empty)) = ⟨signals, neutral, steps⟩ := by
  rw [foldl_declare, foldl_setNeutral, foldl_pushStep]
  show (⟨[] ++ signals, NatMap.ofList neutral.entries, [] ++ steps⟩ : FlowMatrix) = _
  rw [NatMap.ofList_entries, List.nil_append, List.nil_append]

/-- The computation of the matrix, with the neutral block as one of its parts. -/
theorem FlowFile.matrix_eq (file : FlowFile) : file.matrix = (do
    let scope ← file.signals.foldlM lowerDeclaration []
    let neutral ← file.neutral.elim (.ok .empty) (lowerBlock scope)
    let steps ← file.steps.mapM (lowerBlock scope)
    return ⟨scope.map Declared.signal, neutral, steps⟩) := by
  simp only [← build_eq]
  unfold FlowFile.matrix
  cases file.neutral <;> rfl

theorem FlowFile.reports_matrix (file : FlowFile) : Reports file.matrix file.violations file.Lowered := by
  rw [matrix_eq]
  unfold violations blocks
  rw [List.flatMap_append]
  refine (reports_lowerDeclarations file.signals).bind fun scope hscope => ?_
  have hsignals : List.Forall₂ Declaration.Describes file.signals (scope.map Declared.signal) :=
    List.forall₂_map_right_iff.mpr (hscope.entries.imp fun _ _ h => h.1)
  have hneutral : Reports (file.neutral.elim (.ok .empty) (lowerBlock scope))
      (file.neutral.toList.flatMap (Block.violations file.signals))
      (Lowers file.signals file.neutralAssignments) := by
    unfold neutralAssignments
    cases file.neutral with
    | none => exact .ok (.nil file.signals)
    | some block =>
        rw [Option.toList_some, List.flatMap_singleton]
        exact hscope.lowerBlock block
  have hsteps := Reports.mapM fun block (_ : block ∈ file.steps) => hscope.lowerBlock block
  exact hneutral.bind fun neutral hn => hsteps.map fun steps hs => ⟨hsignals, hn, hs⟩

/-! ### Lowered matrices are valid -/

theorem Lowers.accepts {signals : List Declaration} {m : FlowMatrix} {assignments : List Assign} {f : StepFlow}
    (hf : Lowers signals assignments f) (hnames : (signals.map fun d => d.name.name).Nodup)
    (hsignals : List.Forall₂ Declaration.Describes signals m.signals)
    (hfits : ∀ a ∈ assignments, ∃ d ∈ signals, d.name.name = a.target.name ∧
      a.source.Fits signals a.target.name d.width.value) : m.Accepts f := by
  intro t flow hget
  obtain ⟨d, hd, a, ha, hname, hflow⟩ := hf.sound hget
  obtain ⟨signal, hsignal, hdescribes⟩ := exists_getElem?_of_forall₂ hsignals hd
  have hdeclared : declarationOf? signals a.target.name = some d :=
    (declarationOf?_eq_some_iff hnames).mpr ⟨List.mem_of_getElem? hd, hname.symm⟩
  have hfit := (exists_declared_iff hnames hdeclared).mp (hfits a ha)
  unfold FlowMatrix.checkFlow
  rw [hsignal]
  generalize a.source = source at hflow hfit
  cases hflow with
  | constant hbits => exact if_pos (hbits.2.trans hdescribes.width.symm)
  | raw hbits => exact if_pos (hbits.2.trans hdescribes.width.symm)
  | absent => rfl
  | @forward source i s hi hs =>
      obtain ⟨hne, hwidth⟩ := hfit
      have hdeclared' : declarationOf? signals source.name = some s :=
        (declarationOf?_eq_some_iff hnames).mpr ⟨List.mem_of_getElem? hi, hs⟩
      have hself : i ≠ t := fun heq =>
        hne (by rw [← hs, (position_eq_iff hnames hi hd).mp heq, hname])
      obtain ⟨src, hsrc, hsrcDescribes⟩ := exists_getElem?_of_forall₂ hsignals hi
      dsimp only
      rw [if_neg hself, hsrc]
      refine if_pos ?_
      rw [hsrcDescribes.width, hdescribes.width]
      exact (exists_declared_iff hnames hdeclared').mp hwidth

theorem FlowFile.Lowered.validate {file : FlowFile} {m : FlowMatrix} (h : file.Lowered m)
    (hwell : file.WellFormed) : m.validate = .ok () := by
  rw [FlowMatrix.validate_eq_ok_iff]
  constructor
  · refine h.neutral.accepts hwell.names h.signals ?_
    unfold neutralAssignments
    cases hneutral : file.neutral with
    | none => exact fun a ha => nomatch ha
    | some block => exact (hwell.blocks block (by simp [blocks, hneutral])).fits
  · intro f hf
    obtain ⟨i, hi⟩ := List.mem_iff_getElem?.mp hf
    obtain ⟨block, hblock, hlowers⟩ := exists_getElem?_of_forall₂ h.steps.flip hi
    have hmem := List.mem_of_getElem? hblock
    exact hlowers.accepts hwell.names h.signals (hwell.blocks block (by simp [blocks, hmem])).fits

theorem FlowFile.validate_of_matrix {file : FlowFile} {m : FlowMatrix} (h : file.matrix = .ok m) :
    file.Lowered m ∧ m.validate = .ok () := by
  obtain ⟨hnone, hlowered⟩ := file.reports_matrix.of_eq_ok h
  exact ⟨hlowered, hlowered.validate (violations_eq_nil_iff.mp hnone)⟩

/-- The last check of a lowered matrix never fails. -/
theorem FlowFile.lower_eq_matrix (file : FlowFile) : file.lower = file.matrix := by
  unfold lower
  cases hmatrix : file.matrix with
  | error e => rfl
  | ok m =>
      rw [ok_bind, (validate_of_matrix hmatrix).2]
      rfl

theorem FlowFile.reports_lower (file : FlowFile) : Reports file.lower file.violations file.Lowered :=
  file.lower_eq_matrix ▸ file.reports_matrix

/-! ### What is reported -/

/-- Every violation counts as an error. -/
theorem emit_diagnostic (r : Reporter) (e : LoweringError) :
    r.emit e.diagnostic = ⟨r.reported ++ [e.diagnostic], r.errors + 1⟩ := by
  cases e <;> rfl

theorem FlowFile.lowerReporting_of_wellFormed {file : FlowFile} (h : file.WellFormed) (r : Reporter) :
    ∃ m, file.lowerReporting r = (some m, r) := by
  have hreports := file.reports_lower
  rw [violations_eq_nil_iff.mpr h] at hreports
  obtain ⟨m, hm, -⟩ := hreports.exists_ok
  refine ⟨m, ?_⟩
  unfold lowerReporting
  rw [hm]

theorem FlowFile.lowerReporting_of_violations {file : FlowFile} {e : LoweringError} {rest : List LoweringError}
    (h : file.violations = e :: rest) (r : Reporter) :
    file.lowerReporting r = (none, ⟨r.reported ++ [e.diagnostic], r.errors + 1⟩) := by
  have hreports := file.reports_lower
  rw [h] at hreports
  unfold lowerReporting
  rw [hreports.eq_error]
  exact congrArg (Prod.mk none) (emit_diagnostic r e)

/-- A file is lowered, and nothing reported, exactly if it is well-formed.  Otherwise the first violation
is reported, and nothing else.  The checks of the finished matrix never find anything more. -/
theorem FlowFile.lowerReporting_iff_wellFormed (file : FlowFile) :
    ((∃ m, file.lowerReporting {} = (some m, {})) ↔ file.WellFormed) ∧
      (¬ file.WellFormed → ∃ e rest, file.violations = e :: rest ∧
        file.lowerReporting {} = (none, ⟨[e.diagnostic], 1⟩)) ∧
      ∀ m, file.matrix = .ok m → m.validate = .ok () := by
  refine ⟨⟨?_, fun h => lowerReporting_of_wellFormed h {}⟩, ?_, fun m hm => (validate_of_matrix hm).2⟩
  · rintro ⟨m, hm⟩
    rw [← violations_eq_nil_iff]
    cases hviolations : file.violations with
    | nil => rfl
    | cons e rest =>
        rw [lowerReporting_of_violations hviolations] at hm
        cases congrArg Prod.fst hm
  · intro h
    obtain ⟨e, rest, hviolations⟩ := List.exists_cons_of_ne_nil (mt violations_eq_nil_iff.mp h)
    exact ⟨e, rest, hviolations, lowerReporting_of_violations hviolations {}⟩

/-- Where nothing was read from a text. -/
def nowhere : Span := ⟨0, 0⟩

/-- The second step leaves `a` to the neutral block, and `b` has nothing but its initial value there. -/
def FlowFile.overlaid : FlowFile where
  signals := [⟨⟨"a", nowhere⟩, ⟨4, nowhere⟩, none⟩, ⟨⟨"b", nowhere⟩, ⟨4, nowhere⟩, some ⟨9, nowhere⟩⟩]
  neutral := some ⟨[⟨⟨"a", nowhere⟩, .raw ⟨3, nowhere⟩, nowhere⟩], nowhere⟩
  steps := [⟨[⟨⟨"b", nowhere⟩, .forward ⟨"a", nowhere⟩, nowhere⟩], nowhere⟩,
    ⟨[⟨⟨"a", nowhere⟩, .absent, nowhere⟩, ⟨⟨"b", nowhere⟩, .absent, nowhere⟩], nowhere⟩]

/-- An assignment of a literal that is too wide for four bits. -/
def again : Assign := ⟨⟨"a", nowhere⟩, .raw ⟨16, nowhere⟩, nowhere⟩

/-- The neutral block assigns `a` again, and the step assigns what is not declared. -/
def FlowFile.clashing : FlowFile where
  signals := [⟨⟨"a", nowhere⟩, ⟨4, nowhere⟩, none⟩]
  neutral := some ⟨[⟨⟨"a", nowhere⟩, .constant ⟨3, nowhere⟩, nowhere⟩, again], nowhere⟩
  steps := [⟨[⟨⟨"b", nowhere⟩, .absent, nowhere⟩], nowhere⟩]

/-- Of the three violations of the clashing file the second assignment is reported. -/
theorem FlowFile.clashing_reported :
    (∃ m, overlaid.matrix = .ok m ∧ m.validate = .ok ()) ∧ ¬ clashing.WellFormed ∧
      clashing.violations.length = 3 ∧ clashing.lowerReporting {} =
        (none, ⟨[(LoweringError.assignedTwice again nowhere nowhere).diagnostic], 1⟩) := by
  have hnot : ¬ clashing.WellFormed := mt violations_eq_nil_iff.mpr (by decide)
  obtain ⟨m, hm⟩ : ∃ m, overlaid.matrix = .ok m := ⟨_, rfl⟩
  obtain ⟨e, rest, hviolations, hreported⟩ := clashing.lowerReporting_iff_wellFormed.2.1 hnot
  have hfirst : clashing.violations.head? = some (.assignedTwice again nowhere nowhere) := by decide
  rw [hviolations] at hfirst
  obtain rfl := Option.some.inj hfirst
  exact ⟨⟨m, hm, overlaid.lowerReporting_iff_wellFormed.2.2 m hm⟩, hnot, by decide, hreported⟩

end ControlStore.Source
