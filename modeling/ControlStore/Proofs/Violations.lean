import ControlStore.Source.Lowering
import ControlStore.Proofs.Complaints
import Mathlib.Data.List.Nodup

/-! # What can be wrong with a flow file

The rules for flow files, read off the syntax tree alone.  `FlowFile.WellFormed` says what a file
must be like; `FlowFile.violations` lists everything that is wrong with a file, in the order in which
a reader meets it: the declarations, the neutral block, the steps.  Within a declaration a repeated
name comes before the width and the width before the initial value; within an assignment an
undeclared target comes before a second assignment to it, and that before the right-hand side.  A
file is well-formed exactly if nothing is listed (`FlowFile.violations_eq_nil_iff`). -/

namespace ControlStore.Source

/-- The blocks of a file: the neutral one, if there is one, and the steps. -/
def FlowFile.blocks (file : FlowFile) : List Block := file.neutral.toList ++ file.steps

/-! ### Well-formed files -/

/-- A right-hand side that may be assigned to the signal `target` of `width` bits. -/
def RightSide.Fits (signals : List Declaration) (target : String) (width : Nat) : RightSide → Prop
  | constant number => number.value < 2 ^ width
  | raw number => number.value < 2 ^ width
  | forward source =>
      source.name ≠ target ∧ ∃ s ∈ signals, s.name.name = source.name ∧ s.width.value = width
  | absent => True

/-- Every target is declared and assigned at most once, and what it is assigned fits. -/
structure Block.WellFormed (signals : List Declaration) (block : Block) : Prop where
  once : (block.assignments.map fun a => a.target.name).Nodup
  fits : ∀ a ∈ block.assignments, ∃ d ∈ signals, d.name.name = a.target.name ∧
    a.source.Fits signals a.target.name d.width.value

/-- Names are distinct, widths are positive 32-bit numbers, initial values fit, and so do the blocks. -/
structure FlowFile.WellFormed (file : FlowFile) : Prop where
  names : (file.signals.map fun d => d.name.name).Nodup
  widths : ∀ d ∈ file.signals, 1 ≤ d.width.value ∧ d.width.value ≤ 2 ^ 32 - 1
  initials : ∀ d ∈ file.signals, ∀ number ∈ d.init, number.value < 2 ^ d.width.value
  blocks : ∀ block ∈ file.blocks, block.WellFormed file.signals

/-! ### Violations -/

/-- The declaration of `name`, the first one if there are several. -/
def declarationOf? (signals : List Declaration) (name : String) : Option Declaration :=
  signals.find? fun d => d.name.name = name

/-- The first assignment to `name` in a list of assignments. -/
def assignmentTo? (assignments : List Assign) (name : String) : Option Assign :=
  assignments.find? fun a => a.target.name = name

/-- A literal for `target` must fit its width. -/
def Number.violations (number : Number) (target : String) (width : Nat) : List LoweringError :=
  if number.value < 2 ^ width then [] else [.literalTooWide number target width]

/-- A width must be positive and fit 32 bits. -/
def Number.widthViolations (width : Number) : List LoweringError :=
  if width.value = 0 then [.zeroWidth width]
  else if width.value < 2 ^ 32 then []
  else [.widthTooLarge width]

/-- What is wrong with a declaration that follows `earlier`: its name, its width, its initial value. -/
def Declaration.violations (earlier : List Declaration) (d : Declaration) : List LoweringError :=
  ((declarationOf? earlier d.name.name).toList.map fun first =>
      .declaredTwice d.name first.name.span) ++
    (d.width.widthViolations ++
      d.init.toList.flatMap fun number => number.violations d.name.name d.width.value)

/-- What is wrong with the right-hand side of an assignment to the signal declared by `d`. -/
def Assign.sourceViolations (signals : List Declaration) (d : Declaration) (a : Assign) :
    List LoweringError :=
  match a.source with
  | .constant number => number.violations a.target.name d.width.value
  | .raw number => number.violations a.target.name d.width.value
  | .forward source =>
    match declarationOf? signals source.name with
    | none => [.unknownSignal source]
    | some s =>
      if source.name = a.target.name then [.selfForward a]
      else if s.width.value = d.width.value then []
      else [.forwardWidth source s.width.value a.target d.width.value]
  | .absent => []

/-- What is wrong with an assignment that follows `earlier` in a block: its target, a second
assignment, its right-hand side. -/
def Assign.violations (signals : List Declaration) (block : Span) (earlier : List Assign) (a : Assign) :
    List LoweringError :=
  match declarationOf? signals a.target.name with
  | none => [.unknownSignal a.target]
  | some d =>
    ((assignmentTo? earlier a.target.name).toList.map fun first =>
        .assignedTwice a first.span block) ++
      a.sourceViolations signals d

/-- What is wrong with the assignments of a block. -/
def Block.violations (signals : List Declaration) (block : Block) : List LoweringError :=
  along (Assign.violations signals block.span) [] block.assignments

/-- What is wrong with a file, the first violation first. -/
def FlowFile.violations (file : FlowFile) : List LoweringError :=
  along Declaration.violations [] file.signals ++ file.blocks.flatMap (Block.violations file.signals)

/-! ### Files without violations -/

section
variable {signals : List Declaration} {name : String} {d : Declaration}

theorem declarationOf?_eq_none_iff :
    declarationOf? signals name = none ↔ ∀ d ∈ signals, d.name.name ≠ name := by
  simp [declarationOf?]

theorem name_of_declarationOf? (h : declarationOf? signals name = some d) : d.name.name = name := by
  simpa using List.find?_some h

theorem mem_of_declarationOf? (h : declarationOf? signals name = some d) : d ∈ signals :=
  List.mem_of_find?_eq_some h

theorem assignmentTo?_eq_none_iff {assignments : List Assign} :
    assignmentTo? assignments name = none ↔ ∀ a ∈ assignments, a.target.name ≠ name := by
  simp [assignmentTo?]

/-- Where names are distinct, a declaration is found by its name. -/
theorem declarationOf?_eq_some_iff (hnames : (signals.map fun d => d.name.name).Nodup) :
    declarationOf? signals name = some d ↔ d ∈ signals ∧ d.name.name = name := by
  refine ⟨fun h => ⟨mem_of_declarationOf? h, name_of_declarationOf? h⟩, fun ⟨hd, hname⟩ => ?_⟩
  cases h : declarationOf? signals name with
  | none => exact absurd hname (declarationOf?_eq_none_iff.mp h d hd)
  | some d' =>
      refine congrArg some (List.inj_on_of_nodup_map hnames (mem_of_declarationOf? h) hd ?_)
      rw [name_of_declarationOf? h, hname]

/-- What is said of some declaration of a name is said of the one that is found. -/
theorem exists_declared_iff (hnames : (signals.map fun d => d.name.name).Nodup)
    (h : declarationOf? signals name = some d) {P : Declaration → Prop} :
    (∃ d' ∈ signals, d'.name.name = name ∧ P d') ↔ P d := by
  simp only [← and_assoc, ← declarationOf?_eq_some_iff hnames, h, Option.some.injEq, exists_eq_left']

theorem Number.violations_eq_nil_iff {number : Number} {target : String} {width : Nat} :
    number.violations target width = [] ↔ number.value < 2 ^ width := by
  simp [violations]

theorem Number.widthViolations_eq_nil_iff {width : Number} :
    width.widthViolations = [] ↔ 1 ≤ width.value ∧ width.value ≤ 2 ^ 32 - 1 := by
  unfold widthViolations
  split
  · simp only [reduceCtorEq, false_iff]
    omega
  · split
    · simp only [true_iff]
      omega
    · simp only [reduceCtorEq, false_iff]
      omega

theorem Declaration.violations_eq_nil_iff {earlier : List Declaration} :
    d.violations earlier = [] ↔ (∀ first ∈ earlier, first.name.name ≠ d.name.name) ∧
      (1 ≤ d.width.value ∧ d.width.value ≤ 2 ^ 32 - 1) ∧
      ∀ number ∈ d.init, number.value < 2 ^ d.width.value := by
  simp [violations, Number.widthViolations_eq_nil_iff, Number.violations_eq_nil_iff,
    declarationOf?_eq_none_iff]

variable (hnames : (signals.map fun d => d.name.name).Nodup) {a : Assign}
include hnames

theorem Assign.sourceViolations_eq_nil_iff :
    a.sourceViolations signals d = [] ↔ a.source.Fits signals a.target.name d.width.value := by
  unfold sourceViolations RightSide.Fits
  cases a.source with
  | constant number => exact Number.violations_eq_nil_iff
  | raw number => exact Number.violations_eq_nil_iff
  | absent => simp
  | forward source =>
      dsimp only
      cases hsource : declarationOf? signals source.name with
      | none =>
          simp only [reduceCtorEq, false_iff]
          exact fun ⟨_, s, hs, hname, _⟩ => declarationOf?_eq_none_iff.mp hsource s hs hname
      | some s =>
          rw [exists_declared_iff hnames hsource]
          grind

theorem Assign.violations_eq_nil_iff {block : Span} {earlier : List Assign} :
    a.violations signals block earlier = [] ↔
      (∀ first ∈ earlier, first.target.name ≠ a.target.name) ∧ ∃ d ∈ signals,
        d.name.name = a.target.name ∧ a.source.Fits signals a.target.name d.width.value := by
  unfold violations
  cases htarget : declarationOf? signals a.target.name with
  | none =>
      simp only [reduceCtorEq, false_iff]
      exact fun ⟨_, d, hd, hname, _⟩ => declarationOf?_eq_none_iff.mp htarget d hd hname
  | some d =>
      rw [exists_declared_iff hnames htarget]
      simp [assignmentTo?_eq_none_iff, Assign.sourceViolations_eq_nil_iff hnames]

theorem Block.violations_eq_nil_iff {block : Block} :
    block.violations signals = [] ↔ block.WellFormed signals := by
  unfold violations
  rw [along_eq_nil_iff fun earlier a => Assign.violations_eq_nil_iff hnames]
  exact ⟨fun h => ⟨h.1, h.2⟩, fun h => ⟨h.once, h.fits⟩⟩

end

theorem FlowFile.violations_eq_nil_iff {file : FlowFile} :
    file.violations = [] ↔ file.WellFormed := by
  unfold violations
  rw [List.append_eq_nil_iff, along_eq_nil_iff fun earlier d => Declaration.violations_eq_nil_iff,
    List.flatMap_eq_nil_iff]
  constructor
  · rintro ⟨⟨hnames, hsignals⟩, hblocks⟩
    exact ⟨hnames, fun d hd => (hsignals d hd).1, fun d hd => (hsignals d hd).2,
      fun block hblock => (Block.violations_eq_nil_iff hnames).mp (hblocks block hblock)⟩
  · intro h
    exact ⟨⟨h.names, fun d hd => ⟨h.widths d hd, h.initials d hd⟩⟩,
      fun block hblock => (Block.violations_eq_nil_iff h.names).mpr (h.blocks block hblock)⟩

end ControlStore.Source
