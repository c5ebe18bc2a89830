import ControlStore.CommandLine.Session
import ControlStore.Proofs.Compilation
import ControlStore.Proofs.Lowering

/-! # What becomes of a source text

A flow file that could be lowered gives a valid matrix whose signals are named apart and have positive
widths (`Source.FlowFile.lower_spec`).  So compiling a source text ends in a diagnostic or in a program
unless a sum of widths overflows or the store cannot be held or written, and these faults are the only
ones (`Session.compileText_error_iff`), as long as there are numbers for all that the file declares
(`Source.FlowFile.Indexable`). -/

namespace ControlStore

namespace Source

/-- So few declarations and steps that there are numbers for the signals, for the symbols of the steps
and for the signals of a decoder. -/
structure FlowFile.Indexable (file : FlowFile) : Prop where
  signals : 2 * file.signals.length + 4 ≤ indexLimit
  steps : file.steps.length < indexLimit

variable {file : FlowFile} {m : FlowMatrix}

theorem FlowFile.Indexable.lower (hindex : file.Indexable) (h : file.lower = .ok m) : m.Indexable := by
  obtain ⟨-, hlowered⟩ := file.reports_lower.of_eq_ok h
  exact ⟨hlowered.signals.length_eq ▸ hindex.signals, hlowered.steps.length_eq ▸ hindex.steps⟩

/-- A flow file that is lowered gives a valid matrix, and signals as they must be declared. -/
theorem FlowFile.lower_spec (h : file.lower = .ok m) :
    m.validate = .ok () ∧ (m.signals.map Signal.name).Nodup ∧ ∀ s ∈ m.signals, 0 < s.width := by
  obtain ⟨hnone, hlowered⟩ := file.reports_lower.of_eq_ok h
  have hwell := violations_eq_nil_iff.mp hnone
  refine ⟨hlowered.validate hwell, ?_, fun s hs => ?_⟩
  · have hnames : file.signals.map (fun d => d.name.name) = m.signals.map Signal.name := by
      rw [← List.forall₂_eq_eq_eq, List.forall₂_map_left_iff, List.forall₂_map_right_iff]
      exact hlowered.signals.imp fun _ _ hdescribes => hdescribes.name.symm
    rw [← hnames]
    exact hwell.names
  · obtain ⟨i, hi⟩ := List.mem_iff_getElem?.mp hs
    obtain ⟨d, hd, hdescribes⟩ := exists_getElem?_of_forall₂ hlowered.signals.flip hi
    rw [hdescribes.width]
    exact (hwell.widths d (List.mem_of_getElem? hd)).1

end Source

namespace Session

open Design

variable {e : Platform} {m : FlowMatrix} {c : Config} {text : String}

theorem readMatrix_eq_ok_iff :
    readMatrix text = .ok m ↔ ∃ file, Source.FlowFile.parse text = .ok file ∧ file.lower = .ok m := by
  unfold readMatrix
  cases hparse : Source.FlowFile.parse text with
  | error e => simp [Except.mapError]
  | ok file => cases hlower : file.lower <;> simp [Except.mapError, hlower]

theorem readMatrix_spec (h : readMatrix text = .ok m) :
    m.validate = .ok () ∧ (m.signals.map Signal.name).Nodup ∧ ∀ s ∈ m.signals, 0 < s.width := by
  obtain ⟨file, -, hlower⟩ := readMatrix_eq_ok_iff.mp h
  exact Source.FlowFile.lower_spec hlower

theorem result_compileText (e : Platform) (h : readMatrix text = .ok m) (c : Config) :
    (compileText e text c).result = (Program.ofValid e m c).result.mapError .fault := by
  obtain ⟨hv, -⟩ := readMatrix_spec h
  unfold compileText
  rw [Traced.result_bind, h]
  show ((Program.compile e m c).result.mapError _) = _
  rw [Program.result_compile e hv]
  cases (Program.ofValid e m c).result with
  | error f => rfl
  | ok p => rfl

theorem compileText_of_error (e : Platform) {d : Diagnostic} (h : readMatrix text = .error d) (c : Config) :
    (compileText e text c).result = .error (.diagnostic d) := by
  unfold compileText
  rw [Traced.result_bind, h]
  rfl

/-- A text that denotes a matrix is compiled, unless a sum of widths overflows or the store cannot be
held or written. -/
theorem compileText_cases (e : Platform) (h : readMatrix text = .ok m) (c : Config) :
    (m.Overflows c.bound ∧ (compileText e text c).result = .error (.fault .sumTooLarge)) ∨
      (¬ m.Overflows c.bound ∧ ∃ d report M, (compute m c.bound).result = .ok (d, report) ∧
        Program.decoderModule e.names d c.mode = .ok M ∧
        ((Rom.Storable e.rowLimit m.steps.length d.width ∧ ∃ p, (compileText e text c).result = .ok p ∧
            (e.names.GivesFresh → p.component.WellConnected p.primitives)) ∨
          (¬ Rom.Storable e.rowLimit m.steps.length d.width ∧
            (compileText e text c).result = .error (.fault (Rom.unstorable e.rowLimit m.steps.length))))) := by
  obtain ⟨hv, hnames, hpos⟩ := readMatrix_spec h
  have hresult : ∀ {r}, (Program.ofValid e m c).result = r →
      (compileText e text c).result = r.mapError .fault := fun hr => hr ▸ result_compileText e h c
  rcases compute_cases hv c.bound with ⟨hover, hcompute⟩ | ⟨hnot, d, report, hcompute, hd⟩
  · exact .inl ⟨hover, hresult (Program.ofValid_of_compute_error hcompute)⟩
  · obtain ⟨M, hM, -⟩ := exists_decoderModule hd hv hpos e.names c.mode
    refine .inr ⟨hnot, d, report, M, hcompute, hM, ?_⟩
    by_cases hstorable : Rom.Storable e.rowLimit m.steps.length d.width
    · obtain ⟨p, hp, -, hconnected⟩ := Program.ofValid_ok hd hv hpos hcompute hstorable
      exact .inl ⟨hstorable, p, hresult hp, fun hfresh => hconnected hfresh hnames⟩
    · exact .inr ⟨hstorable, hresult (Program.ofValid_error hd hv hpos hcompute hstorable)⟩

/-- Let there be numbers for all that a source text declares.  Compiling it ends in a diagnostic exactly
if the text denotes no matrix.  It runs into a fault exactly if a sum of widths overflows for the
matrix, or its store cannot be held or written.  It ends in a program otherwise; no numbers ran out on
the way, and the component is well connected if names are fresh. -/
theorem compileText_error_iff (e : Platform) (text : String) (c : Config)
    (hindex : ∀ file, Source.FlowFile.parse text = .ok file → file.Indexable) :
    (∀ d, (compileText e text c).result = .error (.diagnostic d) ↔ readMatrix text = .error d) ∧
      (∀ f, (compileText e text c).result = .error (.fault f) ↔ ∃ m, readMatrix text = .ok m ∧
        ((m.Overflows c.bound ∧ f = .sumTooLarge) ∨
          ∃ d report, (compute m c.bound).result = .ok (d, report) ∧
            ¬ Rom.Storable e.rowLimit m.steps.length d.width ∧ f = Rom.unstorable e.rowLimit m.steps.length)) ∧
      ∀ p, (compileText e text c).result = .ok p → ∃ m d report M, readMatrix text = .ok m ∧
        (compute m c.bound).result = .ok (d, report) ∧ Program.decoderModule e.names d c.mode = .ok M ∧
        Numbered m M ∧ (e.names.GivesFresh → p.component.WellConnected p.primitives) := by
  cases hread : readMatrix text with
  | error d =>
      have hresult := compileText_of_error e hread c
      simp [hresult]
  | ok m =>
      rcases compileText_cases e hread c with ⟨hover, hresult⟩ |
        ⟨hnot, d, report, M, hcompute, hM, ⟨hstorable, p, hresult, hconnected⟩ | ⟨hstorable, hresult⟩⟩
      · have hno : ∀ d report, ¬ (compute m c.bound).result = .ok (d, report) := fun d report hcompute =>
          not_overflows_of_compute (readMatrix_spec hread).1 hcompute hover
        simp only [hresult, hover, hno, false_and, exists_false, or_false, Except.ok.injEq, exists_eq_left',
          true_and, Except.error.injEq, SourceFailure.fault.injEq, reduceCtorEq, implies_true, and_true,
          false_imp_iff]
        exact fun f => eq_comm
      · refine ⟨by simp [hresult], by simp [hresult, hnot, hcompute, hstorable], fun q hq => ?_⟩
        obtain rfl := Except.ok.inj (hresult.symm.trans hq)
        obtain ⟨file, hparse, hlower⟩ := readMatrix_eq_ok_iff.mp hread
        have hnumbered := Program.numbered_of_indexable (readMatrix_spec hread).1
          ((hindex file hparse).lower hlower) hcompute hM
        exact ⟨m, d, report, M, rfl, hcompute, hM, hnumbered, hconnected⟩
      · simp [hresult, hnot, hcompute, hstorable, eq_comm]

/-- Two lanes of `2 ^ 32` bits together. -/
def crowded : String := "signals { a: 4294967295; b: 1; } neutral { a = raw 0; b = raw 1; }"

/-- The matrix of the two lanes. -/
def crowdedMatrix : FlowMatrix where
  signals := [.zeroed "a" 4294967295, .zeroed "b" 1]
  neutral := .ofList [(0, .raw (.zero 4294967295)), (1, .raw (.ofNat 1 1))]
  steps := []

theorem readMatrix_crowded : readMatrix crowded = .ok crowdedMatrix := eq_ok_of_toOption (by decide +kernel)

theorem overflows_crowded : crowdedMatrix.Overflows 6 := .inl (by decide)

theorem crowded_ends_in_fault : (∀ file, Source.FlowFile.parse crowded = .ok file → file.Indexable) ∧
    ∀ f, (compileText ⟨.counting, 1⟩ crowded {}).result = .error (.fault f) ↔ f = .sumTooLarge := by
  have hsizes : (Source.FlowFile.parse crowded).toOption.map (fun file => (file.signals.length, file.steps.length)) =
      some (2, 0) := by decide +kernel
  have hindex : ∀ file, Source.FlowFile.parse crowded = .ok file → file.Indexable := by
    intro file hparse
    rw [hparse] at hsizes
    obtain ⟨hsignals, hsteps⟩ := Prod.mk.inj (Option.some.inj hsizes)
    constructor
    · rw [hsignals]
      decide
    · rw [hsteps]
      decide
  refine ⟨hindex, fun f => ((compileText_error_iff ⟨.counting, 1⟩ crowded {} hindex).2.1 f).trans ?_⟩
  have hno : ∀ d report, ¬ (compute crowdedMatrix 6).result = .ok (d, report) := fun d report hcompute =>
    not_overflows_of_compute (readMatrix_spec readMatrix_crowded).1 hcompute overflows_crowded
  simp [readMatrix_crowded, overflows_crowded, hno]

/-- A text that denotes a valid matrix, and ends in a fault on every platform. -/
theorem crowded_faults : readMatrix crowded = .ok crowdedMatrix ∧
    ∀ e, (compileText e crowded {}).result = .error (.fault .sumTooLarge) := by
  refine ⟨readMatrix_crowded, fun e => ?_⟩
  rcases compileText_cases e readMatrix_crowded {} with ⟨-, herror⟩ | ⟨hnot, -⟩
  · exact herror
  · exact absurd overflows_crowded hnot

end Session

end ControlStore
