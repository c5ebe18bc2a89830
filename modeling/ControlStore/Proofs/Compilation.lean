import ControlStore.Proofs.Capacity
import ControlStore.Proofs.JointWidths
import ControlStore.Proofs.Netlists
import ControlStore.Proofs.Partition
import ControlStore.Proofs.Registers
import ControlStore.Proofs.RoundTrip
import ControlStore.Proofs.SizedDecoder

/-! # Compiling a valid matrix

Once the design of a matrix is computed, its decoder is built, its steps are encoded and stored, and
the two are connected.  None of the checks on the way can fail (`Program.ofValid_ok`), with two
exceptions: there is no store of more rows than can be held, and no row of more than 65535 digits can
be written (`Rom.Storable`, `Program.ofValid_error`).  Signals and symbols are numbered by words; a
matrix that is not too large (`FlowMatrix.Indexable`) never runs out of numbers
(`Program.numbered_of_indexable`). -/

namespace ControlStore

/-! ### Stores that can be written -/

namespace Rom

/-- A store of `depth` rows of `width` bits can be held in memory, and its rows can be written. -/
def Storable (rowLimit depth width : Nat) : Prop :=
  depth < rowLimit ∧ (depth = 0 ∨ ControlWord.digitCount width ≤ ControlWord.digitLimit)

instance (rowLimit depth width : Nat) : Decidable (Storable rowLimit depth width) :=
  inferInstanceAs (Decidable (_ ∧ _))

/-- What is wrong with a store of `depth` rows that cannot be held or written. -/
def unstorable (rowLimit depth : Nat) : Fault := if depth < rowLimit then .tooManyDigits else .storeTooLarge

/-- The store of the given words. -/
def ofWords (width : Nat) (words : List ControlWord) : Rom := ⟨width, words.map some⟩

variable {words : List ControlWord}

theorem writtenRows_ofWords (width : Nat) (words : List ControlWord) :
    (ofWords width words).writtenRows = words.zipIdx.map fun e => (e.2, e.1) := by
  unfold writtenRows ofWords
  rw [List.zipIdx_map, List.filterMap_map, ← List.filterMap_eq_map]
  rfl

theorem image_ok (h : ∀ w ∈ words, ∃ text, w.text = .ok text) (width : Nat) :
    ∃ image, (ofWords width words).image = .ok image := by
  have hrows : ∀ row ∈ words.map some, ∃ text,
      (row.getD (ControlWord.zeros width)).text = .ok text ∧ True := by
    intro row hrow
    obtain ⟨w, hw, rfl⟩ := List.mem_map.mp hrow
    obtain ⟨text, htext⟩ := h w hw
    exact ⟨text, htext, trivial⟩
  obtain ⟨lines, hlines, -⟩ := mapM_ok hrows
  exact ⟨_, bind_eq_ok_iff.mpr ⟨lines, hlines, rfl⟩⟩

theorem primitive_ok (h : ∀ w ∈ words, ∃ text, w.text = .ok text) (width : Nat) (name : String) :
    ∃ store, (ofWords width words).primitive name = .ok store := by
  have hrows : ∀ row ∈ (ofWords width words).writtenRows, ∃ line,
      (ofWords width words).rowLine row = .ok line ∧ True := by
    intro row hrow
    rw [writtenRows_ofWords] at hrow
    obtain ⟨e, he, rfl⟩ := List.mem_map.mp hrow
    obtain ⟨text, htext⟩ := h e.1 (List.fst_mem_of_mem_zipIdx he)
    exact ⟨_, bind_eq_ok_iff.mpr ⟨text, htext, rfl⟩, trivial⟩
  obtain ⟨lines, hlines, -⟩ := mapM_ok hrows
  exact ⟨_, bind_eq_ok_iff.mpr ⟨_, bind_eq_ok_iff.mpr ⟨lines, hlines, rfl⟩, rfl⟩⟩

/-- A store is not written if its first word cannot be. -/
theorem primitive_eq_error {first : ControlWord} {fault : Fault} (h : first.text = .error fault)
    (width : Nat) (name : String) : (ofWords width (first :: words)).primitive name = .error fault := by
  unfold primitive body
  rw [writtenRows_ofWords, List.zipIdx_cons, List.map_cons, List.mapM_cons]
  unfold rowLine
  rw [h]
  rfl

end Rom

/-! ### Storing the steps -/

namespace Design

/-- The control word of a step. -/
def wordOf (d : Design) (step : Nat) : ControlWord :=
  match d.matrix.flow step >>= d.encode step with
  | .ok word => word
  | .error _ => .zeros d.width

variable {m : FlowMatrix} {d : Design} (h : LaysOut m d) (hv : m.validate = .ok ())
include h hv

theorem encode_wordOf {step : Nat} (hstep : step < m.steps.length) :
    ∃ flow, m.flow step = .ok flow ∧ d.encode step flow = .ok (d.wordOf step) ∧
      (d.wordOf step).width = d.width := by
  obtain ⟨flow, hflow⟩ := FlowMatrix.exists_flow hstep
  obtain ⟨word, henc⟩ := exists_encode h hv hflow
  have hword : d.wordOf step = word := by
    unfold wordOf
    rw [h.matrix, hflow, ok_bind, henc]
  rw [hword]
  exact ⟨flow, hflow, henc, width_of_encode h hflow henc⟩

theorem storeStep_eq_ok {rom : Rom} {step : Nat} (hstep : step < m.steps.length)
    (hdepth : rom.depth = m.steps.length) (hwidth : rom.wordWidth = d.width) :
    Program.storeStep d rom step = .ok { rom with rows := rom.rows.set step (some (d.wordOf step)) } := by
  obtain ⟨flow, hflow, henc, hword⟩ := encode_wordOf h hv hstep
  unfold Program.storeStep Rom.write
  rw [verifyStep_eq_ok h hv hflow, ok_bind, h.matrix, hflow, ok_bind, henc, ok_bind, hdepth, hwidth, if_pos hstep,
    if_pos hword]

/-- After some steps their words are stored, and all rows behind them are empty. -/
theorem foldlM_storeStep {k : Nat} (hk : k ≤ m.steps.length) :
    (List.range k).foldlM (Program.storeStep d) (.blank m.steps.length d.width) =
      .ok ⟨d.width, (List.range m.steps.length).map fun s => if s < k then some (d.wordOf s) else none⟩ := by
  induction k with
  | zero =>
      unfold Rom.blank
      simp [List.map_const']
  | succ k ih =>
      rw [List.range_succ, List.foldlM_append, ih (by omega), ok_bind, List.foldlM_cons,
        storeStep_eq_ok h hv (by omega) (by simp [Rom.depth]) rfl, ok_bind, List.foldlM_nil, pure_eq_ok]
      congr 2
      refine List.ext_getElem? fun i => ?_
      rw [List.getElem?_set, List.getElem?_map, List.getElem?_map]
      by_cases hi : k = i
      · subst hi
        simp [Nat.lt_of_succ_le hk]
      · have hlt : i < k + 1 ↔ i < k := by omega
        by_cases hin : i < m.steps.length
        · rw [List.getElem?_range hin, Option.map_some, Option.map_some, if_neg hi]
          simp only [hlt]
        · simp [hi, hin]

/-- The words of a store that can be written can be written. -/
theorem words_text {rowLimit : Nat} (hstorable : Rom.Storable rowLimit m.steps.length d.width) :
    ∀ w ∈ (List.range m.steps.length).map d.wordOf, ∃ text, w.text = .ok text := by
  intro w hw
  obtain ⟨step, hstep, rfl⟩ := List.mem_map.mp hw
  have hlt := List.mem_range.mp hstep
  obtain ⟨-, -, -, hwidth⟩ := encode_wordOf h hv hlt
  unfold ControlWord.text
  rw [hwidth, if_pos (hstorable.2.resolve_left (by omega))]
  exact ⟨_, rfl⟩

/-- The store holds the word of every step. -/
theorem stored_eq_ok : (List.range m.steps.length).foldlM (Program.storeStep d)
    (.blank m.steps.length d.width) =
      .ok (.ofWords d.width ((List.range m.steps.length).map d.wordOf)) := by
  rw [foldlM_storeStep h hv (Nat.le_refl _)]
  unfold Rom.ofWords
  rw [List.map_map]
  congr 2
  refine List.map_congr_left fun s hs => ?_
  rw [if_pos (List.mem_range.mp hs)]
  rfl

end Design

/-! ### Numbers of signals and symbols -/

/-- Signals, symbols and allocated signals are numbered by words, and the last word is no number. -/
def indexLimit : Nat := Width.limit - 1

/-- So few signals and steps that there are numbers for the signals, for the symbols of the steps and
for the signals of a decoder, two for each field at most. -/
structure FlowMatrix.Indexable (m : FlowMatrix) : Prop where
  signals : 2 * m.signals.length + 4 ≤ indexLimit
  steps : m.steps.length < indexLimit

/-- There are numbers for the signals of the matrix, for the symbols of any targets and for the signals
of the decoder. -/
structure Numbered (m : FlowMatrix) (M : DecoderModule) : Prop where
  signals : m.signals.length ≤ indexLimit
  symbols : ∀ table : SymbolTable, table.Numbers m.neutralContent m.stepContents → table.count ≤ indexLimit
  locals : M.locals.length ≤ indexLimit

theorem FlowMatrix.length_stepContents (m : FlowMatrix) : m.stepContents.length = m.steps.length := by
  unfold stepContents mergedFlows
  rw [List.length_map, List.length_map]

theorem FlowMatrix.length_targets_le {m : FlowMatrix} (hv : m.validate = .ok ()) :
    m.targets.length ≤ m.signals.length := by
  have hsub : m.targets ⊆ List.range m.signals.length :=
    fun t ht => List.mem_range.mpr (declared_of_mem_targets hv ht)
  have hle := m.targets_nodup.length_le_of_subset hsub
  rwa [List.length_range] at hle

/-! ### The whole program -/

namespace Design

variable {m : FlowMatrix} {M : DecoderModule}

/-- The only input of a decoder is the one for the control word. -/
theorem width_input {g : NameGenerator} {M₀ : DecoderModule} (h : M₀.Enlarges M) {width : Nat}
    (hM₀ : (DecoderModule.ofMatrix g m).allocate .input "cw" width = .ok (.inner 0, M₀)) {ports : List Port}
    (hports : M.ports = .ok ports) {p : Port} (hp : p ∈ ports) (husage : p.usage = .input) :
    p.width = width ∧ p.direction = .input := by
  obtain ⟨l, hl, rfl⟩ := DecoderModule.exists_local_of_mem_ports hports hp (by rw [husage]; decide)
  have hmem : l ∈ M.locals.filter fun l => l.usage = .input :=
    List.mem_filter.mpr ⟨hl, decide_eq_true husage⟩
  rw [h.frame.2.2] at hmem
  obtain ⟨-, -, rfl⟩ := DecoderModule.allocate_eq_ok_iff.mp hM₀
  obtain rfl := List.mem_singleton.mp (List.mem_filter.mp hmem).1
  exact ⟨rfl, rfl⟩

end Design

namespace Program

open Design

variable {e : Platform} {m : FlowMatrix} {d : Design} {report : Report} {c : Config}

theorem result_ofValid (hcompute : (compute m c.bound).result = .ok (d, report)) : (ofValid e m c).result = (do
    let decoder ← decoderModule e.names d c.mode
    let blank ← Rom.ofDepth e.rowLimit m.steps.length d.width
    let rom ← (List.range m.steps.length).foldlM (storeStep d) blank
    let store ← rom.primitive (c.name ++ "_rom")
    let primitive ← decoder.primitive (c.name ++ "_decoder") c.mode
    let ports ← decoder.ports
    let image ← rom.image
    return ⟨c.mode, rom, image, [store, primitive],
      connect e.names c.name ports rom (c.name ++ "_rom") (c.name ++ "_decoder"), report⟩) := by
  unfold ofValid
  simp only [Traced.result_bind, Traced.result_lift, Traced.result_note, Traced.result_pure, hcompute, ok_bind]
  rfl

section
variable (h : LaysOut m d) (hv : m.validate = .ok ()) (hpos : ∀ s ∈ m.signals, 0 < s.width)
  (hcompute : (compute m c.bound).result = .ok (d, report))
include h hv hpos hcompute

/-- A matrix whose store can be held and written is compiled. -/
theorem ofValid_ok (hstorable : Rom.Storable e.rowLimit m.steps.length d.width) :
    ∃ p, (ofValid e m c).result = .ok p ∧
    p.rom = .ofWords d.width ((List.range m.steps.length).map d.wordOf) ∧
    (e.names.GivesFresh → (m.signals.map Signal.name).Nodup → p.component.WellConnected p.primitives) := by
  have hdepth := hstorable.1
  have htext := words_text h hv hstorable
  obtain ⟨M, hM, -⟩ := exists_decoderModule h hv hpos e.names c.mode
  obtain ⟨M₀, hM₀, hextends, hsized⟩ := decoderModule_sized h hv hpos hM
  obtain ⟨ports, hports⟩ := DecoderModule.ports_ok_of_sized hsized
  obtain ⟨text, hbody⟩ := DecoderModule.text_ok hsized
  obtain ⟨store, hstore⟩ := Rom.primitive_ok htext d.width (c.name ++ "_rom")
  obtain ⟨image, himage⟩ := Rom.image_ok htext d.width
  rw [result_ofValid hcompute, hM, ok_bind, Rom.ofDepth, if_pos hdepth, ok_bind, stored_eq_ok h hv, ok_bind, hstore,
    ok_bind, DecoderModule.primitive, hports, ok_bind, hbody, ok_bind, pure_eq_ok, ok_bind, ok_bind, himage, ok_bind]
  refine ⟨_, rfl, rfl, fun hfresh hnames => ?_⟩
  have hapart := hextends.enlarges.namedApart ((DecoderModule.namedApart_ofMatrix hfresh hnames).allocate hM₀)
  refine connect_wellConnected hfresh (DecoderModule.nodup_ports hapart hports) ?_ ?_ hstore rfl rfl
  · exact fun p hp husage => width_input hextends.enlarges hM₀ hports hp husage
  · intro heq
    have hlength := congrArg String.length heq
    rw [String.length_append, String.length_append] at hlength
    exact absurd (Nat.add_left_cancel hlength) (by decide)

/-- A matrix whose store cannot be held or written is not compiled; if it can be held there is a first
row, and it has too many digits. -/
theorem ofValid_error (hstorable : ¬ Rom.Storable e.rowLimit m.steps.length d.width) :
    (ofValid e m c).result = .error (Rom.unstorable e.rowLimit m.steps.length) := by
  obtain ⟨M, hM, -⟩ := exists_decoderModule h hv hpos e.names c.mode
  unfold Rom.unstorable
  rw [result_ofValid hcompute, hM, ok_bind, Rom.ofDepth]
  by_cases hdepth : m.steps.length < e.rowLimit
  · simp only [Rom.Storable, hdepth, true_and, not_or, Nat.not_le] at hstorable
    obtain ⟨hpos, hdigits⟩ := hstorable
    obtain ⟨n, hn⟩ := Nat.exists_eq_succ_of_ne_zero hpos
    obtain ⟨-, -, -, hwidth⟩ := encode_wordOf h hv (Nat.pos_of_ne_zero hpos)
    have hfirst : (d.wordOf 0).text = .error .tooManyDigits := by
      unfold ControlWord.text
      rw [hwidth, if_neg (Nat.not_le.mpr hdigits)]
    rw [if_pos hdepth, if_pos hdepth, ok_bind, stored_eq_ok h hv, ok_bind, hn, List.range_succ_eq_map,
      List.map_cons, Rom.primitive_eq_error hfirst]
    rfl
  · rw [if_neg hdepth, if_neg hdepth]
    rfl

end

theorem ofValid_of_compute_error {f : Fault} (hcompute : (compute m c.bound).result = .error f) :
    (ofValid e m c).result = .error f := by
  unfold ofValid
  rw [Traced.result_bind, hcompute]
  rfl

theorem result_compile (e : Platform) (hv : m.validate = .ok ()) (c : Config) :
    (compile e m c).result = (ofValid e m c).result.mapError .fault := by
  unfold compile
  rw [hv]
  rfl

/-- Nothing that is numbered in the course of compilation runs out of numbers. -/
theorem numbered_of_indexable (hv : m.validate = .ok ()) (hindex : m.Indexable) {bound : Nat}
    (hcompute : (compute m bound).result = .ok (d, report)) {g : NameGenerator} {mode : DecoderMode}
    {M : DecoderModule} (hM : decoderModule g d mode = .ok M) : Numbered m M where
  signals := by
    have := hindex.signals
    omega
  symbols table htable := by
    have hcount := htable.count_le
    have hsteps := hindex.steps
    rw [FlowMatrix.length_stepContents] at hcount
    omega
  locals := by
    obtain ⟨⟨cw, M₀⟩, hcw, hM⟩ := bind_eq_ok_iff.mp hM
    obtain ⟨⟨d', M₁⟩, hadd, ⟨⟩⟩ := bind_eq_ok_iff.mp hM
    obtain ⟨-, rfl, rfl⟩ := DecoderModule.allocate_eq_ok_iff.mp hcw
    have hlocals := addDecoder_locals_length hadd
    have hfields := length_fields_le hv hcompute
    have htargets := FlowMatrix.length_targets_le hv
    have hsignals := hindex.signals
    simp only [DecoderModule.ofMatrix, List.nil_append, List.length_singleton] at hlocals
    omega

/-- A valid matrix that is not too large, whose signals are named apart and whose lanes and selectors
fit a word is compiled, whatever the configuration, exactly if its store can be held and written.  The
store then has one row for every step, the row of a step is its control word, and the component is
well connected.  No numbers run out on the way. -/
theorem compile_ok_iff_storable {e : Platform} (hfresh : e.names.GivesFresh) {m : FlowMatrix}
    (hv : m.validate = .ok ()) (hnames : (m.signals.map Signal.name).Nodup)
    (hpos : ∀ s ∈ m.signals, 0 < s.width) (hfit : m.laneBits + m.selectorBits < Width.limit)
    (hindex : m.Indexable) (c : Config) :
    ∃ d report M, (compute m c.bound).result = .ok (d, report) ∧ decoderModule e.names d c.mode = .ok M ∧
      Numbered m M ∧
      (Rom.Storable e.rowLimit m.steps.length d.width → ∃ p, (compile e m c).result = .ok p ∧
        p.rom.depth = m.steps.length ∧
        (∀ step < m.steps.length, ∃ flow word, m.flow step = .ok flow ∧
          d.encode step flow = .ok word ∧ p.rom.row step = .ok (some word)) ∧
        p.component.WellConnected p.primitives) ∧
      (¬ Rom.Storable e.rowLimit m.steps.length d.width →
        (compile e m c).result = .error (.fault (Rom.unstorable e.rowLimit m.steps.length))) := by
  obtain ⟨d, report, hcompute, h⟩ := compute_ok hv hfit c.bound
  obtain ⟨M, hM, -⟩ := exists_decoderModule h hv hpos e.names c.mode
  refine ⟨d, report, M, hcompute, hM, numbered_of_indexable hv hindex hcompute hM, fun hstorable => ?_,
    fun hstorable => ?_⟩
  · obtain ⟨p, hp, hrom, hconnected⟩ := ofValid_ok h hv hpos hcompute hstorable
    refine ⟨p, by rw [result_compile e hv, hp]; rfl, ?_, fun step hstep => ?_, hconnected hfresh hnames⟩
    · rw [hrom]
      simp [Rom.depth, Rom.ofWords]
    · obtain ⟨flow, hflow, henc, -⟩ := encode_wordOf h hv hstep
      refine ⟨flow, d.wordOf step, hflow, henc, fetch_eq_ok_iff.mpr ?_⟩
      rw [hrom]
      simp [Rom.ofWords, hstep]
  · rw [result_compile e hv, ofValid_error h hv hpos hcompute hstorable]
    rfl

theorem compile_ok_mixed : ∃ d report, (compute .mixed 6).result = .ok (d, report) ∧
    Rom.Storable 4 3 d.width ∧ ∃ p, (compile ⟨.counting, 4⟩ .mixed { mode := .registered }).result = .ok p ∧
      p.rom.depth = 3 ∧ p.component.WellConnected p.primitives := by
  obtain ⟨d, report, -, hcompute, -, -, hok, -⟩ := compile_ok_iff_storable (e := ⟨.counting, 4⟩)
    NameGenerator.givesFresh_counting (m := .mixed) (by decide) (by decide) (by decide) (by decide)
    ⟨by decide, by decide⟩ { mode := .registered }
  have hstorable : Rom.Storable 4 3 d.width := by
    obtain rfl : _ = d := congrArg Prod.fst (Except.ok.inj hcompute)
    decide
  obtain ⟨p, hp, hdepth, -, hconnected⟩ := hok hstorable
  exact ⟨d, report, hcompute, hstorable, p, hp, hdepth, hconnected⟩

/-- One target that holds a literal of 262141 bits in the only step. -/
def wide : FlowMatrix where
  signals := [.zeroed "a" 262141]
  neutral := .ofList [(0, .raw (.zero 262141))]
  steps := [.empty]

/-- A valid matrix whose control word has one digit too many is not compiled, whatever the names and
however many rows a store may have. -/
theorem wide_not_written : wide.validate = .ok () ∧ (wide.signals.map Signal.name).Nodup ∧
    (∀ s ∈ wide.signals, 0 < s.width) ∧ wide.laneBits + wide.selectorBits < Width.limit ∧ wide.Indexable ∧
    ∀ e : Platform, 1 < e.rowLimit → (compile e wide {}).result = .error (.fault .tooManyDigits) := by
  have hv : wide.validate = .ok () := by decide
  have hpos : ∀ s ∈ wide.signals, 0 < s.width := by decide
  have hfit : wide.laneBits + wide.selectorBits < Width.limit := by decide
  obtain ⟨d, report, hcompute, h⟩ := compute_ok hv hfit 6
  have hwidth : d.width = 262141 := by
    obtain rfl : _ = d := congrArg Prod.fst (Except.ok.inj hcompute)
    rfl
  refine ⟨hv, by decide, hpos, hfit, ⟨by decide, by decide⟩, fun e hrows => ?_⟩
  have hdigits : ¬ (1 = 0 ∨ ControlWord.digitCount 262141 ≤ ControlWord.digitLimit) := by decide
  have hstorable : ¬ Rom.Storable e.rowLimit 1 d.width := by
    rw [hwidth]
    exact fun hstorable => hdigits hstorable.2
  have herror : (ofValid e wide {}).result = .error (Rom.unstorable e.rowLimit 1) :=
    ofValid_error (c := {}) h hv hpos hcompute hstorable
  rw [result_compile e hv, herror, Rom.unstorable, if_pos hrows]
  rfl

end Program

end ControlStore
