import ControlStore.Proofs.Interfaces

/-! # The identifiers of a decoder

The ports of a decoder module, the signals inside it and the labels of its processes share one
scope.  Allocated signals are named apart from the signals of the design and from each other, as far
as the generator gives fresh names.  The labels are fixed and the generator does not know them, so it
has to keep away from them by itself (`NameGenerator.AvoidsLabels`; the counting generator does).  Then
a name is used twice exactly if a signal of the interface bears the name of a process
(`Design.identifiers_nodup_iff`). -/

namespace ControlStore

/-- The names of the ports, of the signals inside the module and of its processes. -/
def DecoderModule.identifiers (M : DecoderModule) : Checked (List String) := do
  let ports ← M.ports
  let inside := M.locals.filter fun l => l.usage = .plain
  return ports.map Port.name ++ inside.map LocalSignal.name ++ M.processes.map fun p => p.procedure.name

/-- The name is that of a process of the decoder and of a signal of its interface. -/
def FlowMatrix.Shadows (m : FlowMatrix) (mode : DecoderMode) (name : String) : Prop :=
  name ∈ mode.labels ∧ ∃ s ∈ m.freeSources ++ m.targets, ∃ signal, m.signals[s]? = some signal ∧ signal.name = name

/-! ### Labels and allocated names -/

namespace DecoderMode

theorem labels_begin {mode : DecoderMode} {name : String} (h : name ∈ mode.labels) :
    ∃ rest, name.toList = 'c' :: 'w' :: 'd' :: rest := by
  unfold labels at h
  split at h
  · rcases List.mem_cons.mp h with rfl | h
    · exact ⟨_, rfl⟩
    · obtain rfl := List.mem_singleton.mp h
      exact ⟨_, rfl⟩
  · obtain rfl := List.mem_singleton.mp h
    exact ⟨_, rfl⟩

theorem labels_nodup (mode : DecoderMode) : mode.labels.Nodup := by
  cases mode <;> decide

end DecoderMode

/-- The stems of the names of signals that a decoder allocates. -/
inductive DecoderStem : String → Prop
  | controlWord : DecoderStem "cw"
  | clock : DecoderStem "clk"
  | register {stem : String} (h : RegisterStem stem) : DecoderStem stem

namespace NameGenerator

/-- No signal that a decoder allocates is named like a process of the mode. -/
def AvoidsLabels (g : NameGenerator) (mode : DecoderMode) : Prop :=
  ∀ stem name, DecoderStem stem → g.Gives stem name → name ∉ mode.labels

/-- Behind `cw` a label goes on with a letter, and no other stem begins like a label. -/
theorem avoidsLabels_counting (mode : DecoderMode) : counting.AvoidsLabels mode := by
  intro stem name hstem hgives hlabel
  obtain ⟨rest, hrest⟩ := DecoderMode.labels_begin hlabel
  obtain ⟨digits, hname, hdigits⟩ := hgives.derived
  rw [hname] at hrest
  cases hstem with
  | controlWord =>
      obtain rfl : digits = 'd' :: rest := by simpa using hrest
      exact absurd (hdigits 'd' List.mem_cons_self) (by decide)
  | clock => simp at hrest
  | register hstem =>
      cases hstem with
      | value => simp at hrest
      | delayedValue => simp at hrest
      | symbol order => simp [toString] at hrest
      | delayedSymbol order => simp [toString] at hrest

end NameGenerator

namespace Design

variable {g : NameGenerator} {m : FlowMatrix} {mode : DecoderMode} {M₀ M : DecoderModule}

/-! ### Names of ports and signals -/

theorem mem_names_of_isPort {direction : Direction} {ss : List SignalId} {ps : List Port}
    (h : List.Forall₂ (m.IsPort direction) ss ps) {name : String} :
    name ∈ ps.map Port.name ↔ ∃ s ∈ ss, ∃ signal, m.signals[s]? = some signal ∧ signal.name = name := by
  rw [List.mem_map, ← exists_mem_iff_of_forall₂ h]
  rintro s - p ⟨signal, hsignal, rfl⟩
  simp [hsignal]

section
variable {width : Nat} {cwName : String} (hcw : HasControlWord g m width cwName M₀) (h : Decodes m mode M₀ M)
include hcw h

theorem locals_not_labels (hlabels : g.AvoidsLabels mode) : ∀ l ∈ M.locals, l.name ∉ mode.labels := by
  have hgenerator : M₀.names.generator = g := by
    obtain ⟨-, -, rfl⟩ := DecoderModule.allocate_eq_ok_iff.mp hcw.allocated
    rfl
  obtain ⟨clock, registers, hlocals, -, -, hclock, hregisters⟩ := h.locals
  rw [hgenerator] at hclock hregisters
  rw [hlocals, hcw.locals]
  simp only [List.forall_mem_append, List.forall_mem_singleton]
  refine ⟨⟨hlabels _ _ .controlWord hcw.named, fun l hl => ?_⟩, fun l hl => ?_⟩
  · split at hl
    · next hstaged =>
      obtain rfl := List.mem_singleton.mp hl
      exact hlabels _ _ .clock (hclock hstaged)
    · cases hl
  · obtain ⟨stem, hstem, hname⟩ := (hregisters l hl).name
    exact hlabels _ _ (.register hstem) hname

omit hcw h in
/-- The ports that are allocated and the signals inside are all allocated signals. -/
theorem allocated_perm (M : DecoderModule) (rest : List Port) :
    ((M.ownPorts ++ rest).map Port.name ++ (M.locals.filter fun l => l.usage = .plain).map LocalSignal.name).Perm
      (M.locals.map LocalSignal.name ++ rest.map Port.name) := by
  have hfilter : ((M.locals.filter fun l => l.usage ≠ .plain) ++ M.locals.filter fun l => l.usage = .plain).Perm
      M.locals := by
    simpa using List.perm_append_comm.trans (List.filter_append_perm (fun l => l.usage = .plain) M.locals)
  unfold DecoderModule.ownPorts
  rw [List.map_append, List.map_map, List.append_assoc]
  refine (List.perm_append_comm.append_left _).trans ?_
  rw [← List.append_assoc]
  refine List.Perm.append_right _ ?_
  show (List.map LocalSignal.name _ ++ _).Perm _
  rw [← List.map_append]
  exact hfilter.map LocalSignal.name

/-- All names but the labels are distinct; the labels among them are names of the interface. -/
theorem identifiers_ok (hfresh : g.GivesFresh) (hlabels : g.AvoidsLabels mode) (hv : m.validate = .ok ())
    (hnames : (m.signals.map Signal.name).Nodup) :
    ∃ names, M.identifiers = .ok (names ++ mode.labels) ∧ names.Nodup ∧
      ∀ name, name ∈ mode.labels ∧ name ∈ names ↔ m.Shadows mode name := by
  obtain ⟨inputs, outputs, hports, hinputs, houtputs⟩ := h.ports_ok hv hcw.matrix
  have hapart : M.NamedApart :=
    h.enlarges.namedApart ((DecoderModule.namedApart_ofMatrix hfresh hnames).allocate hcw.allocated)
  have hmatrix : M.matrix = m := h.enlarges.frame.2.1.trans hcw.matrix
  have hmem : ∀ name, name ∈ (inputs ++ outputs).map Port.name ↔
      ∃ s ∈ m.freeSources ++ m.targets, ∃ signal, m.signals[s]? = some signal ∧ signal.name = name := by
    intro name
    simp only [List.map_append, List.mem_append, mem_names_of_isPort hinputs, mem_names_of_isPort houtputs,
      or_and_right, exists_or]
  have hperm := allocated_perm M (inputs ++ outputs)
  refine ⟨_, ?_, hperm.nodup_iff.mpr ?_, fun name => ?_⟩
  · unfold DecoderModule.identifiers
    rw [hports, ok_bind, ← h.labels, List.append_assoc]
    rfl
  · refine DecoderModule.nodup_locals_ports hapart ?_ ?_
    · rwa [hmatrix, h.sources_eq hv]
    · rwa [hmatrix, h.driven_keys]
  · rw [hperm.mem_iff, List.mem_append, hmem]
    refine and_congr_right fun hlabel => or_iff_right fun hlocal => ?_
    obtain ⟨l, hl, rfl⟩ := List.mem_map.mp hlocal
    exact locals_not_labels hcw h hlabels l hl hlabel

end

/-- With a generator whose names are fresh and no labels, the ports of a decoder, the signals inside it
and its processes are named apart from each other, unless a signal of the interface bears the name of
a process. -/
theorem identifiers_nodup_iff {m : FlowMatrix} (hv : m.validate = .ok ())
    (hnames : (m.signals.map Signal.name).Nodup) (hpos : ∀ s ∈ m.signals, 0 < s.width)
    (hfit : m.laneBits + m.selectorBits < Width.limit) (bound : Nat) {mode : DecoderMode} {g : NameGenerator}
    (hfresh : g.GivesFresh) (hlabels : g.AvoidsLabels mode) {width : Nat} (hwidth : 0 < width) :
    ∃ d report, (compute m bound).result = .ok (d, report) ∧
      ∃ cw M₀ d' M names, (DecoderModule.ofMatrix g m).allocate .input "cw" width = .ok (cw, M₀) ∧
        d.addDecoder mode M₀ cw = .ok (d', M) ∧ M.identifiers = .ok names ∧
        (∀ name, 1 < names.count name ↔ m.Shadows mode name) ∧
        (names.Nodup ↔ ∀ name, ¬ m.Shadows mode name) := by
  obtain ⟨d, report, hcompute, h⟩ := compute_ok hv hfit bound
  obtain ⟨cwName, M₀, d', M, hcw, hM, hdecodes⟩ := exists_decoder h hv hpos g mode hwidth
  obtain ⟨names, hidentifiers, hnodup, hshadows⟩ := identifiers_ok hcw hdecodes hfresh hlabels hv hnames
  have hcount : ∀ name, 1 < (names ++ mode.labels).count name ↔ m.Shadows mode name := by
    intro name
    rw [← hshadows, List.count_append]
    have hleft := List.nodup_iff_count_le_one.mp hnodup name
    have hright := List.nodup_iff_count_le_one.mp mode.labels_nodup name
    rw [← List.count_pos_iff, ← List.count_pos_iff]
    omega
  refine ⟨d, report, hcompute, .inner 0, M₀, d', M, _, hcw.allocated, hM, hidentifiers, hcount, ?_⟩
  rw [List.nodup_iff_count_le_one]
  exact forall_congr' fun name => by rw [← hcount, Nat.not_lt]

theorem identifiers_nodup_tapped : ∃ d report, (compute .tapped 6).result = .ok (d, report) ∧
    ∃ cw M₀ d' M names, (DecoderModule.ofMatrix .counting .tapped).allocate .input "cw" 2 = .ok (cw, M₀) ∧
      d.addDecoder .registered M₀ cw = .ok (d', M) ∧ M.identifiers = .ok names ∧ names.Nodup := by
  obtain ⟨d, report, hcompute, cw, M₀, d', M, names, hM₀, hM, hidentifiers, -, hnodup⟩ := identifiers_nodup_iff
    (m := .tapped) (by decide) (by decide) (by decide) (by decide) 6 NameGenerator.givesFresh_counting
    (NameGenerator.avoidsLabels_counting .registered) Nat.two_pos
  refine ⟨d, report, hcompute, cw, M₀, d', M, names, hM₀, hM, hidentifiers, hnodup.mpr ?_⟩
  rintro name ⟨hlabel, s, -, signal, hsignal, rfl⟩
  have hother : ∀ signal ∈ FlowMatrix.tapped.signals, signal.name ∉ DecoderMode.registered.labels := by decide
  exact hother signal (List.mem_of_getElem? hsignal) hlabel

/-- A target that is named like the process of the combinational decoder. -/
def shadowed : FlowMatrix where
  signals := [.zeroed "cwdecode" 4]
  neutral := .ofList [(0, .constant (.ofNat 5 4))]
  steps := [.empty]

/-- The target and the process have the same name, however fresh the names of the generator are. -/
theorem shadowed_repeats : NameGenerator.counting.GivesFresh ∧
    shadowed.validate = .ok () ∧ (shadowed.signals.map Signal.name).Nodup ∧
    (∀ s ∈ shadowed.signals, 0 < s.width) ∧ shadowed.laneBits + shadowed.selectorBits < Width.limit ∧
    ∃ d report cw M₀ d' M names, (compute shadowed 6).result = .ok (d, report) ∧
      (DecoderModule.ofMatrix .counting shadowed).allocate .input "cw" 1 = .ok (cw, M₀) ∧
      d.addDecoder .combinational M₀ cw = .ok (d', M) ∧ M.identifiers = .ok names ∧
      names = ["cw", "cwdecode", "cwdecode"] ∧ ¬ names.Nodup := by
  refine ⟨NameGenerator.givesFresh_counting, by decide, by decide, by decide, by decide, ?_⟩
  exact ⟨_, _, _, _, _, _, _, rfl, rfl, rfl, rfl, rfl, by decide⟩

end Design

end ControlStore
