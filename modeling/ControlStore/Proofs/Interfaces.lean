import ControlStore.Proofs.Netlists
import ControlStore.Proofs.Registers
import Mathlib.Data.List.Sort

/-! # The interface of a decoder

The ports of a decoder are read off its statements.  The statements that decode a field drive the
targets of the field and read the signals that one of its symbols forwards (`Design.combBody_touches`,
`Design.stagedBody_touches`); since the symbols stand for the contents of the neutral flow and of all
steps, no forwarded signal is lost and none is made up.  So the ports are the control word, the
clock of a staged decoder, the signals that are forwarded without being targets, and the targets
(`Design.decoder_ports`). -/

namespace ControlStore

open NatMap (tabulate)
open StepFlow

/-! ### Forwarded signals -/

namespace FlowMatrix

/-- A flow of the neutral block or of some step forwards the signal. -/
def isForwarded (m : FlowMatrix) (s : SignalId) : Bool :=
  (m.neutral :: m.steps).any fun f => f.entries.any fun e => e.2 = .forward s

/-- The signals that are forwarded and are no targets, in the order of their declarations. -/
def freeSources (m : FlowMatrix) : List SignalId :=
  (List.range m.signals.length).filter fun s => m.isForwarded s && !m.targets.contains s

/-- The target holds the signal in the neutral flow or in some step. -/
def Follows (m : FlowMatrix) (t s : SignalId) : Prop :=
  ∃ c ∈ m.neutralContent :: m.stepContents, c t = .forward s

variable {m : FlowMatrix} {s t : SignalId} {f : StepFlow}

theorem isForwarded_iff :
    m.isForwarded s = true ↔ ∃ f ∈ m.neutral :: m.steps, ∃ t, lookup f t = .forward s := by
  unfold isForwarded
  simp only [List.any_eq_true, decide_eq_true_eq]
  constructor
  · rintro ⟨f, hf, e, he, hs⟩
    refine ⟨f, hf, e.1, ?_⟩
    unfold lookup
    rw [NatMap.get?_eq_some_of_mem he, hs]
    rfl
  · rintro ⟨f, hf, t, ht⟩
    have hget := get?_of_lookup (show lookup f t ≠ .absent by rw [ht]; exact Flow.noConfusion)
    exact ⟨f, hf, (t, lookup f t), NatMap.mem_entries_iff.mpr hget, ht⟩

theorem of_eq_forward_iff {flow : Flow} {default : Content} :
    Content.of flow default = .forward s ↔ flow = .forward s ∨ (flow = .absent ∧ default = .forward s) := by
  cases flow <;> simp [Content.of]

theorem neutralContent_eq_forward_iff : m.neutralContent t = .forward s ↔ lookup m.neutral t = .forward s := by
  unfold neutralContent
  rw [of_eq_forward_iff]
  simp

theorem contentIn_eq_forward_iff : m.contentIn (integrate m.neutral f) t = .forward s ↔
    lookup (integrate m.neutral f) t = .forward s := by
  unfold contentIn
  rw [of_eq_forward_iff, neutralContent_eq_forward_iff, or_iff_left]
  rintro ⟨habsent, hforward⟩
  rw [lookup_neutral_of_absent habsent] at hforward
  cases hforward

/-- The forwarded signals are those that some target holds. -/
theorem exists_follows_iff : (∃ t ∈ m.targets, m.Follows t s) ↔ m.isForwarded s = true := by
  rw [isForwarded_iff]
  unfold Follows stepContents mergedFlows
  rw [List.map_map]
  constructor
  · rintro ⟨t, -, c, hc, hs⟩
    rcases List.mem_cons.mp hc with rfl | hc
    · exact ⟨m.neutral, List.mem_cons_self, t, neutralContent_eq_forward_iff.mp hs⟩
    · obtain ⟨f, hf, rfl⟩ := List.mem_map.mp hc
      have hlookup := contentIn_eq_forward_iff.mp hs
      rw [lookup_integrate] at hlookup
      split at hlookup
      · exact ⟨m.neutral, List.mem_cons_self, t, hlookup⟩
      · exact ⟨f, List.mem_cons_of_mem _ hf, t, hlookup⟩
  · rintro ⟨f, hf, t, ht⟩
    have htarget : t ∈ m.targets := by
      refine Decidable.byContradiction fun hnot => ?_
      rcases List.mem_cons.mp hf with rfl | hf
      · rw [lookup_neutral_of_not_mem hnot] at ht
        cases ht
      · rw [lookup_step_of_not_mem hnot hf] at ht
        cases ht
    refine ⟨t, htarget, ?_⟩
    rcases List.mem_cons.mp hf with rfl | hf
    · exact ⟨m.neutralContent, List.mem_cons_self, neutralContent_eq_forward_iff.mpr ht⟩
    · refine ⟨_, List.mem_cons_of_mem _ (List.mem_map.mpr ⟨f, hf, rfl⟩), contentIn_eq_forward_iff.mpr ?_⟩
      rw [lookup_integrate, if_neg (by rw [ht]; exact Flow.noConfusion), ht]

theorem declared_of_isForwarded (hv : m.validate = .ok ()) (h : m.isForwarded s = true) :
    s < m.signals.length := by
  obtain ⟨hneutral, hsteps⟩ := validate_eq_ok_iff.mp hv
  obtain ⟨f, hf, t, ht⟩ := isForwarded_iff.mp h
  have haccepts : m.Accepts f := (List.mem_cons.mp hf).elim (fun h => h ▸ hneutral) (hsteps f)
  have hget := get?_of_lookup (show lookup f t ≠ .absent by rw [ht]; exact Flow.noConfusion)
  have hcheck := haccepts t _ hget
  rw [ht] at hcheck
  unfold checkFlow at hcheck
  split at hcheck
  · cases hcheck
  · dsimp only at hcheck
    split at hcheck
    · cases hcheck
    · split at hcheck
      · cases hcheck
      · next source hsource => exact (List.getElem?_eq_some_iff.mp hsource).1

theorem mem_freeSources_iff (hv : m.validate = .ok ()) :
    s ∈ m.freeSources ↔ m.isForwarded s = true ∧ s ∉ m.targets := by
  unfold freeSources
  rw [List.mem_filter, List.mem_range, Bool.and_eq_true, Bool.not_eq_true', List.contains_eq_mem,
    decide_eq_false_iff_not]
  exact and_iff_right_of_imp fun h => declared_of_isForwarded hv h.1

theorem freeSources_ascending (m : FlowMatrix) : m.freeSources.Pairwise (· < ·) :=
  List.Pairwise.filter _ List.pairwise_lt_range

/-- One target follows a signal that nothing drives, and another one follows a target. -/
def tapped : FlowMatrix where
  signals := [.zeroed "x" 4, .zeroed "a" 4, .zeroed "b" 4]
  neutral := .ofList [(1, .forward 0)]
  steps := [.ofList [(1, .constant (.ofNat 5 4)), (2, .forward 1)]]

end FlowMatrix

/-- The names of the processes in a decoder of the mode. -/
def DecoderMode.labels (mode : DecoderMode) : List String :=
  if mode.isStaged then ["cwdecode_sync", "cwdecode_comb"] else ["cwdecode"]

namespace Design

variable {m : FlowMatrix} {d : Design}

/-! ### The statements of a field -/

section
variable {valueWord : Option Wire} (hvalue : ∀ w ∈ valueWord, w.Inside)
include hvalue

theorem contentExpr_reads_iff {t s : SignalId} {content : Content} {e : Expr}
    (he : MicroField.contentExpr d.packer valueWord t content = .ok e) :
    Wire.design s ∈ e.wire? ↔ content = .forward s := by
  cases content with
  | literal bits =>
      cases he
      simp [Expr.wire?]
  | forward source =>
      cases he
      simp [Expr.wire?]
  | lane =>
      obtain ⟨lane, -, he⟩ := bind_eq_ok_iff.mp he
      obtain ⟨wire, hwire, he⟩ := bind_eq_ok_iff.mp he
      cases he
      have hinside := hvalue wire (require_eq_ok_iff.mp hwire)
      exact iff_of_false (fun h => hinside s (Option.some.inj h)) Content.noConfusion

/-- Storing contents drives their targets and reads what they forward. -/
theorem storeContents_touches {contents : Contents} {stmts : List Stmt}
    (h : MicroField.storeContents .statements d.packer valueWord contents = .ok stmts) :
    Touches stmts (· ∈ contents.keys) fun s => ∃ t, contents.get? t = some (.forward s) := by
  have hparts := mapM_eq_ok_iff.mp h
  constructor
  · intro s
    rw [mem_drivesOf_iff, ← exists_mem_iff_of_forall₂ (P := fun e => e.1 = s) hparts ?_]
    · simp [NatMap.keys]
    · rintro ⟨t, content⟩ - stmt hstmt
      obtain ⟨e, -, hstmt⟩ := bind_eq_ok_iff.mp hstmt
      cases hstmt
      simp [Recorder.statements, Stmt.drives, eq_comm]
  · intro s
    rw [mem_readsOf_iff, ← exists_mem_iff_of_forall₂ (P := fun e => e.2 = .forward s) hparts ?_]
    · simp [← NatMap.mem_entries_iff]
    · rintro ⟨t, content⟩ - stmt hstmt
      obtain ⟨e, he, hstmt⟩ := bind_eq_ok_iff.mp hstmt
      cases hstmt
      simp only [Recorder.statements, Stmt.reads, Option.mem_toList]
      exact (contentExpr_reads_iff hvalue he).symm

theorem storeContents_tabulate_touches {c : SignalId → Content} {ts : List SignalId} {stmts : List Stmt}
    (h : MicroField.storeContents .statements d.packer valueWord (tabulate c ts) = .ok stmts) :
    Touches stmts (· ∈ ts) fun s => ∃ t ∈ ts, c t = .forward s := by
  refine (storeContents_touches hvalue h).congr (fun s => NatMap.mem_keys_tabulate) fun s => ?_
  simp [NatMap.get?_tabulate]

end

/-- Making the targets of a field unknown reads nothing. -/
theorem storeUnknown_touches {f : MicroField} {stmts : List Stmt} (h : f.storeUnknown .statements m = .ok stmts) :
    Touches stmts (· ∈ f.table.targets) fun _ => False := by
  have hparts := mapM_eq_ok_iff.mp h
  constructor
  · intro s
    rw [mem_drivesOf_iff, ← exists_mem_iff_of_forall₂ (P := fun t => t = s) hparts ?_]
    · simp
    · intro t _ stmt hstmt
      obtain ⟨signal, -, hstmt⟩ := bind_eq_ok_iff.mp hstmt
      cases hstmt
      simp [Recorder.statements, Stmt.drives, eq_comm]
  · intro s
    rw [mem_readsOf_iff, ← exists_mem_iff_of_forall₂ (P := fun _ => False) hparts ?_]
    · simp
    · intro t _ stmt hstmt
      obtain ⟨signal, -, hstmt⟩ := bind_eq_ok_iff.mp hstmt
      cases hstmt
      simp [Recorder.statements, Stmt.reads, Expr.wire?]

section
variable (h : LaysOut m d) {f : MicroField} (hf : f ∈ d.fields)
include h hf

/-- A field with a single symbol holds the neutral contents only. -/
theorem follows_of_count_eq_one (hone : f.table.count = 1) {s : SignalId} :
    (∃ t ∈ f.table.targets, m.neutralContent t = .forward s) ↔ ∃ t ∈ f.table.targets, m.Follows t s := by
  constructor
  · rintro ⟨t, ht, hs⟩
    exact ⟨t, ht, _, List.mem_cons_self, hs⟩
  · rintro ⟨t, ht, c, hc, hs⟩
    have hlt := (h.numbers f hf).codeOf_lt hc
    have hsame := ((h.numbers f hf).codeOf_eq_zero_iff hc).mp (by omega)
    exact ⟨t, ht, hsame t ht ▸ hs⟩

variable {valueWord : Option Wire} (hvalue : ∀ w ∈ valueWord, w.Inside)
include hvalue

/-- The cases for the symbols of a field drive its targets only, and read what some symbol forwards. -/
theorem symbolCases_touch (makeLabel : Nat → Checked Bits) {cases : List (Bits × List Stmt)}
    (hcases : f.table.table.indexed.mapM (fun (symbol, contents) => do
      let l ← makeLabel symbol
      return (l, ← MicroField.storeContents .statements d.packer valueWord contents)) = .ok cases) (s : SignalId) :
    (∀ c ∈ cases, Wire.design s ∈ drivesOf c.2 → s ∈ f.table.targets) ∧
      ((∃ c ∈ cases, Wire.design s ∈ readsOf c.2) ↔ ∃ t ∈ f.table.targets, m.Follows t s) := by
  have hparts := mapM_eq_ok_iff.mp hcases
  have hvalues : ∀ {v}, v ∈ f.table.table.values ↔ ∃ c ∈ m.neutralContent :: m.stepContents,
      v = tabulate c f.table.targets := fun {v} => (h.numbers f hf).mem_values_iff
  constructor
  · intro case hcase hs
    obtain ⟨⟨symbol, contents⟩, hmem, heq⟩ := exists_of_mem_mapM hcases hcase
    obtain ⟨l, -, heq⟩ := bind_eq_ok_iff.mp heq
    obtain ⟨stmts, hstmts, heq⟩ := bind_eq_ok_iff.mp heq
    cases heq
    obtain ⟨c, -, rfl⟩ := hvalues.mp (List.mem_of_getElem? (Interned.mem_indexed_iff.mp hmem))
    exact ((storeContents_tabulate_touches hvalue hstmts).drives s).mp hs
  · rw [← exists_mem_iff_of_forall₂ (P := fun e => ∃ t, e.2.get? t = some (.forward s)) hparts ?_]
    · constructor
      · rintro ⟨⟨symbol, contents⟩, hmem, t, ht⟩
        obtain ⟨c, hc, rfl⟩ := hvalues.mp (List.mem_of_getElem? (Interned.mem_indexed_iff.mp hmem))
        rw [NatMap.get?_tabulate] at ht
        split at ht
        · next hmem => exact ⟨t, hmem, c, hc, Option.some.inj ht⟩
        · cases ht
      · rintro ⟨t, ht, c, hc, hs⟩
        obtain ⟨symbol, hsymbol⟩ := List.mem_iff_getElem?.mp (hvalues.mpr ⟨c, hc, rfl⟩)
        refine ⟨(symbol, _), Interned.mem_indexed_iff.mpr hsymbol, t, ?_⟩
        rw [NatMap.get?_tabulate, if_pos ht, hs]
    · rintro ⟨symbol, contents⟩ - case heq
      obtain ⟨l, -, heq⟩ := bind_eq_ok_iff.mp heq
      obtain ⟨stmts, hstmts, heq⟩ := bind_eq_ok_iff.mp heq
      cases heq
      exact ((storeContents_touches hvalue hstmts).reads s).symm

omit hvalue in
theorem combBody_touches {cw : LocalId} {body : List Stmt}
    (hbody : f.combBody .statements d.packer d.matrix (.inner cw) = .ok body) :
    Touches body (· ∈ f.table.targets) fun s => ∃ t ∈ f.table.targets, m.Follows t s := by
  have hvalue : ∀ w ∈ some (Wire.inner cw), w.Inside := by
    rintro w ⟨⟩
    exact Wire.inside_inner cw
  unfold MicroField.combBody at hbody
  split at hbody
  · next hone =>
    rw [(h.numbers f hf).contents_zero, ok_bind] at hbody
    exact (storeContents_tabulate_touches hvalue hbody).congr (fun _ => .rfl)
      fun s => follows_of_count_eq_one h hf hone
  · obtain ⟨cases, hcases, hbody⟩ := bind_eq_ok_iff.mp hbody
    obtain ⟨fallback, hfallback, hbody⟩ := bind_eq_ok_iff.mp hbody
    cases hbody
    have hsymbols := symbolCases_touch h hf hvalue f.selector hcases
    exact .switch (Expr.inside_slice (Wire.inside_inner cw) f.offset f.width) (fun s => (hsymbols s).1)
      (fun s => (hsymbols s).2) (storeUnknown_touches hfallback)

/-- The case for a register that holds zero repeats symbol 0 and adds nothing. -/
theorem stagedBody_touches {staged : Option StagedSymbol} (hstaged : Staged f staged) {body : List Stmt}
    (hbody : f.stagedBody .statements d.packer d.matrix staged valueWord = .ok body) :
    Touches body (· ∈ f.table.targets) fun s => ∃ t ∈ f.table.targets, m.Follows t s := by
  unfold MicroField.stagedBody at hbody
  rw [(h.numbers f hf).contents_zero, ok_bind] at hbody
  cases staged with
  | none =>
      exact (storeContents_tabulate_touches hvalue hbody).congr (fun _ => .rfl)
        fun s => follows_of_count_eq_one h hf (hstaged.count rfl)
  | some st =>
      obtain ⟨zero, hzero, hbody⟩ := bind_eq_ok_iff.mp hbody
      obtain ⟨cases, hcases, hbody⟩ := bind_eq_ok_iff.mp hbody
      obtain ⟨fallback, hfallback, hbody⟩ := bind_eq_ok_iff.mp hbody
      cases hbody
      have hneutral := storeContents_tabulate_touches hvalue hzero
      have hsymbols := symbolCases_touch h hf hvalue (Bits.oneHot · f.table.count) hcases
      refine .switch (Expr.inside_read (hstaged.inside st rfl).2) (fun s => ?_) (fun s => ?_)
        (storeUnknown_touches hfallback)
      · exact List.forall_mem_cons.mpr ⟨(hneutral.drives s).mp, (hsymbols s).1⟩
      · simp only [List.mem_cons, exists_eq_or_imp, (hsymbols s).2, hneutral.reads]
        refine or_iff_right_of_imp ?_
        rintro ⟨t, ht, hs⟩
        exact ⟨t, ht, _, List.mem_cons_self, hs⟩

end

/-- The statements decode the field, if it is one of the design. -/
def DecodesField (m : FlowMatrix) (d : Design) (f : MicroField) (body : List Stmt) : Prop :=
  f ∈ d.fields → Touches body (· ∈ f.table.targets) fun s => ∃ t ∈ f.table.targets, m.Follows t s

theorem combBodies_decode (h : LaysOut m d) {cw : LocalId} {bodies : List (List Stmt)}
    (hbodies : d.fields.mapM (fun f => f.combBody .statements d.packer d.matrix (.inner cw)) = .ok bodies) :
    List.Forall₂ (DecodesField m d) d.fields bodies :=
  (mapM_eq_ok_iff.mp hbodies).imp fun _ _ hbody hf => combBody_touches h hf hbody

theorem stagedBodies_decode (h : LaysOut m d) {valueWord : Option Wire} (hvalue : ∀ w ∈ valueWord, w.Inside)
    {fields : List MicroField} {staged : List (Option StagedSymbol)} (hstaged : List.Forall₂ Staged fields staged)
    {bodies : List (List Stmt)} (hbodies : (fields.zip staged).mapM
      (fun (f, staged) => f.stagedBody .statements d.packer d.matrix staged valueWord) = .ok bodies) :
    List.Forall₂ (DecodesField m d) fields bodies := by
  induction hstaged generalizing bodies with
  | nil =>
      cases hbodies
      exact .nil
  | cons hs _ ih =>
      rw [List.zip_cons_cons, List.mapM_cons] at hbodies
      obtain ⟨body, hbody, hbodies⟩ := bind_eq_ok_iff.mp hbodies
      obtain ⟨rest, hrest, hbodies⟩ := bind_eq_ok_iff.mp hbodies
      cases hbodies
      exact .cons (fun hf => stagedBody_touches h hf hvalue hs hbody) (ih hrest)

/-- The statements of all fields drive the targets and read the forwarded signals. -/
theorem bodies_touch (h : LaysOut m d) {bodies : List (List Stmt)}
    (hbodies : List.Forall₂ (DecodesField m d) d.fields bodies) :
    Touches bodies.flatten (· ∈ m.targets) fun s => m.isForwarded s = true := by
  have hdrives : ∀ {s}, Wire.design s ∈ drivesOf bodies.flatten ↔ ∃ body ∈ bodies, Wire.design s ∈ drivesOf body := by
    intro s
    simp only [mem_drivesOf_iff, List.mem_flatten]
    grind
  have hreads : ∀ {s}, Wire.design s ∈ readsOf bodies.flatten ↔ ∃ body ∈ bodies, Wire.design s ∈ readsOf body := by
    intro s
    simp only [mem_readsOf_iff, List.mem_flatten]
    grind
  constructor
  · intro s
    rw [hdrives, mem_targets_iff h]
    exact (exists_mem_iff_of_forall₂ hbodies fun f hf body hbody => ((hbody hf).drives s).symm).symm
  · intro s
    rw [hreads, ← FlowMatrix.exists_follows_iff,
      ← exists_mem_iff_of_forall₂ hbodies fun f hf body hbody => ((hbody hf).reads s).symm]
    constructor
    · rintro ⟨f, hf, t, ht, hs⟩
      exact ⟨t, (mem_targets_iff h).mpr ⟨f, hf, ht⟩, hs⟩
    · rintro ⟨t, ht, hs⟩
      obtain ⟨f, hf, ht⟩ := (mem_targets_iff h).mp ht
      exact ⟨f, hf, t, ht, hs⟩

/-! ### The processes of a decoder -/

section
variable {s : SignalId} {label : String} {body : List Stmt}

/-- The signals of the design that a combinational process observes are those it reads. -/
theorem observed_comb {extra : List Wire} (hextra : ∀ w ∈ extra, w.Inside) :
    Wire.design s ∈ (DecoderProcess.comb (.ofBody label body) extra).procedure.reads.toList ++
      (DecoderProcess.comb (.ofBody label body) extra).sensitivity.toList ↔ Wire.design s ∈ readsOf body := by
  have hnot : ¬ Wire.design s ∈ extra := fun h => hextra _ h s rfl
  unfold DecoderProcess.comb
  simp only [List.mem_append, WireSet.mem_insertAll_iff, Procedure.mem_reads_ofBody, hnot, false_or, or_self]

theorem observed_clocked {clock : Wire} (hclock : clock.Inside) :
    Wire.design s ∈ (DecoderProcess.clocked clock (.ofBody label body)).procedure.reads.toList ++
      (DecoderProcess.clocked clock (.ofBody label body)).sensitivity.toList ↔ Wire.design s ∈ readsOf body := by
  have hnot : ¬ Wire.design s = clock := fun h => hclock s h.symm
  have hempty : ¬ Wire.design s ∈ WireSet.empty.toList := nofun
  unfold DecoderProcess.clocked
  simp only [List.mem_append, WireSet.mem_insert_iff, Procedure.mem_reads_ofBody, hnot, hempty, or_false]

end

/-- What is there after a decoder of the mode was added to a module without processes. -/
structure Decodes (m : FlowMatrix) (mode : DecoderMode) (M M' : DecoderModule) : Prop where
  enlarges : M.Enlarges M'
  locals : ∃ clock registers, M'.locals = M.locals ++ (if mode.isStaged then [clock] else []) ++ registers ∧
    clock.usage = .clock ∧ clock.width = 1 ∧ (mode.isStaged = true → M.names.generator.Gives "clk" clock.name) ∧
    ∀ l ∈ registers, l.IsRegister M.names.generator
  labels : M'.processes.map (fun p => p.procedure.name) = mode.labels
  driven : ∀ s, s ∈ M'.driven.keys ↔ s ∈ m.targets
  observed : ∀ s, s ∈ M'.observed.keys ↔ m.isForwarded s = true

section
variable (h : LaysOut m d) {M M' : DecoderModule} (hM : M.processes = []) {cw : LocalId}
include h hM

theorem addCombDecoder_decodes (hadd : d.addCombDecoder M (.inner cw) = .ok M') :
    Decodes m .combinational M M' := by
  rw [addCombDecoder_eq] at hadd
  obtain ⟨bodies, hbodies, hadd⟩ := bind_eq_ok_iff.mp hadd
  cases hadd
  have hbody := bodies_touch h (combBodies_decode h hbodies)
  have hprocesses : ∀ p, (M.addProcess p).processes = [p] := fun p => by
    rw [DecoderModule.addProcess, hM]
    rfl
  constructor
  · exact ⟨M, _, .refl M, rfl⟩
  · exact ⟨⟨"clk", .clock, 1⟩, [], by simp [DecoderModule.addProcess, DecoderMode.isStaged], rfl, rfl, nofun, by simp⟩
  · rw [hprocesses]
    rfl
  · intro s
    unfold DecoderModule.driven
    rw [DecoderModule.mem_design_keys_iff, hprocesses, List.flatMap_singleton]
    exact hbody.drives s
  · intro s
    unfold DecoderModule.observed
    rw [DecoderModule.mem_design_keys_iff, hprocesses, List.flatMap_singleton,
      observed_comb (List.forall_mem_singleton.mpr (Wire.inside_inner cw))]
    exact hbody.reads s

theorem addStagedDecoder_decodes {mode : DecoderMode} (hmode : mode.isStaged = true) {second : Bool}
    (hadd : d.addStagedDecoder second M (.inner cw) = .ok M') : Decodes m mode M M' := by
  obtain ⟨clock, M₀, sync, M₁, valueWord, staged, bodies, hclock, hfills, hvalue, hstaged, hbodies, rfl⟩ :=
    addStagedDecoder_parts hadd
  have hbody := bodies_touch h (stagedBodies_decode h hvalue hstaged hbodies)
  have hgrows : M.Grows M₁ := (DecoderModule.Grows.allocate (by decide) hclock).trans hfills.grows
  have hprocesses : (addStages M₁ clock sync bodies.flatten).processes =
      [.clocked clock (.ofBody "cwdecode_sync" sync), .comb (.ofBody "cwdecode_comb" bodies.flatten) []] := by
    rw [processes_addStages, hgrows.frame.2.2.1, hM]
    rfl
  obtain ⟨registers, hlocals, hregisters⟩ := hfills.locals
  obtain ⟨-, rfl, rfl⟩ := DecoderModule.allocate_eq_ok_iff.mp hclock
  constructor
  · exact ⟨M₁, _, hgrows, rfl⟩
  · refine ⟨⟨(M.names.fresh "clk").1, .clock, 1⟩, registers, ?_, rfl, rfl, fun _ => M.names.gives_fresh "clk",
      hregisters⟩
    rw [hmode]
    exact hlocals
  · rw [hprocesses, DecoderMode.labels, if_pos hmode]
    rfl
  · intro s
    unfold DecoderModule.driven
    rw [DecoderModule.mem_design_keys_iff, hprocesses, List.flatMap_cons, List.flatMap_singleton, List.mem_append]
    exact (or_iff_right (hfills.touches.drives s).mp).trans (hbody.drives s)
  · intro s
    unfold DecoderModule.observed
    rw [DecoderModule.mem_design_keys_iff, hprocesses, List.flatMap_cons, List.flatMap_singleton, List.mem_append,
      observed_clocked (Wire.inside_inner _), observed_comb (by simp)]
    exact (or_iff_right (hfills.touches.reads s).mp).trans (hbody.reads s)

theorem addDecoder_decodes {mode : DecoderMode} {d' : Design}
    (hadd : d.addDecoder mode M (.inner cw) = .ok (d', M')) : Decodes m mode M M' := by
  obtain ⟨-, -, hadd⟩ := bind_eq_ok_iff.mp hadd
  cases mode with
  | combinational =>
      obtain ⟨M₁, hM₁, ⟨⟩⟩ := bind_eq_ok_iff.mp hadd
      exact addCombDecoder_decodes h hM hM₁
  | staged =>
      obtain ⟨M₁, hM₁, ⟨⟩⟩ := bind_eq_ok_iff.mp hadd
      exact addStagedDecoder_decodes h hM rfl hM₁
  | registered =>
      obtain ⟨M₁, hM₁, ⟨⟩⟩ := bind_eq_ok_iff.mp hadd
      exact addStagedDecoder_decodes h hM rfl hM₁

end

theorem addDecoder_ok (h : LaysOut m d) (hv : m.validate = .ok ()) (hpos : ∀ s ∈ m.signals, 0 < s.width)
    (mode : DecoderMode) {M : DecoderModule} {cw : LocalId} (hcw : cw < M.widths.length) :
    ∃ M', d.addDecoder mode M (.inner cw) = .ok ({ d with decoderBuilt := true }, M') := by
  unfold addDecoder
  rw [h.unbuilt]
  cases mode with
  | combinational =>
      obtain ⟨body, hbody, -⟩ := addCombDecoder_ok h hv M cw
      refine ⟨M.addProcess (.comb (.ofBody "cwdecode" body) [.inner cw]), ?_⟩
      dsimp only
      rw [hbody]
      rfl
  | staged =>
      obtain ⟨_, _, _, M', hM', -⟩ := addStagedDecoder_ok h hv hpos false hcw
      refine ⟨M', ?_⟩
      dsimp only
      rw [hM']
      rfl
  | registered =>
      obtain ⟨_, _, _, M', hM', -⟩ := addStagedDecoder_ok h hv hpos true hcw
      refine ⟨M', ?_⟩
      dsimp only
      rw [hM']
      rfl

/-! ### Ports -/

namespace Decodes

variable {mode : DecoderMode} {M M' : DecoderModule} (h : Decodes m mode M M')
include h

theorem driven_keys : M'.driven.keys = m.targets :=
  List.Pairwise.eq_of_mem_iff (NatMap.keys_ascending _) m.targets_ascending h.driven

theorem sources_eq (hv : m.validate = .ok ()) : M'.sources = m.freeSources := by
  unfold DecoderModule.sources
  refine List.Pairwise.eq_of_mem_iff ((NatMap.keys_ascending _).filter _) m.freeSources_ascending fun s => ?_
  rw [List.mem_filter, h.observed, Option.isNone_iff_eq_none, NatMap.get?_eq_none_iff, h.driven,
    FlowMatrix.mem_freeSources_iff hv]

/-- The ports are the allocated clocks and inputs, the free sources and the targets. -/
theorem ports_ok (hv : m.validate = .ok ()) (hM : M.matrix = m) : ∃ inputs outputs,
    M'.ports = .ok (M'.ownPorts ++ inputs ++ outputs) ∧
    List.Forall₂ (m.IsPort .input) m.freeSources inputs ∧ List.Forall₂ (m.IsPort .output) m.targets outputs := by
  have hmatrix : M'.matrix = m := h.enlarges.frame.2.1.trans hM
  have hread : ∀ s ∈ M'.sources, s < M'.matrix.signals.length := by
    rw [h.sources_eq hv, hmatrix]
    exact fun s hs => FlowMatrix.declared_of_isForwarded hv ((FlowMatrix.mem_freeSources_iff hv).mp hs).1
  have hdriven : ∀ s ∈ M'.driven.keys, s < M'.matrix.signals.length := by
    rw [h.driven_keys, hmatrix]
    exact fun s => FlowMatrix.declared_of_mem_targets hv
  obtain ⟨ports, hports⟩ := DecoderModule.ports_ok hread hdriven
  obtain ⟨inputs, outputs, hinputs, houtputs, rfl⟩ := DecoderModule.ports_eq_ok_iff.mp hports
  rw [hmatrix, h.sources_eq hv] at hinputs
  rw [hmatrix, h.driven_keys] at houtputs
  exact ⟨inputs, outputs, hports, hinputs, houtputs⟩

/-- The registers are no ports. -/
theorem ownPorts_eq : ∃ clock, M'.ownPorts = M.ownPorts ++
    if mode.isStaged then [⟨clock, 1, .input, .clock⟩] else [] := by
  obtain ⟨⟨name, usage, width⟩, registers, hlocals, husage, hwidth, -, hregisters⟩ := h.locals
  refine ⟨name, ?_⟩
  have hnone : (registers.filter fun l => l.usage ≠ .plain) = [] :=
    List.filter_eq_nil_iff.mpr fun l hl => by simp [(hregisters l hl).usage]
  cases husage
  cases hwidth
  unfold DecoderModule.ownPorts
  rw [hlocals, List.filter_append, List.filter_append, hnone, List.append_nil, List.map_append]
  cases mode.isStaged <;> rfl

end Decodes

theorem nodup_interface (hv : m.validate = .ok ()) : (m.freeSources ++ m.targets).Nodup := by
  refine List.nodup_append.mpr ⟨m.freeSources_ascending.imp Nat.ne_of_lt, m.targets_nodup, ?_⟩
  rintro s hs _ hs' rfl
  exact ((FlowMatrix.mem_freeSources_iff hv).mp hs).2 hs'

/-- The module that has only the control word. -/
structure HasControlWord (g : NameGenerator) (m : FlowMatrix) (width : Nat) (name : String) (M : DecoderModule) :
    Prop where
  allocated : (DecoderModule.ofMatrix g m).allocate .input "cw" width = .ok (.inner 0, M)
  matrix : M.matrix = m
  locals : M.locals = [⟨name, .input, width⟩]
  named : g.Gives "cw" name

/-- A decoder can be added to the module that has only the control word. -/
theorem exists_decoder (h : LaysOut m d) (hv : m.validate = .ok ()) (hpos : ∀ s ∈ m.signals, 0 < s.width)
    (g : NameGenerator) (mode : DecoderMode) {width : Nat} (hwidth : 0 < width) : ∃ name M₀ d' M,
      HasControlWord g m width name M₀ ∧ d.addDecoder mode M₀ (.inner 0) = .ok (d', M) ∧ Decodes m mode M₀ M := by
  obtain ⟨M₀, hM₀, hwidths, hprocesses⟩ := DecoderModule.allocate_ok hwidth .input "cw" (.ofMatrix g m)
  have hcw : 0 < M₀.widths.length := by
    rw [hwidths, List.length_append]
    exact Nat.succ_pos _
  obtain ⟨M, hM⟩ := addDecoder_ok h hv hpos mode hcw
  have hdecodes := addDecoder_decodes h hprocesses hM
  obtain ⟨-, -, rfl⟩ := DecoderModule.allocate_eq_ok_iff.mp hM₀
  exact ⟨_, _, _, M, ⟨hM₀, rfl, rfl, (DecoderModule.ofMatrix g m).names.gives_fresh "cw"⟩, hM, hdecodes⟩

/-- In every mode the decoder of a valid matrix has these ports: the control word and, if it is staged,
the clock; then as inputs the signals that are forwarded in the neutral flow or in some step and are no
targets; then as outputs the targets.  Both are listed in the order of their declarations, with their
names and widths, and no signal is listed twice. -/
theorem decoder_ports {m : FlowMatrix} (hv : m.validate = .ok ()) (hpos : ∀ s ∈ m.signals, 0 < s.width)
    (hfit : m.laneBits + m.selectorBits < Width.limit) (bound : Nat) (g : NameGenerator) (mode : DecoderMode)
    {width : Nat} (hwidth : 0 < width) : ∃ d report, (compute m bound).result = .ok (d, report) ∧
      ∃ cw M₀ d' M ports, (DecoderModule.ofMatrix g m).allocate .input "cw" width = .ok (cw, M₀) ∧
        d.addDecoder mode M₀ cw = .ok (d', M) ∧ M.ports = .ok ports ∧
        ∃ cwName clockName inputs outputs, M.name cw = .ok cwName ∧
          ports = [⟨cwName, width, .input, .input⟩] ++
            (if mode.isStaged then [⟨clockName, 1, .input, .clock⟩] else []) ++ inputs ++ outputs ∧
          List.Forall₂ (m.IsPort .input) m.freeSources inputs ∧
          List.Forall₂ (m.IsPort .output) m.targets outputs ∧ (m.freeSources ++ m.targets).Nodup := by
  obtain ⟨d, report, hcompute, h⟩ := compute_ok hv hfit bound
  obtain ⟨cwName, M₀, d', M, hcw, hM, hdecodes⟩ := exists_decoder h hv hpos g mode hwidth
  obtain ⟨inputs, outputs, hports, hinputs, houtputs⟩ := hdecodes.ports_ok hv hcw.matrix
  obtain ⟨clockName, hown⟩ := hdecodes.ownPorts_eq
  refine ⟨d, report, hcompute, .inner 0, M₀, d', M, _, hcw.allocated, hM, hports, cwName, clockName, inputs,
    outputs, ?_, ?_, hinputs, houtputs, nodup_interface hv⟩
  · obtain ⟨clock, registers, hlocals, -⟩ := hdecodes.locals
    refine bind_eq_ok_iff.mpr ⟨⟨cwName, .input, width⟩, fetch_eq_ok_iff.mpr ?_, rfl⟩
    rw [hlocals, hcw.locals]
    rfl
  · unfold DecoderModule.ownPorts at hown
    rw [hcw.locals] at hown
    unfold DecoderModule.ownPorts
    rw [hown]
    rfl

/-- The followed signal is an input, the followed target an output. -/
theorem decoder_ports_tapped : ∃ d report, (compute .tapped 6).result = .ok (d, report) ∧
    ∃ cw M₀ d' M, (DecoderModule.ofMatrix .counting .tapped).allocate .input "cw" 2 = .ok (cw, M₀) ∧
      d.addDecoder .staged M₀ cw = .ok (d', M) ∧ ∃ cwName clockName, M.ports = .ok
        [⟨cwName, 2, .input, .input⟩, ⟨clockName, 1, .input, .clock⟩, ⟨"x", 4, .input, .plain⟩,
          ⟨"a", 4, .output, .plain⟩, ⟨"b", 4, .output, .plain⟩] := by
  obtain ⟨d, report, hcompute, cw, M₀, d', M, ports, hM₀, hM, hports, cwName, clockName, inputs, outputs, -, rfl,
    hinputs, houtputs, -⟩ := decoder_ports (m := .tapped) (by decide) (by decide) (by decide) 6 .counting .staged
      Nat.two_pos
  rw [show FlowMatrix.tapped.freeSources = [0] by decide] at hinputs
  rw [show FlowMatrix.tapped.targets = [1, 2] by decide] at houtputs
  obtain ⟨x, _, ⟨_, ⟨⟩, rfl⟩, ⟨⟩, rfl⟩ := List.forall₂_cons_left_iff.mp hinputs
  obtain ⟨a, _, ⟨_, ⟨⟩, rfl⟩, hrest, rfl⟩ := List.forall₂_cons_left_iff.mp houtputs
  obtain ⟨b, _, ⟨_, ⟨⟩, rfl⟩, ⟨⟩, rfl⟩ := List.forall₂_cons_left_iff.mp hrest
  exact ⟨d, report, hcompute, cw, M₀, d', M, hM₀, hM, cwName, clockName, hports⟩

end Design

end ControlStore
