import ControlStore.Program
import ControlStore.Proofs.Allocation
import ControlStore.Proofs.SizedStatements

/-! # Components whose connections fit

A component is well connected if all its names tell apart what they name, its cells are made of known
primitives, and every connection joins two existing ports of one width in the right direction, none
of them driven twice (`Component.WellConnected`).  The ports of a decoder module whose widths agree can
be listed (`DecoderModule.ports_ok_of_sized`) and have distinct names (`DecoderModule.nodup_ports`), so the
component that connects the store and the decoder is well connected
(`Program.connect_wellConnected`). -/

namespace ControlStore

/-! ### Well-connected components -/

/-- The direction of a port that is driven: an output of the component, or an input of a cell. -/
def PortRef.drivenAs : PortRef → Direction
  | own _ => .output
  | cell _ _ => .input

/-- The direction of a port that drives: an input of the component, or an output of a cell. -/
def PortRef.readAs : PortRef → Direction
  | own _ => .input
  | cell _ _ => .output

namespace Component

/-- The reference names the port. -/
def Finds (primitives : List Primitive) (c : Component) : PortRef → NetPort → Prop
  | .own name, p => p ∈ c.ports ∧ p.name = name
  | .cell name port, p => ∃ cell ∈ c.cells, cell.name = name ∧
      ∃ q ∈ primitives, q.name = cell.type ∧ p ∈ q.ports ∧ p.name = port

/-- Both ends of the connection are ports of the same width, and it drives what may be driven. -/
def Connects (primitives : List Primitive) (c : Component) (w : Connection) : Prop :=
  ∃ dst src, c.Finds primitives w.dst dst ∧ c.Finds primitives w.src src ∧ dst.width = src.width ∧
    dst.direction = w.dst.drivenAs ∧ src.direction = w.src.readAs

/-- Names are distinct, cells are made of known primitives, and connections fit. -/
structure WellConnected (primitives : List Primitive) (c : Component) : Prop where
  primitives_nodup : (primitives.map Primitive.name).Nodup
  ports_nodup : ∀ q ∈ primitives, (q.ports.map NetPort.name).Nodup
  own_nodup : (c.ports.map NetPort.name).Nodup
  cells_nodup : (c.cells.map Cell.name).Nodup
  typed : ∀ cell ∈ c.cells, ∃ q ∈ primitives, q.name = cell.type
  connected : ∀ w ∈ c.connections, c.Connects primitives w
  driven_once : (c.connections.map Connection.dst).Nodup

end Component

/-! ### The ports of a decoder -/

namespace FlowMatrix

variable {m : FlowMatrix} {direction : Direction} {ss : List SignalId} {ps : List Port}

/-- The port of a signal of the design. -/
def IsPort (m : FlowMatrix) (direction : Direction) (s : SignalId) (p : Port) : Prop :=
  ∃ signal, m.signals[s]? = some signal ∧ p = ⟨signal.name, signal.width, direction, .plain⟩

theorem exists_isPort (direction : Direction) (h : ∀ s ∈ ss, s < m.signals.length) :
    ∃ ps, List.Forall₂ (m.IsPort direction) ss ps := by
  induction ss with
  | nil => exact ⟨[], .nil⟩
  | cons s ss ih =>
      obtain ⟨hs, hss⟩ := List.forall_mem_cons.mp h
      obtain ⟨ps, hps⟩ := ih hss
      exact ⟨_ :: ps, .cons ⟨m.signals[s], List.getElem?_eq_getElem hs, rfl⟩ hps⟩

theorem usage_of_isPort (h : List.Forall₂ (m.IsPort direction) ss ps) {p : Port} (hp : p ∈ ps) :
    p.usage = .plain := by
  induction h with
  | nil => cases hp
  | cons hport _ ih =>
      rcases List.mem_cons.mp hp with rfl | hp
      · obtain ⟨signal, -, rfl⟩ := hport
        rfl
      · exact ih hp

theorem names_of_isPort (h : List.Forall₂ (m.IsPort direction) ss ps) :
    (ps.map fun p => some p.name) = ss.map fun s => (m.signals.map Signal.name)[s]? := by
  induction h with
  | nil => rfl
  | cons hport _ ih =>
      obtain ⟨signal, hsignal, rfl⟩ := hport
      rw [List.map_cons, List.map_cons, ih, List.getElem?_map, hsignal]
      rfl

/-- Ports that are named by distinct signals have distinct names: a name that occurs twice would belong
to two signals. -/
theorem nodup_of_names {names : List String} (hnames : names.Nodup) (hss : ss.Nodup)
    (h : (ps.map fun p => some p.name) = ss.map fun s => names[s]?) : (ps.map Port.name).Nodup := by
  refine List.Nodup.of_map some ?_
  rw [List.map_map]
  show (ps.map fun p => some p.name).Nodup
  rw [h]
  refine List.Nodup.map_on (fun s hs s' _ heq => (List.getElem?_inj ?_ hnames).mp heq) hss
  have hmem := List.mem_map_of_mem (f := fun s => names[s]?) hs
  rw [← h] at hmem
  obtain ⟨p, -, hp⟩ := List.mem_map.mp hmem
  exact (List.getElem?_eq_some_iff.mp hp.symm).1

end FlowMatrix

namespace DecoderModule

variable {M : DecoderModule} {ports : List Port}

theorem declares_design_iff {s : SignalId} : M.Declares (.design s) ↔ s < M.matrix.signals.length := by
  constructor
  · rintro ⟨n, hn⟩
    obtain ⟨signal, hsignal, -⟩ := bind_eq_ok_iff.mp hn
    exact (List.getElem?_eq_some_iff.mp (fetch_eq_ok_iff.mp hsignal)).1
  · intro hs
    exact ⟨M.matrix.signals[s].width, bind_eq_ok_iff.mpr
      ⟨M.matrix.signals[s], fetch_eq_ok_iff.mpr (List.getElem?_eq_getElem hs), rfl⟩⟩

theorem mem_design_keys_iff {ws : List Wire} {s : SignalId} :
    s ∈ (WireSet.empty.insertAll ws).design.keys ↔ Wire.design s ∈ ws := by
  have hlist : ∀ {set : WireSet}, s ∈ set.design.keys ↔ Wire.design s ∈ set.toList := by
    intro set
    simp [WireSet.toList]
  rw [hlist, WireSet.mem_insertAll_iff, or_iff_left]
  exact List.not_mem_nil

section
variable (hsized : ∀ p ∈ M.processes, p.Sized M)
include hsized

theorem declared_of_mem_driven {s : SignalId} (hs : s ∈ M.driven.keys) : s < M.matrix.signals.length := by
  obtain ⟨p, hp, hwire⟩ := List.mem_flatMap.mp (mem_design_keys_iff.mp hs)
  obtain ⟨stmt, hstmt, hwire⟩ := mem_drivesOf_iff.mp hwire
  exact declares_design_iff.mp
    (((hsized p hp).body stmt hstmt).declares _ (List.mem_append_right _ hwire))

theorem declared_of_mem_observed {s : SignalId} (hs : s ∈ M.observed.keys) :
    s < M.matrix.signals.length := by
  obtain ⟨p, hp, hwire⟩ := List.mem_flatMap.mp (mem_design_keys_iff.mp hs)
  exact declares_design_iff.mp ((hsized p hp).wires _ hwire)

end

/-- The signals of the design that are read and not driven. -/
def sources (M : DecoderModule) : List SignalId := M.observed.keys.filter fun s => (M.driven.get? s).isNone

/-- The allocated clocks and inputs, as ports. -/
def ownPorts (M : DecoderModule) : List Port :=
  (M.locals.filter fun l => l.usage ≠ .plain).map fun l => ⟨l.name, l.width, .input, l.usage⟩

theorem designPort_eq_ok_iff {direction : Direction} {s : SignalId} {p : Port} :
    M.designPort direction s = .ok p ↔ M.matrix.IsPort direction s p := by
  constructor
  · intro h
    obtain ⟨signal, hsignal, hport⟩ := bind_eq_ok_iff.mp h
    exact ⟨signal, fetch_eq_ok_iff.mp hsignal, (Except.ok.inj hport).symm⟩
  · rintro ⟨signal, hsignal, rfl⟩
    exact bind_eq_ok_iff.mpr ⟨signal, fetch_eq_ok_iff.mpr hsignal, rfl⟩

/-- The ports are the allocated clocks and inputs and signals of the design. -/
theorem ports_eq_ok_iff : M.ports = .ok ports ↔ ∃ inputs outputs,
    List.Forall₂ (M.matrix.IsPort .input) M.sources inputs ∧
      List.Forall₂ (M.matrix.IsPort .output) M.driven.keys outputs ∧
      ports = M.ownPorts ++ inputs ++ outputs := by
  have hmapM : ∀ {direction} {ss : List SignalId} {ps : List Port},
      ss.mapM (M.designPort direction) = .ok ps ↔ List.Forall₂ (M.matrix.IsPort direction) ss ps := by
    intro direction ss ps
    simp only [mapM_eq_ok_iff, designPort_eq_ok_iff]
  unfold DecoderModule.ports
  simp only [bind_eq_ok_iff, hmapM, pure_eq_ok, Except.ok.injEq, exists_and_left]
  exact exists_congr fun inputs => and_congr_right fun _ => exists_congr fun outputs =>
    and_congr_right fun _ => eq_comm

/-- The ports can be listed if all signals of the design that are read or driven are declared. -/
theorem ports_ok (hread : ∀ s ∈ M.sources, s < M.matrix.signals.length)
    (hdriven : ∀ s ∈ M.driven.keys, s < M.matrix.signals.length) : ∃ ports, M.ports = .ok ports := by
  obtain ⟨inputs, hinputs⟩ := FlowMatrix.exists_isPort .input hread
  obtain ⟨outputs, houtputs⟩ := FlowMatrix.exists_isPort .output hdriven
  exact ⟨_, ports_eq_ok_iff.mpr ⟨inputs, outputs, hinputs, houtputs, rfl⟩⟩

/-- The ports of a module whose processes are sized can be listed. -/
theorem ports_ok_of_sized (hsized : ∀ p ∈ M.processes, p.Sized M) : ∃ ports, M.ports = .ok ports :=
  ports_ok (fun _ hs => declared_of_mem_observed hsized (List.mem_filter.mp hs).1)
    fun _ => declared_of_mem_driven hsized

/-- A port that is not a signal of the design is an allocated signal. -/
theorem exists_local_of_mem_ports (h : M.ports = .ok ports) {p : Port} (hp : p ∈ ports)
    (husage : p.usage ≠ .plain) :
    ∃ l ∈ M.locals, p = ⟨l.name, l.width, .input, l.usage⟩ := by
  obtain ⟨inputs, outputs, hinputs, houtputs, rfl⟩ := ports_eq_ok_iff.mp h
  rcases List.mem_append.mp hp with hp | hp
  · rcases List.mem_append.mp hp with hp | hp
    · obtain ⟨l, hl, rfl⟩ := List.mem_map.mp hp
      exact ⟨l, (List.mem_filter.mp hl).1, rfl⟩
    · exact absurd (FlowMatrix.usage_of_isPort hinputs hp) husage
  · exact absurd (FlowMatrix.usage_of_isPort houtputs hp) husage

/-- No signal of the design is listed both as an input and as an output. -/
theorem nodup_designIds (M : DecoderModule) : (M.sources ++ M.driven.keys).Nodup := by
  refine List.nodup_append.mpr ⟨(NatMap.keys_nodup _).filter _, NatMap.keys_nodup _, ?_⟩
  rintro s hs _ hs' rfl
  have hnone := Option.isNone_iff_eq_none.mp (List.mem_filter.mp hs).2
  exact NatMap.get?_eq_none_iff.mp hnone hs'

/-- Allocated signals are named apart, and every signal of the design has at most one port. -/
theorem nodup_locals_ports (hnames : M.NamedApart) {inputs outputs : List Port}
    (hinputs : List.Forall₂ (M.matrix.IsPort .input) M.sources inputs)
    (houtputs : List.Forall₂ (M.matrix.IsPort .output) M.driven.keys outputs) :
    (M.locals.map LocalSignal.name ++ (inputs ++ outputs).map Port.name).Nodup := by
  have htaken := hnames.nodup
  rw [hnames.taken, List.nodup_append, List.nodup_reverse] at htaken
  obtain ⟨hlocals, hsignals, hapart⟩ := htaken
  have hdesign : ((inputs ++ outputs).map fun p => some p.name) =
      (M.sources ++ M.driven.keys).map fun s => (M.matrix.signals.map Signal.name)[s]? := by
    rw [List.map_append, List.map_append, FlowMatrix.names_of_isPort hinputs, FlowMatrix.names_of_isPort houtputs]
  refine List.nodup_append.mpr ⟨hlocals, FlowMatrix.nodup_of_names hsignals M.nodup_designIds hdesign, ?_⟩
  rintro name hname _ hname' rfl
  obtain ⟨p, hp, rfl⟩ := List.mem_map.mp hname'
  have hmem := List.mem_map_of_mem (f := fun p : Port => some p.name) hp
  rw [hdesign] at hmem
  obtain ⟨s, -, hs⟩ := List.mem_map.mp hmem
  exact hapart p.name (List.mem_reverse.mpr hname) p.name (List.mem_of_getElem? hs) rfl

theorem nodup_ports (hnames : M.NamedApart) (h : M.ports = .ok ports) : (ports.map Port.name).Nodup := by
  obtain ⟨inputs, outputs, hinputs, houtputs, rfl⟩ := ports_eq_ok_iff.mp h
  refine List.Nodup.sublist ?_ (nodup_locals_ports hnames hinputs houtputs)
  rw [List.append_assoc, List.map_append]
  refine List.Sublist.append_right ?_ _
  unfold ownPorts
  rw [List.map_map]
  exact List.filter_sublist.map _

end DecoderModule

/-! ### Connecting the store and the decoder -/

namespace Program

open Component

variable {name romName decoderName : String} {ports : List Port} {rom : Rom}

theorem map_name_ofPort (ports : List Port) : (ports.map NetPort.ofPort).map NetPort.name = ports.map Port.name := by
  rw [List.map_map]
  rfl

theorem dst_connectPort {romCell decoderCell : String} {p : Port} {w : Connection}
    (h : connectPort romCell decoderCell p = some w) :
    w.dst = .cell decoderCell p.name ∨ w.dst = .own p.name := by
  obtain ⟨name, width, direction, usage⟩ := p
  cases usage <;> cases direction <;> cases h <;> simp

/-- The decoder's ports drive nothing of the store. -/
theorem rom_not_driven {romCell decoderCell : String} (hcells : decoderCell ≠ romCell) (ports : List Port)
    (port : String) :
    .cell romCell port ∉ (ports.filterMap (connectPort romCell decoderCell)).map Connection.dst := by
  intro hmem
  obtain ⟨w, hw, hdst⟩ := List.mem_map.mp hmem
  obtain ⟨p, -, hw⟩ := List.mem_filterMap.mp hw
  rcases dst_connectPort hw with h | h
  · rw [h] at hdst
    exact hcells (PortRef.cell.inj hdst).1
  · rw [h] at hdst
    cases hdst

/-- Ports of distinct names are connected to distinct destinations. -/
theorem nodup_dst (hnodup : (ports.map Port.name).Nodup) (romCell decoderCell : String) :
    ((ports.filterMap (connectPort romCell decoderCell)).map Connection.dst).Nodup := by
  rw [List.Nodup, List.pairwise_map, List.pairwise_filterMap]
  refine (List.pairwise_map.mp hnodup).imp fun {p q} hpq a ha b hb hdst => hpq ?_
  rcases dst_connectPort ha with h | h
  · rcases dst_connectPort hb with h' | h'
    · exact (PortRef.cell.inj (h.symm.trans (hdst.trans h'))).2
    · cases h.symm.trans (hdst.trans h')
  · rcases dst_connectPort hb with h' | h'
    · cases h.symm.trans (hdst.trans h')
    · exact PortRef.own.inj (h.symm.trans (hdst.trans h'))

theorem not_mem_plain {new : String} (hnew : ∀ p ∈ ports, p.usage = .plain → p.name ≠ new) :
    new ∉ (ports.filter fun p => p.usage = .plain).map Port.name := by
  intro hmem
  obtain ⟨p, hp, rfl⟩ := List.mem_map.mp hmem
  exact hnew p (List.mem_filter.mp hp).1 (of_decide_eq_true (List.mem_filter.mp hp).2) rfl

/-- The connection of a port of the decoder fits if its ends are found. -/
theorem connectPort_connects {primitives : List Primitive} {c : Component} {romCell decoderCell : String}
    {p : Port} {w : Connection}
    (hstore : c.Finds primitives (.cell romCell "data_out") ⟨"data_out", rom.dataWidth, .output, .none⟩)
    (hcell : c.Finds primitives (.cell decoderCell p.name) (.ofPort p))
    (hown : p.usage = .plain → c.Finds primitives (.own p.name) (.ofPort p))
    (hdata : p.usage = .input → p.width = rom.dataWidth ∧ p.direction = .input)
    (hw : connectPort romCell decoderCell p = some w) : c.Connects primitives w := by
  obtain ⟨name, width, direction, usage⟩ := p
  cases usage with
  | clock => cases hw
  | input =>
      cases hw
      obtain ⟨hwidth, hdirection⟩ := hdata rfl
      exact ⟨_, _, hcell, hstore, hwidth, hdirection, rfl⟩
  | plain =>
      cases direction with
      | input =>
          cases hw
          exact ⟨_, _, hcell, hown rfl, rfl, rfl, rfl⟩
      | output =>
          cases hw
          exact ⟨_, _, hown rfl, hcell, rfl, rfl, rfl⟩

/-- What the component of a store and a decoder is made of; the names that are made up are new. -/
theorem connect_spec {g : NameGenerator} (hfresh : g.GivesFresh) (name : String) (ports : List Port) (rom : Rom)
    (romName decoderName : String) :
    ∃ address enable romCell decoderCell,
      enable ≠ address ∧ (∀ p ∈ ports, p.usage = .plain → p.name ≠ address ∧ p.name ≠ enable) ∧
      decoderCell ≠ romCell ∧ connect g name ports rom romName decoderName =
        { name
          ports := ⟨address, rom.addressWidth, .input, .none⟩ :: ⟨enable, 1, .input, .none⟩ ::
            (ports.filter fun p => p.usage = .plain).map .ofPort
          cells := [⟨romCell, romName⟩, ⟨decoderCell, decoderName⟩]
          connections := ⟨.cell romCell "addr", .own address⟩ :: ⟨.cell romCell "rd_en", .own enable⟩ ::
            ports.filterMap (connectPort romCell decoderCell) } := by
  obtain ⟨address, s, enable, s', hfirst, hsecond, haddress, henable, hne⟩ :=
    NameSupply.fresh_pair hfresh ((ports.filter fun p => p.usage = .plain).map Port.name) "addr" "rd_en"
  obtain ⟨romCell, t, decoderCell, t', hthird, hfourth, -, -, hcells⟩ := NameSupply.fresh_pair hfresh
    ((⟨address, rom.addressWidth, .input, .none⟩ :: ⟨enable, 1, .input, .none⟩ ::
      (ports.filter fun p => p.usage = .plain).map NetPort.ofPort).map NetPort.name) "rom" "decoder"
  refine ⟨address, enable, romCell, decoderCell, hne, fun p hp husage => ?_, hcells, ?_⟩
  · have hmem : p.name ∈ (ports.filter fun p => p.usage = .plain).map Port.name :=
      List.mem_map_of_mem (List.mem_filter.mpr ⟨hp, decide_eq_true husage⟩)
    exact ⟨fun heq => haddress (heq ▸ hmem), fun heq => henable (heq ▸ hmem)⟩
  · unfold connect
    simp only [hfirst, hsecond, hthird, hfourth]

/-- The component of a store and a decoder whose ports have distinct names is well connected. -/
theorem connect_wellConnected {g : NameGenerator} (hfresh : g.GivesFresh) (hnodup : (ports.map Port.name).Nodup)
    (hdata : ∀ p ∈ ports, p.usage = .input → p.width = rom.dataWidth ∧ p.direction = .input)
    (hname : romName ≠ decoderName) {store decoder : Primitive} (hstore : rom.primitive romName = .ok store)
    (hdecoder : decoder.name = decoderName) (hports : decoder.ports = ports.map .ofPort) :
    (connect g name ports rom romName decoderName).WellConnected [store, decoder] := by
  obtain ⟨address, enable, romCell, decoderCell, henable, hdesign, hcells, heq⟩ :=
    connect_spec hfresh name ports rom romName decoderName
  obtain ⟨body, -, hstore⟩ := bind_eq_ok_iff.mp hstore
  obtain rfl := Except.ok.inj hstore
  rw [heq]
  constructor
  case primitives_nodup => simpa [hdecoder] using hname
  case ports_nodup =>
    simp only [List.forall_mem_cons, List.not_mem_nil, false_imp_iff, implies_true, and_true]
    rw [hports, map_name_ofPort]
    exact ⟨by simp, hnodup⟩
  case own_nodup =>
    simp only [List.map_cons, List.nodup_cons, map_name_ofPort, List.mem_cons, not_or]
    exact ⟨⟨henable.symm, not_mem_plain fun p hp hplain => (hdesign p hp hplain).1⟩,
      not_mem_plain fun p hp hplain => (hdesign p hp hplain).2, hnodup.sublist (List.filter_sublist.map _)⟩
  case cells_nodup => simpa using hcells.symm
  case typed => simp [hdecoder]
  case connected =>
    simp only [List.forall_mem_cons]
    refine ⟨⟨⟨"addr", rom.addressWidth, .input, .data⟩, ⟨address, rom.addressWidth, .input, .none⟩, ?_⟩,
      ⟨⟨"rd_en", 1, .input, .none⟩, ⟨enable, 1, .input, .none⟩, ?_⟩, fun w hw => ?_⟩
    · simp [Finds, PortRef.drivenAs, PortRef.readAs]
    · simp [Finds, PortRef.drivenAs, PortRef.readAs]
    · obtain ⟨p, hp, hw⟩ := List.mem_filterMap.mp hw
      have hcell : NetPort.ofPort p ∈ decoder.ports := hports ▸ List.mem_map_of_mem hp
      refine connectPort_connects ?_ ?_ (fun hplain => ⟨?_, rfl⟩) (hdata p hp) hw
      · simp [Finds]
      · exact ⟨⟨decoderCell, decoderName⟩, by simp, rfl, decoder, by simp, hdecoder, hcell, rfl⟩
      · exact List.mem_cons_of_mem _ (List.mem_cons_of_mem _
          (List.mem_map_of_mem (List.mem_filter.mpr ⟨hp, decide_eq_true hplain⟩)))
  case driven_once =>
    simp only [List.map_cons, List.nodup_cons, List.mem_cons, not_or]
    exact ⟨⟨by simp, rom_not_driven hcells ports "addr"⟩, rom_not_driven hcells ports "rd_en",
      nodup_dst hnodup romCell decoderCell⟩

end Program

end ControlStore
