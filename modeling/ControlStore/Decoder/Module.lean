import ControlStore.Decoder.Statement
import ControlStore.Matrix
import ControlStore.Names

/-! # Decoder modules

A module collects the processes of a decoder and the signals allocated for it.  Signals of the design
keep their names; allocated signals are named apart from them and from each other. -/

namespace ControlStore

/-- What an allocated signal is for. -/
inductive PortUsage where
  | clock
  | input
  /-- Neither: a signal inside the module, or a port that is a signal of the design. -/
  | plain
deriving DecidableEq

/-- A signal allocated for a decoder. -/
structure LocalSignal where
  name : String
  usage : PortUsage
  width : Nat
deriving DecidableEq

/-- The direction of a port. -/
inductive Direction where
  | input
  | output
deriving DecidableEq

/-- A port of a module. -/
structure Port where
  name : String
  width : Nat
  direction : Direction
  usage : PortUsage
deriving DecidableEq

/-- A module under construction. -/
structure DecoderModule where
  matrix : FlowMatrix
  names : NameSupply
  locals : List LocalSignal
  processes : List DecoderProcess

namespace DecoderModule

/-- The module without allocated signals and processes. -/
def ofMatrix (g : NameGenerator) (m : FlowMatrix) : DecoderModule :=
  ⟨m, .reserving g (m.signals.map Signal.name), [], []⟩

/-- Allocates a signal named after `name`. -/
def allocate (d : DecoderModule) (usage : PortUsage) (name : String) (width : Nat) :
    Checked (Wire × DecoderModule) :=
  if 0 < width then
    let (fresh, names) := d.names.fresh name
    .ok (.inner d.locals.length, { d with names, locals := d.locals ++ [⟨fresh, usage, width⟩] })
  else
    .error (.zeroWidthSignal name)

/-- Adds a process. -/
def addProcess (d : DecoderModule) (p : DecoderProcess) : DecoderModule :=
  { d with processes := d.processes ++ [p] }

/-- The name of a wire. -/
def name (d : DecoderModule) : Wire → Checked String
  | .design s => do return (← d.matrix.signal s).name
  | .inner i => do return (← fetch d.locals i).name

/-- The width of a wire. -/
def width (d : DecoderModule) : Wire → Checked Nat
  | .design s => do return (← d.matrix.signal s).width
  | .inner i => do return (← fetch d.locals i).width

/-- The signals of the design that some process drives. -/
def driven (d : DecoderModule) : NatSet :=
  (WireSet.empty.insertAll (d.processes.flatMap fun p => drivesOf p.procedure.body)).design

/-- The signals of the design that some process reads or is sensitive to. -/
def observed (d : DecoderModule) : NatSet :=
  (WireSet.empty.insertAll
    (d.processes.flatMap fun p => p.procedure.reads.toList ++ p.sensitivity.toList)).design

/-- The port for a signal of the design. -/
def designPort (d : DecoderModule) (direction : Direction) (s : SignalId) : Checked Port := do
  let signal ← d.matrix.signal s
  return ⟨signal.name, signal.width, direction, .plain⟩

/-- The ports: the allocated clocks and inputs, then the signals of the design that are read but not
driven, then those that are driven. -/
def ports (d : DecoderModule) : Checked (List Port) := do
  let locals := d.locals.filter fun l => l.usage ≠ .plain
  let sources := d.observed.keys.filter fun s => (d.driven.get? s).isNone
  let inputs ← sources.mapM (d.designPort .input)
  let outputs ← d.driven.keys.mapM (d.designPort .output)
  return locals.map (fun l => ⟨l.name, l.width, .input, l.usage⟩) ++ inputs ++ outputs

end DecoderModule

end ControlStore
