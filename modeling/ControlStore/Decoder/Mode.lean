/-! # Decoder modes

How many register stages lie between a control word and the decoded outputs. -/

namespace ControlStore

/-- How the control word is decoded. -/
inductive DecoderMode where
  /-- The outputs follow the control word within the same cycle. -/
  | combinational
  /-- The selected symbols are registered once. -/
  | staged
  /-- The selected symbols are registered twice. -/
  | registered
deriving DecidableEq

namespace DecoderMode

/-- All modes. -/
def all : List DecoderMode := [combinational, staged, registered]

/-- The name of a mode. -/
def name : DecoderMode → String
  | combinational => "comb"
  | staged => "staged"
  | registered => "registered"

/-- The mode with the given name. -/
def ofName? (name : String) : Option DecoderMode := all.find? fun mode => mode.name = name

/-- How an unknown name is reported. -/
def unknownName : String := "Matching variant not found"

/-- The number of cycles between a control word and its decoded outputs. -/
def latency : DecoderMode → Nat
  | combinational => 0
  | staged => 1
  | registered => 2

/-- Whether the selected symbols are registered. -/
def isStaged (mode : DecoderMode) : Bool := mode != combinational

end DecoderMode

end ControlStore
