import ControlStore.Decoder.Builder
import ControlStore.Decoder.Mode
import ControlStore.Decoder.Module
import ControlStore.Design.Basic

/-! # Decoders of a design

The combinational decoder switches over every selector of the control word and stores the contents
of the selected symbol into the targets of the field; a selector that is no symbol makes its targets
unknown.

The staged decoders first register the value word and, for every field, the selected symbol as a
one-hot number, and decode from these registers; the registered variant delays both by one more
cycle.  A one-hot register that holds zero, as at power-up, decodes like symbol 0.  A field with a
single symbol needs no selector and no register.

The bodies are written for any recorder `r`; the decoders pass them to a builder as events. -/

namespace ControlStore

/-- The register that holds the symbol of a field in a staged decoder. -/
structure StagedSymbol where
  symbol : Wire
  /-- The symbol one cycle later, if there is a second register stage. -/
  delayed : Option Wire

/-- The wire that the symbol is decoded from. -/
def StagedSymbol.decoded (s : StagedSymbol) : Wire := s.delayed.getD s.symbol

namespace MicroField

variable {α : Type} (r : Recorder α)

/-- The expression for a content; lanes are read from `valueWord`. -/
def contentExpr (packer : Packer) (valueWord : Option Wire) (target : SignalId) :
    Content → Checked Expr
  | .literal bits => .ok (.literal bits)
  | .forward source => .ok (.read (.design source))
  | .lane => do
    let lane ← packer.lane target
    let wire ← require valueWord (.noValueWord target)
    return .slice wire lane.offset lane.width

/-- Stores contents into their targets. -/
def storeContents (packer : Packer) (valueWord : Option Wire) (contents : Contents) :
    Checked (List α) :=
  contents.entries.mapM fun (target, content) => do
    return r.store (.design target) (← contentExpr packer valueWord target content)

/-- Makes all targets of the field unknown. -/
def storeUnknown (f : MicroField) (matrix : FlowMatrix) : Checked (List α) :=
  f.table.targets.mapM fun target => do
    return r.store (.design target) (.unknown (← matrix.signal target).width)

/-- Decodes the field from the control word on the wire `cw`. -/
def combBody (f : MicroField) (packer : Packer) (matrix : FlowMatrix) (cw : Wire) :
    Checked (List α) :=
  if f.table.count = 1 then do
    storeContents r packer (some cw) (← f.table.contents 0)
  else do
    let cases ← f.table.table.indexed.mapM fun (symbol, contents) => do
      let label ← f.selector symbol
      return (label, ← storeContents r packer (some cw) contents)
    let fallback ← f.storeUnknown r matrix
    return r.switch (.slice cw f.offset f.width) cases fallback

/-- Registers the selected symbol as a one-hot number; nothing to do if there is only one. -/
def syncBody (f : MicroField) (d : DecoderModule) (cw : Wire) :
    Checked (Option StagedSymbol × List α × DecoderModule) :=
  let count := f.table.count
  if count = 1 then .ok (none, [], d)
  else do
    let (symbol, d) ← d.allocate .plain s!"MUXSymbol{f.order}" count
    let cases ← (List.range count).mapM fun sym => do
      let label ← f.selector sym
      let oneHot ← Bits.oneHot sym count
      return (label, [r.store symbol (.literal oneHot)])
    let fallback := [r.store symbol (.unknown count)]
    return (some ⟨symbol, none⟩, r.switch (.slice cw f.offset f.width) cases fallback, d)

/-- Delays a registered symbol by one more cycle. -/
def registerBody (f : MicroField) (d : DecoderModule) (staged : StagedSymbol) :
    Checked (StagedSymbol × List α × DecoderModule) := do
  let (delayed, d) ← d.allocate .plain s!"MUXReg{f.order}" f.table.count
  return ({ staged with delayed := some delayed }, [r.store delayed (.read staged.symbol)], d)

/-- Decodes the field from its registered symbol. -/
def stagedBody (f : MicroField) (packer : Packer) (matrix : FlowMatrix)
    (staged : Option StagedSymbol) (valueWord : Option Wire) : Checked (List α) := do
  let neutral ← f.table.contents 0
  match staged with
  | none => storeContents r packer valueWord neutral
  | some staged =>
    let count := f.table.count
    let zero ← storeContents r packer valueWord neutral
    let cases ← f.table.table.indexed.mapM fun (symbol, contents) => do
      let label ← Bits.oneHot symbol count
      return (label, ← storeContents r packer valueWord contents)
    let fallback ← f.storeUnknown r matrix
    return r.switch (.read staged.decoded) ((.zero count, zero) :: cases) fallback

end MicroField

namespace Design

variable {α : Type} (r : Recorder α)

/-- Adds the combinational decoder for the control word on the wire `cw`. -/
def addCombDecoder (d : Design) (m : DecoderModule) (cw : Wire) : Checked DecoderModule := do
  let bodies ← d.fields.mapM fun f => f.combBody .events d.packer d.matrix cw
  let decode ← Procedure.ofEvents "cwdecode" bodies.flatten
  return m.addProcess (.comb decode [cw])

/-- The registers for the symbols of the fields, one field after the other. -/
def syncFields (m : DecoderModule) (cw : Wire) :
    List MicroField → Checked (List (Option StagedSymbol) × List α × DecoderModule)
  | [] => .ok ([], [], m)
  | f :: rest => do
    let (staged, body, m) ← f.syncBody r m cw
    let (others, more, m) ← syncFields m cw rest
    return (staged :: others, body ++ more, m)

/-- The second registers for the symbols of the fields. -/
def registerFields (m : DecoderModule) :
    List (MicroField × Option StagedSymbol) →
      Checked (List (Option StagedSymbol) × List α × DecoderModule)
  | [] => .ok ([], [], m)
  | (_, none) :: rest => do
    let (others, more, m) ← registerFields m rest
    return (none :: others, more, m)
  | (f, some staged) :: rest => do
    let (staged, body, m) ← f.registerBody r m staged
    let (others, more, m) ← registerFields m rest
    return (some staged :: others, body ++ more, m)

/-- The register for the value word. -/
def syncValueWord (d : Design) (m : DecoderModule) (cw : Wire) :
    Checked (Option Wire × List α × DecoderModule) := do
  let bits ← d.packer.width
  if bits = 0 then return (none, [], m)
  else
    let (wire, m) ← m.allocate .plain "D1_CW" bits
    return (some wire, [r.store wire (.slice cw 0 bits)], m)

/-- The second register for the value word. -/
def registerValueWord (d : Design) (m : DecoderModule) :
    Option Wire → Checked (Option Wire × List α × DecoderModule)
  | none => .ok (none, [], m)
  | some first => do
    let (wire, m) ← m.allocate .plain "D2_CW" (← d.packer.width)
    return (some wire, [r.store wire (.read first)], m)

/-- Adds a staged decoder for the control word on the wire `cw`, with a second register stage if
`second` is set. -/
def addStagedDecoder (d : Design) (second : Bool) (m : DecoderModule) (cw : Wire) :
    Checked DecoderModule := do
  let (clock, m) ← m.allocate .clock "clk" 1
  let (valueWord, valueBody, m) ← d.syncValueWord .events m cw
  let (staged, symbolBody, m) ← syncFields .events m cw d.fields
  let (valueWord, staged, delayBody, m) ←
    if second then do
      let (valueWord, valueBody, m) ← d.registerValueWord .events m valueWord
      let (staged, symbolBody, m) ← registerFields .events m (d.fields.zip staged)
      pure (valueWord, staged, valueBody ++ symbolBody, m)
    else
      pure (valueWord, staged, [], m)
  let sync ← Procedure.ofEvents "cwdecode_sync" (valueBody ++ symbolBody ++ delayBody)
  let m := m.addProcess (.clocked clock sync)
  let bodies ← (d.fields.zip staged).mapM fun (f, staged) =>
    f.stagedBody .events d.packer d.matrix staged valueWord
  let comb ← Procedure.ofEvents "cwdecode_comb" bodies.flatten
  return m.addProcess (.comb comb [])

/-- Adds the decoder of the given mode; a design has at most one decoder. -/
def addDecoder (d : Design) (mode : DecoderMode) (m : DecoderModule) (cw : Wire) :
    Checked (Design × DecoderModule) := do
  ensure (!d.decoderBuilt) .decoderBuiltTwice
  let m ← match mode with
    | .combinational => d.addCombDecoder m cw
    | .staged => d.addStagedDecoder false m cw
    | .registered => d.addStagedDecoder true m cw
  return ({ d with decoderBuilt := true }, m)

end Design

end ControlStore
