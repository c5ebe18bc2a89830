import ControlStore.Decoder.Module
import ControlStore.Text
import ControlStore.Width

/-! # SystemVerilog text of decoder modules

A module is written line by line: the declarations of the signals inside it, then its processes.  A
combinational process assigns with `=`, a clocked one with `<=`. -/

namespace ControlStore

/-- Two blanks per level. -/
def indentation (level : Nat) : String := String.ofList (List.replicate (2 * level) ' ')

/-- The sign that a process assigns with. -/
def ProcessKind.sign : ProcessKind → String
  | comb => "="
  | clocked _ => "<="

namespace DecoderModule

/-- The text of an expression. -/
def exprText (d : DecoderModule) : Expr → Checked String
  | .literal bits => .ok bits.text
  | .unknown width => .ok s!"{width}'bx"
  | .read wire => d.name wire
  | .slice wire lsb width =>
    if width = 1 then do
      return s!"{← d.name wire}[{lsb}]"
    else do
      let stop ← Width.add lsb width
      if stop ≤ (← d.width wire) then
        let name ← d.name wire
        let msb ← Width.sub stop 1
        return s!"{name}[{msb}:{lsb}]"
      else
        throw (.sliceExceeds (← d.name wire))

mutual

/-- The lines of a statement that assigns with `op`. -/
def stmtLines (d : DecoderModule) (op : String) (level : Nat) : Stmt → Checked (List String)
  | .store dst src => do
    let name ← d.name dst
    let source ← d.exprText src
    return [indentation level ++ name ++ " " ++ op ++ " " ++ source ++ ";"]
  | .switch selector cases fallback => do
    let head ← d.exprText selector
    let inner ← d.caseLines op level cases
    let last ← d.fallbackLines op level fallback
    return (indentation level ++ "case (" ++ head ++ ")") :: inner ++ last
      ++ [indentation level ++ "endcase"]

/-- The lines of a list of statements. -/
def bodyLines (d : DecoderModule) (op : String) (level : Nat) : List Stmt → Checked (List String)
  | [] => .ok []
  | stmt :: rest => do
    let first ← d.stmtLines op level stmt
    let others ← d.bodyLines op level rest
    return first ++ others

/-- The lines of the cases of a switch. -/
def caseLines (d : DecoderModule) (op : String) (level : Nat) :
    List (Bits × List Stmt) → Checked (List String)
  | [] => .ok []
  | (label, body) :: rest => do
    let inner ← d.bodyLines op (level + 2) body
    let others ← d.caseLines op level rest
    return (indentation (level + 1) ++ label.text ++ ": begin") :: inner
      ++ (indentation (level + 1) ++ "end") :: others

/-- The lines of the fallback of a switch. -/
def fallbackLines (d : DecoderModule) (op : String) (level : Nat) :
    Option (List Stmt) → Checked (List String)
  | none => .ok []
  | some body => do
    let inner ← d.bodyLines op (level + 2) body
    return (indentation (level + 1) ++ "default: begin") :: inner ++ [indentation (level + 1) ++ "end"]

end

/-- The first line of a process. -/
def headLine (d : DecoderModule) (p : DecoderProcess) : Checked String :=
  match p.kind with
  | .comb => .ok ("always_comb begin : " ++ p.procedure.name)
  | .clocked clock => do
    return "always_ff @(posedge " ++ (← d.name clock) ++ ") begin : " ++ p.procedure.name

/-- The text of the body of a process. -/
def bodyText (d : DecoderModule) (kind : ProcessKind) (body : List Stmt) : Checked String := do
  return closedLines (← d.bodyLines kind.sign 1 body)

/-- The text of a process. -/
def processText (d : DecoderModule) (p : DecoderProcess) : Checked String := do
  let head ← d.headLine p
  let body ← d.bodyText p.kind p.procedure.body
  return head ++ "\n" ++ body ++ "end\n"

/-- The declarations of the signals inside the module. -/
def declarations (d : DecoderModule) : List String :=
  (d.locals.filter fun l => l.usage = .plain).map fun l =>
    s!"logic [{l.width - 1}:0] " ++ l.name ++ ";"

/-- The text of the module. -/
def text (d : DecoderModule) : Checked String := do
  let processes ← d.processes.mapM d.processText
  return closedLines d.declarations ++ String.join processes

end DecoderModule

end ControlStore
