import ControlStore.CommandLine.Files
import ControlStore.CommandLine.Options
import ControlStore.Source.Grammar
import ControlStore.Source.Lowering

/-! # Runs of the command line

A run reads one source text, compiles it, and writes the program and, if asked for, the image of the
store and the report.  `Session.run` is such a run over a world held in memory, on a given
platform. -/

namespace ControlStore

/-- Why a source text gives no program. -/
inductive SourceFailure where
  | diagnostic (d : Diagnostic)
  | fault (f : Fault)

namespace Session

/-! ### Compiling a source text -/

/-- The diagnostic for a syntax error. -/
def syntaxDiagnostic (e : Source.SyntaxError) : Diagnostic :=
  (Diagnostic.error "syntax error").withPrimary ⟨e.position, e.position⟩ e.message

/-- The flow matrix that a source text denotes. -/
def readMatrix (text : String) : Except Diagnostic FlowMatrix := do
  let file ← (Source.FlowFile.parse text).mapError syntaxDiagnostic
  file.lower.mapError Source.LoweringError.diagnostic

/-- The program that a source text denotes. -/
def compileText (e : Platform) (text : String) (config : Config) :
    Traced SourceFailure Program := do
  let matrix ← .lift ((readMatrix text).mapError .diagnostic)
  (Program.compile e matrix config).mapError fun
    | .invalid error => .diagnostic error.diagnostic
    | .fault f => .fault f

/-- The documents to write, in order, each with its file; the program goes to standard output if it
has none. -/
def documents (o : Options) (p : Program) : List (Option String × String) :=
  (o.output, p.text)
    :: (o.rom.toList.map fun path => (some path, p.image))
    ++ (o.report.toList.map fun path => (some path, p.report.text))

/-! ### Messages -/

/-- The line and the column of a byte position, both counted from one; a column is a character. -/
def lineColumn (position : Nat) : (line column : Nat) → List Char → Nat × Nat
  | line, column, [] => (line, column)
  | line, column, c :: rest =>
    if position = 0 then (line, column)
    else if c = '\n' then lineColumn (position - c.utf8Size) (line + 1) 1 rest
    else lineColumn (position - c.utf8Size) line (column + 1) rest

/-- The lines that report a diagnostic on the text of `file`. -/
def diagnosticLines (file text : String) (d : Diagnostic) : List String :=
  let place := d.position?.toList.map fun position =>
    let (line, column) := lineColumn position 1 1 text.toList
    "at " ++ file ++ ":" ++ toString line ++ ":" ++ toString column
  (d.severity.name.map Char.toLower ++ ": " ++ d.message) :: place

/-- The lines for the notices that are shown at a level. -/
def noticeLines (level : Level) (notices : List Notice) : List String :=
  (notices.filter fun n => n.level.rank ≤ level.rank).map Notice.text

/-- The line that reports a file error. -/
def fileErrorLine (e : FileError) : String := "error: " ++ e.message

/-! ### Runs -/

/-- What a run leaves behind. -/
structure Outcome where
  code : Nat
  stdout : String
  stderr : List String
  /-- The texts in the working directory. -/
  files : List (String × String)

/-- The outcome of a run that ends with the given code in a world. -/
def leave (code : Nat) (stderr : List String) (w : World) : Outcome :=
  ⟨code, w.stdout, stderr, w.workingFiles⟩

/-- The exit code of a run that a fault has ended. -/
def faultCode : Nat := 101

/-- Writes the documents one after the other, up to the first that fails. -/
def writeAll (w : World) : List (Option String × String) → World × Option FileError
  | [] => (w, none)
  | (none, text) :: rest => writeAll (w.print text) rest
  | (some path, text) :: rest =>
    match w.write path text with
    | .ok w => writeAll w rest
    | .error e => (w, some e)

/-- The text to compile, and the name it is reported under. -/
def readSource (w : World) (o : Options) : Except FileError (String × String) :=
  match o.file with
  | some path => do return (path, ← w.read path)
  | none => do return ("<stdin>", ← w.readStdin)

/-- A run with the given options. -/
def runWith (e : Platform) (w : World) (o : Options) : Outcome :=
  match readSource w o with
  | .error error => leave 1 [fileErrorLine error] w
  | .ok (name, text) =>
    let compiled := compileText e text o.config
    let notices := noticeLines o.level compiled.notices
    match compiled.result with
    | .error (.diagnostic d) => leave 1 (notices ++ diagnosticLines name text d) w
    | .error (.fault _) => leave faultCode notices w
    | .ok program =>
      match writeAll w (documents o program) with
      | (w, none) => leave 0 notices w
      | (w, some error) => leave 1 (notices ++ [fileErrorLine error]) w

/-- A run with the given arguments. -/
def run (e : Platform) (w : World) (args : List String) : Outcome :=
  match Options.parse args with
  | .error .help => leave 0 [] (w.print (helpText ++ "\n\n"))
  | .error (.usage error) => leave 1 [error.message, helpHint] w
  | .ok o => runWith e w o

end Session

/-- The platform of the command line: repeated names are numbered, and the rows of a store, which
take 32 bytes each, have to fit into an address space of 63 bits. -/
def Platform.host : Platform := ⟨.counting, twoPow 58⟩

end ControlStore
