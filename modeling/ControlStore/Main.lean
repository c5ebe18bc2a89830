import ControlStore.CommandLine.Session

/-! # The command line

Reads the input, writes the documents and the messages, and sets the exit code. -/

namespace ControlStore.Main

/-- The description of a system error with its number, which some system calls give negated. -/
def numbered (code : UInt32) (details : String) : String :=
  s!"{details.capitalize} (os error {min code.toNat (UInt32.size - code.toNat)})"

/-- The text of an error of the operating system. -/
def systemErrorText : IO.Error → String
  | .noFileOrDirectory _ code details => numbered code details
  | .inappropriateType _ code details => numbered code details
  | .permissionDenied _ code details => numbered code details
  | e => toString e

/-- The bytes of a stream up to its end. -/
partial def readAll (stream : IO.FS.Stream) (soFar : ByteArray) : IO ByteArray := do
  let bytes ← stream.read 65536
  if bytes.isEmpty then return soFar else readAll stream (soFar ++ bytes)

/-- The text to compile, and the name it is reported under. -/
def readSource (o : Options) : IO (Except String (String × String)) := do
  try
    let bytes ← match o.file with
      | some path => IO.FS.readBinFile path
      | none => readAll (← IO.getStdin) .empty
    match String.fromUTF8? bytes with
    | some text => return .ok (o.file.getD "<stdin>", text)
    | none => return .error FileError.notText.message
  catch e => return .error (systemErrorText e)

/-- Writes lines to standard error. -/
def report (lines : List String) : IO Unit := lines.forM fun line => IO.eprintln line

/-- A run with the given options. -/
def runWith (o : Options) : IO UInt32 := do
  match ← readSource o with
  | .error e =>
    report ["error: " ++ e]
    return 1
  | .ok (name, text) =>
    let compiled := Session.compileText .host text o.config
    report (Session.noticeLines o.level compiled.notices)
    match compiled.result with
    | .error (.diagnostic d) =>
      report (Session.diagnosticLines name text d)
      return 1
    | .error (.fault f) =>
      report [f.message]
      return UInt32.ofNat Session.faultCode
    | .ok program =>
      try
        (Session.documents o program).forM fun (path, text) =>
          match path with
          | none => IO.print text
          | some path => IO.FS.writeFile path text
        return 0
      catch e =>
        report ["error: " ++ systemErrorText e]
        return 1

end ControlStore.Main

/-- The entry point of the program. -/
def main (args : List String) : IO UInt32 :=
  match ControlStore.Options.parse args with
  | .error .help => do
    IO.println (ControlStore.helpText ++ "\n")
    return 0
  | .error (.usage e) => do
    ControlStore.Main.report [e.message, ControlStore.helpHint]
    return 1
  | .ok o => ControlStore.Main.runWith o
