import ControlStore.Notice
import ControlStore.Program
import ControlStore.Text

/-! # Options

Arguments are taken from left to right.  An option is a flag followed by its value, which is the next
argument whatever it looks like; every option may be given once.  Two dashes end the options, and the
one argument that is left names the input file.  A request for help is answered only if nothing else
is wrong. -/

namespace ControlStore

/-- What can be set on the command line. -/
inductive Setting where
  | output
  | rom
  | report
  | bound
  | decoder
  | name
  | log
deriving DecidableEq

/-- The setting that a flag stands for. -/
def Setting.ofFlag? : String → Option Setting
  | "-o" => some output
  | "--output" => some output
  | "--rom" => some rom
  | "--report" => some report
  | "--max-sel-width" => some bound
  | "--decoder" => some decoder
  | "--name" => some name
  | "--log" => some log
  | _ => none

/-- Why a value is refused. -/
inductive ValueError where
  | duplicate
  | emptyNumber
  | invalidDigit
  | numberTooLarge
  | unknownMode
  | unknownLevel
deriving DecidableEq

/-- How a refused value is explained. -/
def ValueError.message : ValueError → String
  | duplicate => "duplicate values provided"
  | emptyNumber => "cannot parse integer from empty string"
  | invalidDigit => "invalid digit found in string"
  | numberTooLarge => "number too large to fit in target type"
  | unknownMode => DecoderMode.unknownName
  | unknownLevel => "attempted to convert a string that doesn't match an existing log level"

/-- What is wrong with the arguments. -/
inductive UsageError where
  | argumentsAfterHelp
  | unrecognized (argument : String)
  | noValue (flag : String)
  | badValue (flag value : String) (error : ValueError)
deriving DecidableEq

/-- How a usage error is reported. -/
def UsageError.message : UsageError → String
  | argumentsAfterHelp => "Trailing arguments are not allowed after `help`."
  | unrecognized argument => "Unrecognized argument: " ++ argument
  | noValue flag => "No value provided for option '" ++ flag ++ "'."
  | badValue flag value error =>
      "Error parsing option '" ++ flag ++ "' with value '" ++ value ++ "': " ++ error.message

/-- The report of a usage error without blanks at its end, which an argument may bring along. -/
def UsageError.text (e : UsageError) : String := trimRight e.message

/-- The settings given so far. -/
structure Settings where
  file : Option String := none
  output : Option String := none
  rom : Option String := none
  report : Option String := none
  bound : Option Nat := none
  mode : Option DecoderMode := none
  name : Option String := none
  level : Option Level := none

/-- What a run is asked to do. -/
structure Options where
  /-- The input file; standard input if there is none. -/
  file : Option String
  /-- The file for the program; standard output if there is none. -/
  output : Option String
  /-- The file for the image of the store. -/
  rom : Option String
  /-- The file for the report. -/
  report : Option String
  config : Config
  /-- The most detailed level of notices that is shown. -/
  level : Level
deriving DecidableEq

namespace Settings

/-- Reads decimal digits into a number that has to stay a width. -/
def readDigits : (soFar : Nat) → List Char → Except ValueError Nat
  | soFar, [] => .ok soFar
  | soFar, c :: rest =>
    if c.isDigit then
      let n := soFar * 10 + (c.toNat - '0'.toNat)
      if n < Width.limit then readDigits n rest else .error .numberTooLarge
    else .error .invalidDigit

/-- Reads a width; a leading plus sign is allowed. -/
def readWidth (s : String) : Except ValueError Nat :=
  match s.toList with
  | [] => .error .emptyNumber
  | ['+'] => .error .invalidDigit
  | '+' :: digits => readDigits 0 digits
  | digits => readDigits 0 digits

/-- Reads the name of a level, in either case. -/
def readLevel (s : String) : Except ValueError Level :=
  match Level.all.find? fun l => l.name = s.map Char.toUpper with
  | some l => .ok l
  | none => .error .unknownLevel

/-- Reads the name of a decoder mode. -/
def readMode (s : String) : Except ValueError DecoderMode :=
  match DecoderMode.ofName? s with
  | some mode => .ok mode
  | none => .error .unknownMode

/-- Fills a setting that is not given yet. -/
def fill {α : Type} (slot : Option α) (value : Except ValueError α) : Except ValueError (Option α) :=
  match slot with
  | some _ => .error .duplicate
  | none => value.map some

/-- Gives a setting its value. -/
def set (s : Settings) (setting : Setting) (value : String) : Except ValueError Settings :=
  match setting with
  | .output => do return { s with output := ← fill s.output (.ok value) }
  | .rom => do return { s with rom := ← fill s.rom (.ok value) }
  | .report => do return { s with report := ← fill s.report (.ok value) }
  | .bound => do return { s with bound := ← fill s.bound (readWidth value) }
  | .decoder => do return { s with mode := ← fill s.mode (readMode value) }
  | .name => do return { s with name := ← fill s.name (.ok value) }
  | .log => do return { s with level := ← fill s.level (readLevel value) }

/-- Reads the arguments; `help` tells whether help was asked for, `ended` whether two dashes have
ended the options. -/
def read (help ended : Bool) (s : Settings) : List String → Except UsageError (Bool × Settings)
  | [] => .ok (help, s)
  | arg :: rest =>
    if !ended && (arg = "--help" || arg = "help") then read true ended s rest
    else if !ended && arg.startsWith "-" then
      if arg = "--" then read help true s rest
      else if help then .error .argumentsAfterHelp
      else
        match Setting.ofFlag? arg, rest with
        | none, _ => .error (.unrecognized arg)
        | some _, [] => .error (.noValue arg)
        | some setting, value :: rest =>
          match s.set setting value with
          | .error e => .error (.badValue arg value e)
          | .ok s => read help ended s rest
    else
      match s.file with
      | some _ => .error (.unrecognized arg)
      | none => read help ended { s with file := some arg } rest

/-- The options, with defaults for what was not set. -/
def options (s : Settings) : Options :=
  let defaults : Config := {}
  { file := s.file
    output := s.output
    rom := s.rom
    report := s.report
    config :=
      ⟨s.name.getD defaults.name, s.bound.getD defaults.bound, s.mode.getD defaults.mode⟩
    level := s.level.getD .warn }

end Settings

/-- Why a run ends before it starts. -/
inductive EarlyExit where
  | help
  | usage (error : UsageError)
deriving DecidableEq

/-- The options that the arguments ask for. -/
def Options.parse (args : List String) : Except EarlyExit Options :=
  match Settings.read false false {} args with
  | .error e => .error (.usage e)
  | .ok (true, _) => .error .help
  | .ok (false, s) => .ok s.options

/-- The name of the program. -/
def programName : String := "calyx-microcode"

/-- The answer to a request for help. -/
def helpText : String :=
  "\n".intercalate
    ["Usage: " ++ programName ++ " [-o <output>] [--rom <rom>] [--report <report>] "
        ++ "[--max-sel-width <max-sel-width>] [--decoder <decoder>] [--name <name>] [--log <log>] "
        ++ "[--] [<file>]",
      "",
      "Horizontally microcoded controlpath generator for Calyx.",
      "",
      "Positional Arguments:",
      "  file              input flow file",
      "",
      "Options:",
      "  -o, --output      output file",
      "  --rom             write the ROM image in $readmemh format",
      "  --report          write the encoding report",
      "  --max-sel-width   maximum width of a merged selector field",
      "  --decoder         decoder structure: comb, staged, or registered",
      "  --name            name of the generated component",
      "  --log             logging level",
      "  --help, help      display usage information"]

/-- Where help is found. -/
def helpHint : String := "Run " ++ programName ++ " --help for more information."

end ControlStore
