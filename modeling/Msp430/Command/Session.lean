import Msp430.Command.Options
import Msp430.Command.Storage
import Msp430.Source.File

/-!
# Sessions

A session carries out one command line. Each file is assembled on its own, in the
order of the arguments, and a file that fails does not stop the ones after it. What
a session prints is a value; only reading and writing files goes through the
storage.
-/

namespace Msp430

/-- What a session leaves besides the files it wrote. -/
structure Outcome where
  /-- The exit status: 0 for success, 1 for a failed file, 2 for a refused command line. -/
  status : Nat
  /-- The regular output. -/
  output : Text
  /-- The error output. -/
  errors : Text
deriving DecidableEq, Repr

/-- What assembling a file prints, and whether it succeeded. -/
structure Report where
  /-- The printed lines. -/
  text : Text
  /-- Whether a program without faults was assembled and everything could be written. -/
  succeeded : Bool
deriving DecidableEq, Repr

namespace Message

/-- A word in red. -/
def red (text : Text) : Text :=
  "\x1b[91m".toList ++ text ++ "\x1b[0m".toList

/-- A word in blue. -/
def blue (text : Text) : Text :=
  "\x1b[94m".toList ++ text ++ "\x1b[0m".toList

/-- A line that informs. -/
def info (text : Text) : Text :=
  Text.line (blue "INFO".toList ++ ": ".toList ++ text)

/-- A line that warns. -/
def warning (text : Text) : Text :=
  Text.line (red "WARNING".toList ++ ": ".toList ++ text)

/-- The last line of a session with failed files. -/
def failures (count : Nat) : Text :=
  Text.line ("Error: ".toList ++ red "asm::Error".toList ++ ": ".toList ++
    Digits.decimal count ++ " file(s) failed to assemble".toList)

/-- The name and the version of the program. -/
def version : Text :=
  Text.line "msp430-asm 0.1.0".toList

/-- How the program is called. -/
def usage : Text :=
  Text.line "Usage: msp430-asm [OPTIONS] <FILES>...".toList

/-- The options of the program. -/
def help : Text :=
  Text.line "Two-pass MSP430 assembler producing listing and object files.".toList ++
    Text.line [] ++ usage ++ Text.line [] ++
    [ "  -l, --list             show the listing",
      "      --origin <ORIGIN>  initial location counter, hexadecimal after 0x [default: 512]",
      "  -s, --symbols          show the symbol table",
      "  -v, --verbose          report the course of the run",
      "  -w, --write-files      write listing and object files",
      "  -h, --help             show this text",
      "  -V, --version          show the version" ].flatMap fun row => Text.line row.toList

end Message

namespace UsageFault

/-- The wording of a refusal. -/
def message : UsageFault → Text
  | unknownOption text => "unexpected argument ".toList ++ text
  | repeated option => "repeated option --".toList ++ option
  | missingValue option => "missing value for --".toList ++ option
  | unexpectedValue value => "unexpected value ".toList ++ value
  | invalidOrigin value => "invalid origin ".toList ++ value
  | noFiles => "no source file given".toList

end UsageFault

namespace Ending

/-- The outcome of a session that assembles nothing. -/
def outcome : Ending → Outcome
  | help => ⟨0, Message.help, []⟩
  | version => ⟨0, Message.version, []⟩
  | refused fault =>
    ⟨2, [], Text.line ("error: ".toList ++ fault.message) ++ Message.usage⟩

end Ending

namespace Session

/-- What is shown of a program: the listing, or else the symbols, or nothing. -/
def shown (options : Options) (program : Program) : Text :=
  if options.list then program.listing
  else if options.symbols then program.symbols.render
  else []

/-- What a verbose session reports about a file. -/
def traced (options : Options) (path : Text) (source : List Text) : Text :=
  if options.verbose then
    Text.line ("read ".toList ++ Digits.decimal source.length ++ " lines from ".toList ++ path) ++
      Trace.ofSource options.origin source
  else []

/-- The last lines about a program: success, or its faults. -/
def verdict (path : Text) (program : Program) : Report :=
  if program.faultCount = 0 then
    ⟨Message.info (path ++ " assembled without errors".toList), true⟩
  else
    ⟨Message.warning (path ++ " contains ".toList ++ Digits.decimal program.faultCount ++
        " error(s)".toList) ++
      (program.lines.filter Line.isFault).flatMap (fun line => Text.line line.display) ++
      Text.line (Message.red "Syntax Error".toList ++ " ".toList ++ path ++
        " failed to assemble".toList), false⟩

variable {m : Type → Type} [Monad m] [Storage m]

/-- Writes the listing and, for a program without faults, the object file beside the source.
Returns what is printed and what went wrong. -/
def writeResults (path : Text) (program : Program) : m (Text × Option FileFault) := do
  match ← Storage.write (Path.listing path) program.listing with
  | .error fault => return ([], some fault)
  | .ok () =>
    let listed := Message.info ("wrote listing file: ".toList ++ Path.listing path)
    match program.object? with
    | none => return (listed, none)
    | some object =>
      match ← Storage.write (Path.object path) object.render with
      | .error fault => return (listed, some fault)
      | .ok () =>
        return (listed ++ Message.info ("wrote object file: ".toList ++ Path.object path), none)

/-- Assembles the lines of a source file and gives the results that were asked for. -/
def assembleSource (options : Options) (path : Text) (source : List Text) : m Report := do
  let program := assemble options.origin source
  let before := traced options path source ++ shown options program
  let (written, fault?) ←
    if options.writeFiles then writeResults path program else pure ([], none)
  match fault? with
  | some fault => return ⟨before ++ written ++ Text.line fault.message, false⟩
  | none =>
    let verdict := verdict path program
    return ⟨before ++ written ++ verdict.text, verdict.succeeded⟩

/-- Reads the lines of a source file. -/
def readSource (path : Text) : m (Except FileFault (List Text)) := do
  match ← Storage.read path with
  | .error fault => return .error fault
  | .ok bytes =>
    match SourceFile.ofBytes? bytes with
    | none => return .error .notText
    | some source => return .ok source

/-- Assembles one file. -/
def assembleFile (options : Options) (path : Text) : m Report := do
  if !Path.isSource path then return ⟨Text.line "unrecognized file type".toList, false⟩
  let opening := Message.info ("Assembling ".toList ++ path)
  match ← readSource path with
  | .error fault => return ⟨opening ++ Text.line fault.message, false⟩
  | .ok source =>
    let report ← assembleSource options path source
    return ⟨opening ++ report.text, report.succeeded⟩

/-- The outcome of a session whose files gave the given reports. -/
def outcome (reports : List Report) : Outcome :=
  let failed := reports.countP (fun report => !report.succeeded)
  let output := reports.flatMap Report.text
  if failed = 0 then ⟨0, output, []⟩ else ⟨1, output, Message.failures failed⟩

/-- Carries out a command line. -/
def run (arguments : List Text) : m Outcome := do
  match Options.read arguments with
  | .error ending => return ending.outcome
  | .ok options =>
    let reports ← options.files.mapM (assembleFile options)
    return outcome reports

end Session

end Msp430
