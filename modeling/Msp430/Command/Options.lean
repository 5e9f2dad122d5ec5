import Msp430.Assembly.Run
import Msp430.Numeral

/-!
# The command line

Files and options in any order. Short options may be written together behind one
dash; an option with a value has it behind an equals sign or as the next argument;
two dashes alone end the options. Arguments are taken from left to right, and the
first one that is wrong, or asks for help or the version, decides.
-/

namespace Msp430

/-- An option without a value. -/
inductive Flag where
  | list
  | symbols
  | verbose
  | writeFiles
  | help
  | version
deriving DecidableEq, Repr

namespace Flag

/-- The flag with the given letter. -/
def ofLetter? : Char → Option Flag
  | 'l' => some list
  | 's' => some symbols
  | 'v' => some verbose
  | 'w' => some writeFiles
  | 'h' => some help
  | 'V' => some version
  | _ => none

/-- The flag with the given long name. -/
def ofName? (name : Text) : Option Flag :=
  [("list".toList, list), ("symbols".toList, symbols), ("verbose".toList, verbose),
    ("write-files".toList, writeFiles), ("help".toList, help),
    ("version".toList, version)].lookup name

end Flag

/-- Why a command line is refused. -/
inductive UsageFault where
  /-- There is no such option. -/
  | unknownOption (text : Text)
  /-- An option is given twice. -/
  | repeated (option : Text)
  /-- An option lacks its value. -/
  | missingValue (option : Text)
  /-- A flag is given a value. -/
  | unexpectedValue (value : Text)
  /-- The value is not an address. -/
  | invalidOrigin (value : Text)
  /-- No file is named. -/
  | noFiles
deriving DecidableEq, Repr

/-- Why a command line does not ask for an assembly. -/
inductive Ending where
  | help
  | version
  | refused (fault : UsageFault)
deriving DecidableEq, Repr

/-- What a command line asks for. -/
structure Options where
  /-- Show the listing. -/
  list : Bool
  /-- Show the symbols, unless the listing is shown. -/
  symbols : Bool
  /-- Report the course of the run. -/
  verbose : Bool
  /-- Write listing and object files. -/
  writeFiles : Bool
  /-- The initial location counter, if one is given. -/
  origin? : Option Word
  /-- The source files in order. -/
  files : List Text
deriving DecidableEq, Repr

/-- The form of one argument. -/
inductive Argument where
  /-- The mark that ends the options. -/
  | endMark
  /-- A long option, with what follows an equals sign. -/
  | long (name : Text) (value? : Option Text)
  /-- One or more short options. -/
  | short (letters : Text)
  /-- A file, or the value of the option in front. -/
  | plain (text : Text)
deriving DecidableEq, Repr

namespace Argument

/-- Tells the form of an argument by its dashes. A single dash is a plain argument. -/
def ofText : Text → Argument
  | ['-'] => .plain ['-']
  | ['-', '-'] => .endMark
  | '-' :: '-' :: rest =>
    match rest.dropWhile (· != '=') with
    | [] => .long rest none
    | _ :: value => .long (rest.takeWhile (· != '=')) (some value)
  | '-' :: letters => .short letters
  | text => .plain text

end Argument

namespace Options

/-- The options before the first argument. -/
def initial : Options :=
  ⟨false, false, false, false, none, []⟩

/-- The initial location counter. -/
def origin (options : Options) : Word :=
  options.origin?.getD defaultOrigin

/-- Sets a flag that has not been set. -/
def setFlag (options : Options) : Flag → Except Ending Options
  | .list =>
    if options.list then .error (.refused (.repeated "list".toList))
    else .ok { options with list := true }
  | .symbols =>
    if options.symbols then .error (.refused (.repeated "symbols".toList))
    else .ok { options with symbols := true }
  | .verbose =>
    if options.verbose then .error (.refused (.repeated "verbose".toList))
    else .ok { options with verbose := true }
  | .writeFiles =>
    if options.writeFiles then .error (.refused (.repeated "write-files".toList))
    else .ok { options with writeFiles := true }
  | .help => .error .help
  | .version => .error .version

/-- Sets the flag with the given letter. -/
def setLetter (options : Options) (letter : Char) : Except Ending Options :=
  match Flag.ofLetter? letter with
  | some flag => options.setFlag flag
  | none => .error (.refused (.unknownOption ['-', letter]))

/-- Reads an address: decimal digits, or a hexadecimal mark and digits. -/
def readOrigin? (text : Text) : Option Word :=
  match Numeral.afterHexMark? text with
  | some digits => Numeral.unsigned? 16 digits
  | none => Numeral.unsigned? 10 text

/-- Sets an origin that has not been set. -/
def setOrigin (options : Options) (text : Text) : Except Ending Options :=
  match readOrigin? text with
  | none => .error (.refused (.invalidOrigin text))
  | some origin =>
    if options.origin?.isSome then .error (.refused (.repeated "origin".toList))
    else .ok { options with origin? := some origin }

/-- Adds source files. -/
def addFiles (options : Options) (files : List Text) : Options :=
  { options with files := options.files ++ files }

/-- Takes arguments from left to right. -/
def take (options : Options) : List Text → Except Ending Options
  | [] => .ok options
  | argument :: rest =>
    match Argument.ofText argument with
    | .plain file => (options.addFiles [file]).take rest
    | .endMark => .ok (options.addFiles rest)
    | .short letters => do
      let options ← letters.foldlM setLetter options
      options.take rest
    | .long name value? =>
      if name = "origin".toList then
        match value?, rest with
        | some value, rest => do
          let options ← options.setOrigin value
          options.take rest
        | none, [] => .error (.refused (.missingValue name))
        | none, value :: rest =>
          match Argument.ofText value with
          | .plain value => do
            let options ← options.setOrigin value
            options.take rest
          | _ => .error (.refused (.missingValue name))
      else
        match Flag.ofName? name, value? with
        | none, _ => .error (.refused (.unknownOption argument))
        | some _, some value => .error (.refused (.unexpectedValue value))
        | some flag, none => do
          let options ← options.setFlag flag
          options.take rest

/-- Reads a command line, which has to name a file. -/
def read (arguments : List Text) : Except Ending Options := do
  let options ← initial.take arguments
  if options.files.isEmpty then throw (.refused .noFiles) else return options

end Options

end Msp430
