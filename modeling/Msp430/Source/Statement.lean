import Msp430.Instruction
import Msp430.Source.Scan

/-!
# Statements

What a source line says. A word that starts in the first column is a label, with
or without a colon; everything else is indented. Forms are tried in a fixed
order: blank line, comment, constant, data, origin, bare label, instruction.
-/

namespace Msp430

/-- The directives that store data. -/
inductive Directive where
  /-- Bytes and strings. -/
  | byte
  /-- Reserved space. -/
  | space
  /-- Words. -/
  | word
deriving DecidableEq, Repr

namespace Directive

/-- The directive that a word spells. -/
def ofWord? (word : Text) : Option Directive :=
  if Text.spells word "DB".toList then some byte
  else if Text.spells word "DS".toList then some space
  else if Text.spells word "DW".toList then some Directive.word
  else none

end Directive

/-- A source line, taken apart. Operand texts are kept as written. -/
inductive Statement where
  /-- Nothing but blanks. -/
  | blank
  /-- A comment, or the end mark. -/
  | comment
  /-- A constant and its expression. -/
  | constant (name value : Text)
  /-- Data to be stored. -/
  | data (label? : Option Text) (directive : Directive) (items : Text)
  /-- A new value of the location counter. -/
  | origin (label? : Option Text) (address : Text)
  /-- A label on a line of its own. -/
  | label (name : Text)
  /-- An instruction. -/
  | instruction (label? : Option Text) (operator : Text) (operands : Operands)
deriving DecidableEq, Repr

/-- What is wrong with a word in the label position, if anything is. -/
def labelFault? (name : Text) : Option Fault :=
  if Mnemonic.isReserved name then some (.reservedLabel name)
  else if !Text.isIdentifier name then some (.labelCharacter name)
  else none

/-- A line without its comment, split at its first column. -/
structure Columns where
  /-- The word that starts in the first column, without its colon. -/
  label? : Option Text
  /-- What follows the label, without the blanks at its ends. -/
  body : Text
deriving DecidableEq, Repr

namespace Columns

/-- The word before a final colon, if there is one. -/
def beforeColon? (word : Text) : Option Text :=
  if word.getLast? = some ':' then some word.dropLast else none

/-- Splits a line that ends in no blank. -/
def ofCode : Text → Columns
  | [] => ⟨none, []⟩
  | first :: rest =>
    if Text.isBlank first then ⟨none, Text.trim (first :: rest)⟩
    else
      let (word, body) := Text.splitWord (first :: rest)
      ⟨some ((beforeColon? word).getD word), body⟩

/-- The constant that a line defines, if its operator says so. -/
def constant? (columns : Columns) : Option (Except Fault Statement) :=
  let (name, rest) := match columns.label? with
    | some name => (name, columns.body)
    | none => Text.splitWord columns.body
  let (operator, value) := Text.splitWord rest
  if Text.spells operator "EQU".toList then
    some <|
      if columns.label?.isNone then .error (.labelPosition name)
      else if value.isEmpty then .error (.missing .source)
      else .ok (.constant name value)
  else none

/-- What is wrong with the operator of an instruction, if anything is. On an indented line a
word with a colon, or a word in front of an operator, is a label out of place. -/
def operatorFault? (indented : Bool) (operator rest : Text) : Option Fault :=
  match (if indented then beforeColon? operator else none) with
  | some name => some (.labelPosition name)
  | none =>
    if indented && !Mnemonic.isReserved operator &&
        Mnemonic.isReserved (Text.splitWord rest).1 then
      some (.labelPosition operator)
    else if (operator.head?.map Char.isAlpha).getD false then none
    else some (.missing .mnemonic)

/-- The operands of an instruction. -/
def operands (rest : Text) : Except Fault Operands :=
  match Scan.splitList rest with
  | [_] => .ok (if rest.isEmpty then .none else .one rest)
  | [source, destination] =>
    if source.isEmpty then .error (.missing .source)
    else if destination.isEmpty then .error (.missing .destination)
    else .ok (.two source destination)
  | _ => .error .unrecognized

/-- The statement of a line that is neither blank nor a comment and has no faulty label. -/
def statement (columns : Columns) : Except Fault Statement :=
  match columns.constant? with
  | some result => result
  | none =>
    let (operator, rest) := Text.splitWord columns.body
    match Directive.ofWord? operator with
    | some directive =>
      if rest.isEmpty then .error (.missing .source)
      else .ok (.data columns.label? directive rest)
    | none =>
      if Text.spells operator "ORG".toList then
        if rest.isEmpty then .error (.missing .source)
        else .ok (.origin columns.label? rest)
      else
        match columns.label?, columns.body with
        | some name, [] => .ok (.label name)
        | label?, _ =>
          match operatorFault? label?.isNone operator rest with
          | some fault => .error fault
          | none => (operands rest).map (.instruction label? operator)

end Columns

namespace Statement

/-- Takes a source line apart. -/
def classify (text : Text) : Except Fault Statement :=
  if (Text.trim text).isEmpty then .ok .blank
  else
    let code := Text.trimEnd (Scan.stripComment text)
    if (Text.trim code).isEmpty || Text.spells (Text.splitWord code).1 "END".toList then
      .ok .comment
    else
      let columns := Columns.ofCode code
      match columns.label?.bind labelFault? with
      | some fault => .error fault
      | none => columns.statement

end Statement

end Msp430
