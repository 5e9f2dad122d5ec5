import Msp430.Text.Basic

/-!
# Faults of a source line

Everything that can be wrong with a single line, as a cause, and the wording of
each cause in the listing. A fault is confined to its line: the run goes on.
-/

namespace Msp430

/-- The part of an instruction line that a fault refers to. -/
inductive Part where
  | mnemonic
  | source
  | destination
deriving DecidableEq, Repr

/-- What a symbol was declared as. -/
inductive SymbolKind where
  | label
  | constant
deriving DecidableEq, Repr

/-- Why a source line does not assemble. -/
inductive Fault where
  /-- The name already has a definition. -/
  | duplicateSymbol (name : Text) (kind : SymbolKind)
  /-- A label stands somewhere else than in the first column. -/
  | labelPosition (name : Text)
  /-- The name in the label position is no identifier. -/
  | labelCharacter (name : Text)
  /-- A mnemonic or directive stands in the label position. -/
  | reservedLabel (name : Text)
  /-- A required part of the line is absent. -/
  | missing (part : Part)
  /-- The operator is not a mnemonic with an optional size suffix. -/
  | malformedOperator (operator : Text)
  /-- The instruction has no byte form. -/
  | byteOperation (operator : Text)
  /-- No instruction has this mnemonic. -/
  | unknownInstruction (mnemonic : Text)
  /-- The operand is written in none of the addressing modes that its place allows. -/
  | operandSyntax (part : Part)
  /-- The value does not fit into a byte. -/
  | valueRange (text : Text)
  /-- The jump target is too far away or at an odd distance. -/
  | jumpRange (target : Text)
  /-- The name has no value. -/
  | undefinedName (name : Text)
  /-- The line has none of the known forms. -/
  | unrecognized
deriving DecidableEq, Repr

namespace Part

/-- The name of the part in messages. -/
def word : Part → Text
  | mnemonic => "mnemonic".toList
  | source => "source".toList
  | destination => "destination".toList

end Part

namespace SymbolKind

/-- The name of the kind in messages. -/
def word : SymbolKind → Text
  | label => "label".toList
  | constant => "constant".toList

end SymbolKind

namespace Fault

/-- A name between apostrophes. -/
def quoted (name : Text) : Text :=
  "'".toList ++ name ++ "'".toList

/-- What a fault says about its line. -/
def explanation : Fault → Text
  | duplicateSymbol name kind =>
      "duplicate definition of ".toList ++ kind.word ++ " ".toList ++ quoted name ++ ".".toList
  | labelPosition name =>
      "label ".toList ++ quoted name ++ " does not begin in column 1.".toList
  | labelCharacter name =>
      "label ".toList ++ quoted name ++
        if (name.head?.map Char.isAlpha).getD false then " contains invalid characters.".toList
        else " must begin with a letter.".toList
  | reservedLabel name =>
      "reserved word ".toList ++ quoted name ++ " used as a label.".toList
  | missing .mnemonic => "missing mnemonic.".toList
  | missing part => "missing ".toList ++ part.word ++ " parameter.".toList
  | malformedOperator operator => "malformed operator ".toList ++ quoted operator ++ ".".toList
  | byteOperation operator =>
      "byte operation not supported by ".toList ++ quoted operator ++ ".".toList
  | unknownInstruction mnemonic =>
      "unknown instruction ".toList ++ quoted mnemonic ++ ".".toList
  | operandSyntax part => "Invalid ".toList ++ part.word ++ " parameter syntax.".toList
  | valueRange text => "value ".toList ++ quoted text ++ " out of range.".toList
  | jumpRange target => "jump to ".toList ++ quoted target ++ " out of range.".toList
  | undefinedName name => "undefined label ".toList ++ quoted name ++ ".".toList
  | unrecognized => "unrecognized syntax.".toList

/-- The message that takes the place of the line in the listing. -/
def message (fault : Fault) : Text :=
  "ERROR - ".toList ++ explanation fault

end Fault

end Msp430
