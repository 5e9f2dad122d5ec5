import Msp430.Numeral
import Msp430.Symbol.Name
import Msp430.Value

/-!
# Expressions

Every numeric field of the source is a sum of signed terms. A term is `$` (the
address of the line), a literal or a name; a sign may stand in front of the
first term, and blanks may stand around each term.

Reading (`Expr.read?`) depends on the text alone and evaluation (`Expr.value`)
on the address and the known names alone. Names without a value do not stop
evaluation: they are left in a pending value.
-/

namespace Msp430

/-- One summand of an expression, without its sign. -/
inductive Term where
  /-- The address of the line. -/
  | here
  /-- A number or a quoted character. -/
  | literal (word : Word)
  /-- A name, as it was written. -/
  | name (text : Text)
deriving DecidableEq, Repr

/-- A summand of an expression with its sign. -/
structure SignedTerm where
  /-- The sign in front of the term, or plus where the first term has none. -/
  sign : Sign
  /-- The term. -/
  term : Term
deriving DecidableEq, Repr

/-- A sum of signed terms, first term first. -/
abbrev Expr := List SignedTerm

namespace Term

/-- Reads a term from a text without blanks at its ends. -/
def read? (text : Text) : Option Term :=
  if text = ['$'] then some .here
  else match Numeral.character? text with
    | some byte => some (.literal (byte.setWidth 16))
    | none =>
      match text with
      | [] => none
      | first :: _ =>
        if first.isDigit || first == '%' then (Numeral.read? text).map .literal
        else if Text.isIdentifier text then some (.name text)
        else none

/-- The word of a term at an address, if its name (where it is one) has a value. -/
def word? (here : Word) (resolver : Resolver) : Term → Option Word
  | .here => some here
  | .literal word => some word
  | .name text => resolver text

end Term

namespace SignedTerm

/-- What a term adds to a sum: nothing, while its name has no value. -/
def contribution (here : Word) (resolver : Resolver) (signed : SignedTerm) : Int :=
  match signed.term.word? here resolver with
  | some word => signed.sign.apply word.toNat
  | none => 0

end SignedTerm

namespace Expr

/-- The sign that a character denotes, if it is one. -/
def sign? (c : Char) : Option Sign :=
  if c == '+' then some .plus else if c == '-' then some .minus else none

/-- Whether a character is no sign. -/
def isPlain (c : Char) : Bool :=
  (sign? c).isNone

/-- Cuts a text in front of the sign that ends its first term. A term that opens with an
apostrophe has its first three characters passed over, since the quoted one may be a sign. -/
def cutTerm (text : Text) : Text × Text :=
  let text := Text.trimStart text
  let skip := if text.head? = some '\'' then 3 else 0
  (text.take skip ++ (text.drop skip).takeWhile isPlain, (text.drop skip).dropWhile isPlain)

theorem length_lt_of_cutTerm {text rest : Text} {mark : Char}
    (cut : (cutTerm text).2 = mark :: rest) : rest.length < text.length := by
  have suffix : (cutTerm text).2 <:+ text :=
    (List.dropWhile_suffix _).trans ((List.drop_suffix _ _).trans (List.dropWhile_suffix _))
  have bound := suffix.length_le
  rw [cut, List.length_cons] at bound
  omega

/-- Reads the terms of a text, the first one under the given sign. -/
def readTerms? (sign : Sign) (text : Text) : Option Expr :=
  match Term.read? (Text.trim (cutTerm text).1) with
  | none => none
  | some term =>
    match cut : (cutTerm text).2 with
    | [] => some [⟨sign, term⟩]
    | mark :: rest =>
      have := length_lt_of_cutTerm cut
      (readTerms? ((sign? mark).getD .plus) rest).map (⟨sign, term⟩ :: ·)
termination_by text.length

/-- Reads an expression; one sign may stand in front of the first term. -/
def read? (text : Text) : Option Expr :=
  match Text.trim text with
  | [] => none
  | first :: rest =>
    match sign? first with
    | some sign => readTerms? sign rest
    | none => readTerms? .plus (first :: rest)

/-- Whether an expression uses the address of its line. -/
def usesHere (expr : Expr) : Bool :=
  expr.any (fun signed => signed.term == .here)

/-- The sum of the terms that have a value. -/
def offset (here : Word) (resolver : Resolver) (expr : Expr) : Int :=
  expr.foldr (fun signed sum => signed.contribution here resolver + sum) 0

/-- The names that have no value, in order, with their signs. -/
def unresolved (resolver : Resolver) (expr : Expr) : List Mention :=
  expr.filterMap fun signed =>
    match signed.term with
    | .name text => if (resolver text).isNone then some ⟨text, signed.sign⟩ else none
    | _ => none

/-- The value of an expression on a line at the given address. -/
def value (here : Word) (resolver : Resolver) (expr : Expr) : Value :=
  match expr.unresolved resolver with
  | [] => .known (Word.ofInt (expr.offset here resolver))
  | mentions => .pending ⟨expr.offset here resolver, mentions⟩

/-- Reads and evaluates an expression. Without an address, `$` has no meaning. -/
def evaluate? (text : Text) (here? : Option Word) (resolver : Resolver) : Option Value := do
  let expr ← read? text
  match here? with
  | some here => some (expr.value here resolver)
  | none => if expr.usesHere then none else some (expr.value 0 resolver)

/-- Reads and evaluates an expression that the line at an address requires. -/
def evaluate (text : Text) (here : Word) (resolver : Resolver) : Except Fault Value :=
  match read? text with
  | some expr => .ok (expr.value here resolver)
  | none => .error (.operandSyntax .source)

end Expr

end Msp430
