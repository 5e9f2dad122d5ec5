import Msp430.Field
import Msp430.Source.Statement

/-!
# Data

The fields that the data directives store. Words and bytes are lists of
expressions, whose names may be defined later; a byte list may also hold strings,
which are stored in UTF-8. Reserved space has to have a known size at once, since
the addresses of the following lines depend on it.
-/

namespace Msp430

namespace Data

/-- The text between two double quotes. -/
def unquote? : Text → Option Text
  | '"' :: rest => if rest.getLast? = some '"' then some rest.dropLast else none
  | _ => none

/-- The UTF-8 encoding of a text. -/
def utf8 (text : Text) : List Byte :=
  text.flatMap fun c => (String.utf8EncodeChar c).map UInt8.toBitVec

/-- Whether a value is pending or fits into a byte. -/
def fitsByte (value : Value) : Bool :=
  value.known?.all (fun word => word.toNat < 256)

/-- The fields of an item in a byte list: the bytes of a string, or one byte. -/
def byteItem (here : Word) (resolver : Resolver) (item : Text) : Except Fault (List Field) :=
  match unquote? item with
  | some text => .ok ((utf8 text).map fun byte => .byte (.known (byte.setWidth 16)))
  | none => do
    let value ← Expr.evaluate item here resolver
    if fitsByte value then return [.byte value] else throw (.valueRange item)

/-- The field of an item in a word list. -/
def wordItem (here : Word) (resolver : Resolver) (item : Text) : Except Fault Field := do
  let value ← Expr.evaluate item here resolver
  return .word value

/-- The word that an expression has to come to at once. -/
def immediate (text : Text) (here : Word) (resolver : Resolver) : Except Fault Word := do
  let value ← Expr.evaluate text here resolver
  value.settle resolver

/-- The fields of a data directive on a line at the given address. -/
def fields (directive : Directive) (items : Text) (here : Word) (resolver : Resolver) :
    Except Fault (List Field) :=
  match directive with
  | .space => do
    let count ← immediate items here resolver
    return [.reserve count]
  | .word => (Scan.splitList items).mapM (wordItem here resolver)
  | .byte => do
    let parts ← (Scan.splitList items).mapM (byteItem here resolver)
    return parts.flatten

end Data

end Msp430
