import Msp430.Text.Basic

/-!
# Paths

Names of files. Pieces between slashes name folders and, last, the file; empty
pieces and single points name nothing. The extension of a file name is what
follows its last point, unless that point comes first.
-/

namespace Msp430

namespace Path

/-- Whether a piece of a path stays where it is. -/
def isIdle (piece : Text) : Bool :=
  piece.isEmpty || piece == ".".toList

/-- Whether a piece of a path leads to the enclosing folder. -/
def isUpward (piece : Text) : Bool :=
  piece == "..".toList

/-- The text in front of the file name, and the file name. -/
def splitName? (path : Text) : Option (Text × Text) :=
  match (path.splitOn '/').reverse.dropWhile isIdle with
  | [] => none
  | name :: folders =>
    if isUpward name then none
    else some (folders.reverse.flatMap (fun folder => folder ++ ['/']), name)

/-- The parts of a file name in front of its extension and behind the point. -/
def splitExtension (name : Text) : Text × Option Text :=
  let behind := (name.reverse.takeWhile (· != '.')).reverse
  match (name.reverse.dropWhile (· != '.')).reverse.dropLast with
  | [] => (name, none)
  | stem => (stem, some behind)

/-- The extension of the file that a path names. -/
def extension? (path : Text) : Option Text := do
  let (_, name) ← splitName? path
  (splitExtension name).2

/-- The path of a file beside the given one, with the same name and another extension. -/
def withExtension (path extension : Text) : Text :=
  match splitName? path with
  | none => path
  | some (folder, name) => folder ++ (splitExtension name).1 ++ ['.'] ++ extension

/-- Whether a path names an assembly source. -/
def isSource (path : Text) : Bool :=
  ["S43".toList, "ASM".toList, "S".toList].contains (Text.upper ((extension? path).getD []))

/-- Whether a path names a listing or an object file. -/
def isResult (path : Text) : Bool :=
  ["lst".toList, "obj".toList].contains ((extension? path).getD [])

/-- The path of the listing of a source. -/
def listing (source : Text) : Text :=
  withExtension source "lst".toList

/-- The path of the object file of a source. -/
def object (source : Text) : Text :=
  withExtension source "obj".toList

end Path

end Msp430
