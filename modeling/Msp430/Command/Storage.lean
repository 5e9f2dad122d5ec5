import Msp430.Command.Path

/-!
# Storage

Where the sources are read from and the results are written to. A session needs
only two operations, `Storage.read` and `Storage.write`, and is written for
any monad that has them.

`Disk` is a storage as a value: folders, files, symbolic links and further names of
files by their positions below the root, each with what it refuses, and a working
folder where relative paths start. The room of a disk does not end, and nobody else
changes it.
-/

namespace Msp430

/-- Why a file cannot be read or written. -/
inductive FileFault where
  /-- Nothing has this name. -/
  | notFound
  /-- The name leads through a file. -/
  | notFolder
  /-- The name belongs to a folder. -/
  | isFolder
  /-- The content is not UTF-8. -/
  | notText
  /-- Anything else, as the system words it. -/
  | other (message : Text)
deriving DecidableEq, Repr

namespace FileFault

/-- The wording of a file fault. -/
def message : FileFault → Text
  | notFound => "No such file or directory (os error 2)".toList
  | notFolder => "Not a directory (os error 20)".toList
  | isFolder => "Is a directory (os error 21)".toList
  | notText => "stream did not contain valid UTF-8".toList
  | other message => message

/-- A path leads through more links than the system follows. -/
def tooManyLinks : FileFault :=
  .other "Too many levels of symbolic links (os error 40)".toList

end FileFault

/-- A monad in which files can be read and written. -/
class Storage (m : Type → Type) where
  /-- The content of the file at a path. -/
  read : Text → m (Except FileFault ByteArray)
  /-- Replaces the file at a path by one with the given text. -/
  write : Text → Text → m (Except FileFault Unit)

/-- A position on a disk: the names from the root inwards. -/
abbrev Position := List Text

/-- What may be done with a folder or a file; what may not fails in the given way. -/
structure Rights where
  /-- Looking up a name in a folder. -/
  enter : Except FileFault Unit
  /-- Reading. -/
  read : Except FileFault Unit
  /-- Writing a file, or making a file in a folder. -/
  write : Except FileFault Unit

/-- Everything may be done. -/
def Rights.full : Rights :=
  ⟨.ok (), .ok (), .ok ()⟩

/-- What stands at a position of a disk. -/
inductive DiskEntry where
  | folder (rights : Rights)
  | file (rights : Rights) (content : ByteArray)
  /-- A symbolic link: a path that goes on in its place. -/
  | link (target : Text)
  /-- A further name of the file that stands at another position. -/
  | shared (owner : Position)

/-- Folders, files and other names of them by their positions. -/
structure Disk where
  /-- The folder where relative paths start. -/
  working : Position
  /-- The entries; of two at one position the first one counts. -/
  entries : List (Position × DiskEntry)

namespace Disk

/-! ### Entries -/

/-- What stands at a position. The root is always there. -/
def entry? (disk : Disk) (position : Position) : Option DiskEntry :=
  match disk.entries.lookup position with
  | some entry => some entry
  | none => if position.isEmpty then some (.folder .full) else none

/-- The disk with an entry replaced. -/
def put (disk : Disk) (position : Position) (entry : DiskEntry) : Disk :=
  { disk with
    entries := (position, entry) :: disk.entries.filter (fun other => other.1 != position) }

/-- The disk with a folder, and all folders around it, at a position. -/
def makeFolder (disk : Disk) (position : Position) : Disk :=
  (List.range position.length).foldl
    (fun disk depth => disk.put (position.take (depth + 1)) (.folder .full)) disk

/-- The disk with a file at a position and all folders around it. -/
def makeFile (disk : Disk) (position : Position) (content : ByteArray) : Disk :=
  (disk.makeFolder position.dropLast).put position (.file .full content)

/-- The disk with nothing on it but its working folder. -/
def fresh (working : Position) : Disk :=
  makeFolder ⟨working, []⟩ working

/-! ### Following paths -/

/-- Where one piece of a path leads. -/
inductive Turn where
  | onto (position : Position)
  /-- Through a link, which puts the pieces of its target in front. -/
  | through (start : Position) (pieces : List Text)

/-- Where a path from a folder starts: at the root if it is absolute. -/
def start (folder : Position) (path : Text) : Position :=
  if path.head? = some '/' then [] else folder

/-- Whether a piece of a path can be looked up at a position. Only a piece with a name needs the
right to enter. -/
def enter (disk : Disk) (position : Position) (piece : Text) : Except FileFault Unit :=
  match disk.entry? position with
  | none => throw .notFound
  | some (.folder rights) => if piece.isEmpty then return () else rights.enter
  | some _ => throw .notFolder

/-- Where a piece of a path leads from a folder. The folder around the root is the root. -/
def turn (disk : Disk) (position : Position) (piece : Text) : Turn :=
  if Path.isIdle piece then .onto position
  else if Path.isUpward piece then .onto position.dropLast
  else
    match disk.entry? (position ++ [piece]) with
    | some (.link target) => .through (start position target) (target.splitOn '/')
    | _ => .onto (position ++ [piece])

/-- Walks the pieces of a path from a position, up to the first link, where a detour goes on. -/
def walk (disk : Disk) (detour : Position → List Text → Except FileFault Position)
    (position : Position) : List Text → Except FileFault Position
  | [] => return position
  | piece :: rest => do
    disk.enter position piece
    match disk.turn position piece with
    | .onto next => disk.walk detour next rest
    | .through start pieces => detour start (pieces ++ rest)

/-- Follows the pieces of a path from a position, through a number of links at most. -/
def follow (disk : Disk) : Nat → Position → List Text → Except FileFault Position
  | 0 => disk.walk fun _ _ => throw .tooManyLinks
  | links + 1 => disk.walk (disk.follow links)

/-- How many links the system follows. -/
def maxLinks : Nat := 40

/-- The position with the content that a position stands for. -/
def owner (disk : Disk) (position : Position) : Position :=
  match disk.entry? position with
  | some (.shared owner) => owner
  | _ => position

/-- The position that a path names. Nothing need stand there. -/
def locate (disk : Disk) (path : Text) : Except FileFault Position := do
  let position ← disk.follow maxLinks (start disk.working path) (path.splitOn '/')
  return disk.owner position

/-! ### Reading and writing -/

/-- The content of the file at a path. -/
def read (disk : Disk) (path : Text) : Except FileFault ByteArray := do
  match disk.entry? (← disk.locate path) with
  | some (.file rights content) => do rights.read; return content
  | some (.folder rights) => do rights.read; throw .isFolder
  | _ => throw .notFound

/-- Whether a file can be written at a position, where it may have to be made. -/
def mayWrite (disk : Disk) (position : Position) : Except FileFault Unit :=
  match disk.entry? position with
  | some (.file rights _) => rights.write
  | some (.folder _) => throw .isFolder
  | some _ => throw .notFound
  | none =>
    match disk.entry? position.dropLast with
    | some (.folder rights) => rights.write
    | _ => throw .notFound

/-- Where a text can be written at a path. -/
def place (disk : Disk) (path : Text) : Except FileFault Position := do
  let position ← disk.locate path
  disk.mayWrite position
  return position

/-- The rights of the file at a position. A new file has all of them. -/
def rightsAt (disk : Disk) (position : Position) : Rights :=
  match disk.entry? position with
  | some (.file rights _) => rights
  | _ => .full

/-- The disk with the content of a file replaced by a text. -/
def putText (disk : Disk) (position : Position) (text : Text) : Disk :=
  disk.put position (.file (disk.rightsAt position) (String.ofList text).toUTF8)

/-- The disk after a file has been written. -/
def write (disk : Disk) (path text : Text) : Except FileFault Disk := do
  return disk.putText (← disk.place path) text

end Disk

instance : Storage (StateM Disk) where
  read path := do
    return (← get).read path
  write path text := do
    match (← get).write path text with
    | .ok disk => set disk; return .ok ()
    | .error fault => return .error fault

end Msp430
