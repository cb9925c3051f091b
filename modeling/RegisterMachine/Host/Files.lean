import RegisterMachine.Host.Error
import RegisterMachine.Host.Reader
import RegisterMachine.Text.Pieces

/-!
# RegisterMachine.Host.Files

The part of a file system that a command can see: a working directory with files
and directories below it. A path is followed name by name; every name but the
last has to be that of a directory. What is outside of the working directory is
one empty directory.

Opening a directory succeeds, and reading from it fails, which is why
`Files.reader` gives a reader for it that has failed from the beginning. A file
that is to be written may be missing, but not the directory that it stands in;
a path that ends in a slash is refused before its last name is looked at.

A file that could be opened for writing has lost what was in it. The device may
still refuse the new content, or the rest of it; what it has taken stays.
-/

namespace RegisterMachine

/-- What a path can lead to. -/
inductive Node
  | file (bytes : List Byte)
  | directory
  deriving DecidableEq, Repr

/-- What is in the working directory. -/
structure Files where
  /-- The nodes below the working directory, by the names that lead to them. -/
  nodes : List (List Text × Node)
  /-- What the device does with bytes for the file with these names. If it does not take all of
  them, this is how many it takes, and why no more. -/
  refusal : List Text → List Byte → Option (Nat × HostError)

/-- Where a path leads. -/
inductive Place
  | directory
  /-- A file with these names and this content. -/
  | file (names : List Text) (bytes : List Byte)
  /-- There is nothing with these names, but a directory that could hold it. -/
  | vacant (names : List Text)
  deriving DecidableEq, Repr

/-- A path, taken apart. -/
structure Path where
  names : List Text
  /-- Whether it begins at the root and not in the working directory. -/
  absolute : Bool
  /-- Whether it ends in a slash, so that only a directory is meant. -/
  slashed : Bool
  deriving DecidableEq, Repr

namespace Path

/-- The greatest number of bytes of a name. -/
def nameLimit : Nat := 255

/-- The greatest number of bytes of a path. -/
def pathLimit : Nat := 4095

/-- How many bytes a text takes in UTF-8. -/
def utf8Length (s : Text) : Nat := (String.ofList s).utf8ByteSize

/-- A path, taken apart at its slashes. -/
def ofString (s : String) : Except HostError Path :=
  let text := s.toList
  if Char.ofNat 0 ∈ text then .error .zeroInName
  else if text = [] then .error .notFound
  else if pathLimit < utf8Length text then .error .nameTooLong
  else
    .ok
      { names := (Text.pieces '/' text).filter fun name => !name.isEmpty
        absolute := text.head? = some '/'
        slashed := text.getLast? = some '/' }

/-- The path of the directory that the last name stands in. It ends in a name that only a directory
can have. -/
def above (path : Path) : Path := { path with names := path.names.dropLast ++ [['.']] }

end Path

namespace Files

/-- A working directory with nothing in it, on a device that takes everything. -/
def empty : Files := ⟨[], fun _ _ => none⟩

/-- The node with exactly these names. The working directory itself has none. -/
def node? (files : Files) (names : List Text) : Option Node :=
  if names = [] then some .directory else files.nodes.lookup names

/-- The files with one node put in its place. -/
def put (files : Files) (names : List Text) (n : Node) : Files :=
  { files with nodes := (names, n) :: files.nodes.filter fun entry => entry.1 ≠ names }

/-- Follows names from a directory, which is given by its own names, or by `none` if it is outside
of the working directory. -/
def follow (files : Files) : Option (List Text) → List Text → Except HostError Place
  | _, [] => .ok .directory
  | here, name :: names =>
    if name = ['.'] then follow files here names
    else if name = ['.', '.'] then
      match here with
      | some (n :: ns) => follow files (some (n :: ns).dropLast) names
      | _ => follow files none names
    else if Path.nameLimit < Path.utf8Length name then .error .nameTooLong
    else
      match here with
      | none => .error .notFound
      | some above =>
        let there := above ++ [name]
        match files.node? there, names with
        | some .directory, _ => follow files (some there) names
        | some (.file bytes), [] => .ok (.file there bytes)
        | some (.file _), _ :: _ => .error .notDirectory
        | none, [] => .ok (.vacant there)
        | none, _ :: _ => .error .notFound

/-- Where a path leads. -/
def find (files : Files) (path : Path) : Except HostError Place :=
  files.follow (if path.absolute then none else some []) path.names

/-- Opens what a path leads to, for reading. -/
def openNode (files : Files) (path : String) : Except HostError Node := do
  let path ← Path.ofString path
  match ← files.find path with
  | .vacant _ => throw .notFound
  | .directory => return .directory
  | .file _ bytes => if path.slashed then throw .notDirectory else return .file bytes

/-- A reader for what a path leads to. -/
def reader (files : Files) (path : String) : Except HostError Reader := do
  match ← files.openNode path with
  | .file bytes => return .ofBytes bytes
  | .directory => return .broken .isDirectory

/-- The content of a file as text. -/
def readText (files : Files) (path : String) : Except HostError String := do
  match ← files.openNode path with
  | .directory => throw .isDirectory
  | .file bytes =>
    match String.fromUTF8? ⟨bytes.toArray⟩ with
    | some text => return text
    | none => throw .notText

/-- The bytes of a file, if the path leads to one. -/
def bytes? (files : Files) (path : String) : Option (List Byte) :=
  match files.openNode path with
  | .ok (.file bytes) => some bytes
  | _ => none

/-- Gives the device the content of a file that has been opened. The first component says why it
has not taken all of it. -/
def fill (files : Files) (names : List Text) (bytes : List Byte) : Option HostError × Files :=
  match files.refusal names bytes with
  | none => (none, files.put names (.file bytes))
  | some (taken, e) => (some e, files.put names (.file (bytes.take taken)))

/-- Writes some bytes to a file, which is created if there is none, or says why it could not be
opened. What is written is never a directory. A path that ends in a slash means one, so its last
name is not looked at, and may be anything. -/
def write (files : Files) (path : String) (bytes : List Byte) :
    Except HostError (Option HostError × Files) := do
  let path ← Path.ofString path
  match ← files.find (if path.slashed then path.above else path) with
  | .directory => throw .isDirectory
  | .file names _ | .vacant names => return files.fill names bytes

@[simp] theorem node?_put_self (files : Files) {names : List Text} (h : names ≠ []) (n : Node) :
    (files.put names n).node? names = some n := by
  simp [node?, put, h]

end Files

end RegisterMachine
