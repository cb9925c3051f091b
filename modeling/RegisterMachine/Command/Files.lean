import RegisterMachine.Assembly.Basic
import RegisterMachine.Host.Files
import RegisterMachine.Image.Format

/-!
# RegisterMachine.Command.Files

Programs and images in files: assembling a file, saving an image and loading it
again. A failure says what could not be done to which path; the rest of the text
is that of the cause.
-/

namespace RegisterMachine

/-- Why a file could not be assembled. -/
inductive SourceError
  | file (path : String) (e : HostError)
  | assembly (e : AssemblyError)
  deriving DecidableEq, Repr

/-- Why an image could not be saved or loaded. -/
inductive ImageError
  | file (path : String) (e : HostError)
  /-- The file could be opened, but not all bytes could be written. -/
  | write (e : HostError)
  | format (e : FormatError)
  deriving DecidableEq, Repr

/-- The error in words. -/
def SourceError.message : SourceError → String
  | file path e => "cannot open source file " ++ path ++ ": " ++ e.message
  | assembly e => e.message

/-- The error in words. -/
def ImageError.message : ImageError → String
  | file path e => "cannot open " ++ path ++ ": " ++ e.message
  | write e => "cannot write module: " ++ e.message
  | format e => e.message

/-- Assembles the content of a file, if it could be read. -/
def assembleContent (path : String) : Except HostError String → Except SourceError Image
  | .error e => .error (.file path e)
  | .ok source =>
    match assemble source with
    | .error e => .error (.assembly e)
    | .ok image => .ok image

/-- What is logged while the content of a file is assembled. -/
def contentLog (path : String) : Except HostError String → List Log.Record
  | .error _ => []
  | .ok source =>
    { level := .debug, target := "bytecraft::assembler", message := "assembling"
      fields := [("path", path)] } :: assemblyLog source

/-- Decodes the image in a file, if it could be opened. -/
def Image.ofContent (path : String) : Except HostError Reader → Except ImageError Image
  | .error e => .error (.file path e)
  | .ok reader =>
    match Image.decode reader with
    | .error e => .error (.format e)
    | .ok image => .ok image

/-- What is logged of an image that has been saved or loaded, as the message says. -/
def Image.fileLog (image : Image) (message path : String) : Log.Record :=
  { level := .debug, target := "bytecraft::bvm", message
    fields :=
      [("path", path), ("code", toString image.code.length),
        ("data", toString image.data.length)] }

namespace Files

/-- Assembles the program in a file. -/
def assemble (files : Files) (path : String) : Except SourceError Image :=
  assembleContent path (files.readText path)

/-- What is logged while the program in a file is assembled. -/
def assembleLog (files : Files) (path : String) : List Log.Record :=
  contentLog path (files.readText path)

/-- Saves an image. The first component says why that failed, if it did. -/
def save (files : Files) (path : String) (image : Image) : Option ImageError × Files :=
  match files.write path image.encode with
  | .error e => (some (.file path e), files)
  | .ok (error, files) => (error.map .write, files)

/-- The image in a file. -/
def load (files : Files) (path : String) : Except ImageError Image :=
  Image.ofContent path (files.reader path)

end Files

end RegisterMachine
