import RegisterMachine.CommandLine

/-!
# RegisterMachine.Main

The command line, on the files and the streams of the process. What a command
does and says is defined in `RegisterMachine.Command.Execution`; here it is carried
out. The process has its own words for a line that could not be printed.
Since a program may run forever, the loop that steps the machine has no bound.
-/

namespace RegisterMachine.Main

/-- A refusal by the host, in the terms of the library. -/
def hostError : IO.Error → HostError
  | .noFileOrDirectory .. => .notFound
  | .inappropriateType _ code details =>
    if code = 20 then .notDirectory else if code = 21 then .isDirectory else .other details
  | .resourceExhausted _ code details => if code = 28 then .noSpace else .other details
  | e => .other (toString e)

/-- Does something that the host may refuse. -/
def attempt {α : Type} (action : IO α) : IO (Except HostError α) := do
  try
    return .ok (← action)
  catch e =>
    return .error (hostError e)

/-- Shows the warnings among some log records. -/
def showWarnings (records : List Log.Record) : IO Unit := do
  for r in records do
    if r.level = .warn then IO.eprintln r.line

/-- The content of a file as text. -/
def readText (path : String) : IO (Except HostError String) := do
  match ← attempt (IO.FS.readBinFile path) with
  | .error e => return .error e
  | .ok bytes =>
    match String.fromUTF8? bytes with
    | some text => return .ok text
    | none => return .error .notText

/-- A reader for a file. Once it has been opened, a failure is one of the reader. -/
def openReader (path : String) : IO (Except HostError Reader) := do
  match ← attempt (IO.FS.Handle.mk path .read) with
  | .error e => return .error e
  | .ok handle =>
    match ← attempt handle.readBinToEnd with
    | .error e => return .ok (.broken e)
    | .ok bytes => return .ok (.ofBytes bytes.data.toList)

/-- Writes an image to a file. -/
def writeImage (path : String) (image : Image) : IO (Except ImageError Unit) := do
  match ← attempt (IO.FS.Handle.mk path .write) with
  | .error e => return .error (.file path e)
  | .ok handle =>
    let written ← attempt do
      handle.write ⟨image.encode.toArray⟩
      handle.flush
    match written with
    | .error e => return .error (.write e)
    | .ok () => return .ok ()

/-- Writes bytes to one of the streams of the process. -/
def writeBytes (stream : Stream) (bytes : List Byte) : IO (Except HostError Unit) := do
  let handle ←
    match stream with
    | .stdout => IO.getStdout
    | .stderr => IO.getStderr
  attempt do
    handle.write ⟨bytes.toArray⟩
    handle.flush

/-- Reads bytes from the standard input, after those that have been read already. -/
partial def readBytes (count : Nat) (start : List Byte) : IO Reply := do
  if count = 0 then return ⟨start, none⟩
  match ← attempt do (← IO.getStdin).read (USize.ofNat count) with
  | .error e => return ⟨start, some e⟩
  | .ok chunk =>
    if chunk.isEmpty then return ⟨start, none⟩
    readBytes (count - chunk.size) (start ++ chunk.data.toList)

/-- Lets the streams of the process answer the request of an instruction. -/
def serve : Outcome → IO (Machine × List Event)
  | .done m => return (m, [])
  | .write descriptor bytes m => do
    match ← writeBytes (.ofDescriptor descriptor) bytes with
    | .ok () => return (m, [.write descriptor bytes none])
    | .error e => return (m, [.write descriptor bytes (some e)])
  | .read address count m => do
    let reply ← readBytes count.toNat []
    return (m.receive address reply.bytes, [.read count reply.bytes reply.error])

/-- Runs a machine until it has halted. A trace line that cannot be printed ends the run. -/
partial def drive (m : Machine) : IO (Except HostError Machine) := do
  match m.turn? with
  | none => return .ok m
  | some turn =>
    let (after, events) ← serve turn.outcome
    showWarnings ((turn.events ++ events).filterMap Event.log?)
    match turn.record? after with
    | none => drive after
    | some record =>
      match ← writeBytes .stdout (Terminal.lineBytes (String.ofList record.render)) with
      | .ok () => drive after
      | .error e => return .error e

/-- Says why a command could not do its work. -/
def fail (reason : String) : IO UInt32 := do
  IO.eprintln reason
  return 1

/-- The exit status of a command whose last line was printed or not. -/
def finish : Except HostError Unit → IO UInt32
  | .ok () => return 0
  | .error e => do
    IO.eprintln ("failed printing to stdout: " ++ e.message)
    return 101

/-- Assembles a program into an image. -/
def assembleFile (input output : String) : IO UInt32 := do
  let content ← readText input
  showWarnings (contentLog input content)
  match assembleContent input content with
  | .error e => fail ("Assembly failed: " ++ e.message)
  | .ok image =>
    match ← writeImage output image with
    | .error e => fail ("Save failed: " ++ e.message)
    | .ok () => finish (← writeBytes .stdout (Terminal.lineBytes image.summary))

/-- Runs an image. -/
def runFile (program : String) (traced : Bool) : IO UInt32 := do
  match Image.ofContent program (← openReader program) with
  | .error e => fail ("Load failed: " ++ e.message)
  | .ok image =>
    match ← drive ((Machine.ofImage image).withTracing traced) with
    | .error e => finish (.error e)
    | .ok m =>
      showWarnings m.faultLog
      return 0

end RegisterMachine.Main

open RegisterMachine in
/-- The command line. -/
def main (arguments : List String) : IO UInt32 := do
  match CommandLine.ofArguments? arguments with
  | none =>
    IO.eprintln CommandLine.helpText
    return 2
  | some .version =>
    IO.println CommandLine.versionText
    return 0
  | some .help =>
    IO.println CommandLine.helpText
    return 0
  | some (.command (.assemble input output)) => Main.assembleFile input output
  | some (.command (.run program traced)) => Main.runFile program traced
