import RegisterMachine.Host.Console
import RegisterMachine.Host.Output
import RegisterMachine.Host.Reader
import RegisterMachine.Log

/-!
# RegisterMachine.Host.Terminal

The console of a command: its standard input, which may fail, its standard
output, which may be refused, and its standard error. Trace records are lines of
the standard output, and warnings are lines of the standard error, each in its
place between the bytes that a program writes.

A line that the command itself prints on the standard output, which a trace line
is, ends the command if it cannot be written. What the host says then is its own
matter; the terminal only knows it (`Terminal.report`).
-/

namespace RegisterMachine

/-- The console of a command. -/
structure Terminal where
  stdin : Reader
  stdout : Output
  stderr : Array Byte
  /-- Whether warnings are shown. -/
  warns : Bool
  /-- What the host writes to the standard error when it ends a command of which a line could not
  be printed. -/
  report : HostError → List Byte
  /-- Why the command has been ended, if it has. -/
  ended : Option HostError

namespace Terminal

/-- A terminal that nothing has been written to. -/
def start (stdin : Reader) (refuses : Nat → Bool) (warns : Bool)
    (report : HostError → List Byte) : Terminal where
  stdin := stdin
  stdout := .start refuses
  stderr := #[]
  warns := warns
  report := report
  ended := none

/-- Writes bytes to the standard output. A write that is refused finds the device full. -/
def writeOut (t : Terminal) (bytes : List Byte) : Option HostError × Terminal :=
  let (success, stdout) := t.stdout.write bytes
  (if success then none else some .noSpace, { t with stdout })

/-- Writes bytes to the standard error. -/
def writeError (t : Terminal) (bytes : List Byte) : Terminal :=
  { t with stderr := t.stderr.appendList bytes }

/-- The bytes of a line. -/
def lineBytes (s : String) : List Byte := s.toUTF8.data.toList ++ [Output.lineFeed]

/-- Prints a line on the standard error. -/
def complain (t : Terminal) (s : String) : Terminal := t.writeError (lineBytes s)

/-- Prints a line on the standard output, without which the command cannot go on. -/
def print (t : Terminal) (s : String) : Terminal :=
  let (error, t) := t.writeOut (lineBytes s)
  match error with
  | none => t
  | some e => { t with ended := some e }

/-- Shows a log record, if it is a warning and warnings are shown. -/
def log (t : Terminal) (r : Log.Record) : Terminal :=
  if t.warns ∧ r.level = .warn then t.complain r.line else t

/-- Shows some log records, in order. -/
def logAll (t : Terminal) (rs : List Log.Record) : Terminal := rs.foldl log t

/-- Reads at most `count` bytes. A failure is the end of the input. -/
def readIn (t : Terminal) (count : Nat) : Reply × Terminal :=
  let (filling, stdin) := t.stdin.fill count
  let error :=
    match filling.stop with
    | .failed e => some e
    | .full => none
    | .ended => none
  (⟨filling.bytes, error⟩, { t with stdin })

/-- Gives the device what is left in the buffer of the standard output, as far as it takes it. -/
def close (t : Terminal) : Terminal := { t with stdout := t.stdout.flush.2 }

instance : Console Terminal where
  write t stream bytes :=
    match stream with
    | .stdout => t.writeOut bytes
    | .stderr => (none, t.writeError bytes)
  read := readIn
  trace t record := t.print (String.ofList record.render)

end Terminal

end RegisterMachine
