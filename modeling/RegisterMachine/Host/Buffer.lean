import RegisterMachine.Host.Console

/-!
# RegisterMachine.Host.Buffer

A console in memory: its input is given beforehand, and what is written to it is
kept. It never fails.
-/

namespace RegisterMachine

/-- A console with a given input that keeps all output. -/
structure Buffer where
  /-- What is left of the input. -/
  input : List Byte
  stdout : Array Byte
  stderr : Array Byte
  traces : Array TraceRecord

namespace Buffer

/-- A console with some input, to which nothing has been written. -/
def ofInput (input : List Byte) : Buffer := ⟨input, #[], #[], #[]⟩

/-- The console with more input at the end. -/
def feed (b : Buffer) (bytes : List Byte) : Buffer := { b with input := b.input ++ bytes }

instance : Console Buffer where
  write b stream bytes :=
    match stream with
    | .stdout => (none, { b with stdout := b.stdout.appendList bytes })
    | .stderr => (none, { b with stderr := b.stderr.appendList bytes })
  read b count := (⟨b.input.take count, none⟩, { b with input := b.input.drop count })
  trace b record := { b with traces := b.traces.push record }

end Buffer

end RegisterMachine
