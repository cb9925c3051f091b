import RegisterMachine.Host.Error
import RegisterMachine.Isa.Syscall
import RegisterMachine.Machine.Trace

/-!
# RegisterMachine.Host.Console

What the machine sees of the outside: it writes to a stream, reads from the
standard input, and hands over trace records. A console is a state with these
three operations, each of which gives the next state.

Nothing is assumed of the operations. A write may fail; a read may give fewer
bytes than were asked for, and if it gives more, the machine takes only as many
as it asked for.
-/

namespace RegisterMachine

/-- The answer to a read. -/
structure Reply where
  bytes : List Byte
  /-- Why the input ended, if the host has failed to read. -/
  error : Option HostError
  deriving DecidableEq, Repr

/-- The states of a console. -/
class Console (κ : Type) where
  /-- Writes bytes to a stream. The first component says why that failed, if it did. -/
  write : κ → Stream → List Byte → Option HostError × κ
  /-- Reads at most the given number of bytes, and fewer only at the end of the input. -/
  read : κ → Nat → Reply × κ
  /-- Takes a trace record. -/
  trace : κ → TraceRecord → κ

end RegisterMachine
