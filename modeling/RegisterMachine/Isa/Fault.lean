import RegisterMachine.Isa.Flags

/-!
# RegisterMachine.Isa.Fault

Why the machine stops when it cannot go on. A fault is never an error of the
program that runs the machine: it sets its flag in `rF` and halts the machine.
-/

namespace RegisterMachine

/-- The four causes for which the machine stops. -/
inductive Fault
  /-- The bytes do not form an instruction, or a request to the host is unknown. -/
  | badInstruction
  /-- The instruction pointer, or a fetch, left the code. -/
  | pointerOutOfBounds
  /-- A load, or the text of a write request, left the memory. -/
  | readOutOfBounds
  /-- A store, or the buffer of a read request, left the memory. -/
  | writeOutOfBounds
  deriving DecidableEq, Repr, Inhabited

namespace Fault

/-- The flag that the fault sets. -/
def flag : Fault → Flag
  | badInstruction => .bad
  | pointerOutOfBounds => .pointer
  | readOutOfBounds => .read
  | writeOutOfBounds => .write

/-- The fault in words. -/
def message : Fault → String
  | badInstruction => "bad instruction"
  | pointerOutOfBounds => "instruction pointer out of bounds"
  | readOutOfBounds => "read out of bounds"
  | writeOutOfBounds => "write out of bounds"

end Fault

end RegisterMachine
