import RegisterMachine.Isa.Instruction
import RegisterMachine.Isa.Syscall
import RegisterMachine.Machine.Basic

/-!
# RegisterMachine.Machine.Execution

Carrying out an instruction that has been decoded, on a machine whose `IP` is
already behind it.

An instruction that faults has no result at all: `Machine.execute` gives either
a `Fault` or an `Outcome`, so nothing is committed before the last check. An
outcome is a finished machine, or a request to the host together with what
becomes of the machine when the host has answered. A write's answer does not
reach the machine; of a read's answer it takes the bytes.
-/

namespace RegisterMachine

/-- What carrying out an instruction comes to. -/
inductive Outcome
  /-- The machine after the instruction. -/
  | done (m : Machine)
  /-- The host is given some bytes. `m` is the machine after the instruction. -/
  | write (descriptor : Word) (bytes : List Byte) (m : Machine)
  /-- The host is asked for at most `count` bytes, which `m` receives at `address`. -/
  | read (address count : Word) (m : Machine)

/-- Does the condition of a branch hold? -/
def Condition.holds (flags : Flags) : Condition → Bool
  | always => true
  | equal => flags.has .equal
  | notEqual => !flags.has .equal
  | larger => flags.has .greater
  | lessOrEqual => flags.has .less || flags.has .equal

/-- The result of an operation of arithmetic, modulo `2 ^ 32`. -/
def Arith.apply : Arith → Word → Word → Word
  | add, a, b => a + b
  | sub, a, b => a - b
  | xor, a, b => a ^^^ b

/-- The flag that says how two words compare, as signed or as unsigned numbers. -/
def comparisonFlag (signed : Bool) (a b : Word) : Flag :=
  if a = b then .equal
  else if (if signed then a.toInt32 < b.toInt32 else a < b) then .less
  else .greater

/-- The value of the left operand of a comparison, in terms of the registers before the
instruction. It is taken as soon as its byte has been fetched, so `IP` is then three bytes into
the instruction, and a fault of a later fetch is not yet among the flags. -/
def Registers.leftValue (rs : Registers) (r : Register) : Word :=
  if r = .ip then rs.get .ip + 3 else rs.get r

namespace Machine

/-- The value of a direct operand. -/
def value (m : Machine) : Direct Word → Word
  | .register r => m.get r
  | .immediate v => v

/-- The value of an operand, unless it is in memory at an address that is not inside. -/
def value? (m : Machine) : Operand Word → Option Word
  | .register r => some (m.get r)
  | .immediate v => some v
  | .memory address => m.memory.load? address

/-- The machine after a value has been moved into a register. Of what is moved into `rS` only
bit 0 is kept. -/
def move (m : Machine) (dst : Register) (v : Word) : Machine :=
  m.set dst (if dst = .rS then v &&& 1 else v)

/-- The machine after two words have been compared. -/
def compare (m : Machine) (a b : Word) : Machine :=
  m.withFlags ((m.flags.remove .comparison).insert (.ofFlag (comparisonFlag m.signed a b)))

/-- The machine after a branch. -/
def branch (m : Machine) (c : Condition) (target : Word) : Machine :=
  if c.holds m.flags then (m.withFlags (m.flags.insert (.ofFlag .test))).set .ip target
  else m.withFlags (m.flags.remove (.ofFlag .test))

/-- The machine after a read has been answered with some bytes. -/
def receive (m : Machine) (address : Word) (bytes : List Byte) : Machine :=
  { m with memory := m.memory.write address.toNat bytes }.set .r1 (UInt32.ofNat bytes.length)

/-- Serves the request whose number is in `r1`. -/
def request (m : Machine) : Except Fault Outcome :=
  let descriptor := m.get .r2
  let address := m.get .r3
  let count := m.get .r4
  match Syscall.ofId? (m.get .r1) with
  | none => .error .badInstruction
  | some .exit => .ok (.done m.halt)
  | some .write =>
    if m.memory.Inside address.toNat count.toNat then
      .ok (.write descriptor (m.memory.slice address.toNat count.toNat) (m.set .r1 count))
    else .error .readOutOfBounds
  | some .read =>
    if m.memory.Inside address.toNat count.toNat then
      if descriptor = 0 then .ok (.read address count m) else .ok (.done (m.set .r1 0))
    else .error .writeOutOfBounds
  | some .openFile => .ok (.done (m.set .r1 0xFFFFFFFF))

/-- Carries out an instruction. `left` gives the left operand of a comparison. -/
def execute (m : Machine) (left : Register → Word) :
    Instruction Word → Except Fault Outcome
  | .nop => .ok (.done m)
  | .syscall => m.request
  | .move dst src =>
    match m.value? src with
    | some v => .ok (.done (m.move dst v))
    | none => .error .readOutOfBounds
  | .store address src =>
    match m.memory.store? address (m.value src) with
    | some memory => .ok (.done { m with memory })
    | none => .error .writeOutOfBounds
  | .arith op dst src =>
    match m.value? src with
    | some v => .ok (.done (m.set dst (op.apply (m.get dst) v)))
    | none => .error .readOutOfBounds
  | .cmp r right =>
    match m.value? right with
    | some v => .ok (.done (m.compare (left r) v))
    | none => .error .readOutOfBounds
  | .branch c target => .ok (.done (m.branch c (m.value target)))

end Machine

end RegisterMachine
