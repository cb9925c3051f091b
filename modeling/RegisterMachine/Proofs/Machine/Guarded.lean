import RegisterMachine.Machine.Step

/-!
# RegisterMachine.Proofs.Machine.Guarded

A step in which nothing is taken for granted. The definitions of
`RegisterMachine.Machine` are total: a slice is cut off at the end of the memory,
and what is written beyond it is lost. A program on a real computer has no such
indulgence, and is brought down by an index that is not there.

Here every byte that is taken, every range and every copy is checked where it is
used, and a check that fails is a `Crash`. The bounds themselves are computed as
a program computes them, in words and in sums of 64 bits, fetches move `IP` and
raise faults at once, and operands are fetched and evaluated in turn. Neither the
decoder nor `Machine.execute` is used.
-/

namespace RegisterMachine

/-- What brings down a program that accesses memory. -/
inductive Crash
  /-- There is no byte at an index. -/
  | index
  /-- A range is not a range of the memory. -/
  | range
  /-- As many bytes are copied as there are not places for. -/
  | length
  /-- A sum does not fit into 64 bits. -/
  | overflow
  /-- A byte is fetched that is not one of the code. -/
  | foreign
  deriving DecidableEq, Repr

/-- The indices from `start` on, without `stop`. -/
structure Span where
  start : Nat
  stop : Nat
  deriving DecidableEq, Repr

namespace Step

variable {κ : Type}

/-- The step with its machine changed. -/
def onMachine (change : Machine → Machine) (s : Step κ) : Step κ :=
  { s with machine := change s.machine }

/-- The step after something has happened. -/
def emit (e : Event) (s : Step κ) : Step κ := { s with events := s.events ++ [e] }

/-- The step after a fault has been raised. -/
def fault (f : Fault) (s : Step κ) : Step κ :=
  (s.emit (.fault f s.machine.ip)).onMachine fun m => m.raise f

end Step

/-- A part of a step. It goes on from what has happened so far, and may end the instruction
early. Or it crashes. -/
abbrev Task (κ : Type) := OptionT (StateT (Step κ) (Except Crash))

namespace Task

variable {κ : Type}

/-- Brings the program down. -/
def crash {α : Type} (why : Crash) : Task κ α := OptionT.mk fun _ => .error why

/-- Ends the instruction with a fault. -/
def fail {α : Type} (f : Fault) : Task κ α := do
  modify (Step.fault f)
  failure

/-! ### Memory -/

/-- Is this a range of the memory? -/
def InRange (m : Memory) (span : Span) : Prop := span.start ≤ span.stop ∧ span.stop ≤ m.size

instance (m : Memory) (span : Span) : Decidable (InRange m span) :=
  inferInstanceAs (Decidable (_ ∧ _))

/-- The sum of two words, in 64 bits. -/
def sum (a b : Word) : Task κ UInt64 :=
  if a.toNat + b.toNat < 18446744073709551616 then pure (a.toUInt64 + b.toUInt64)
  else crash .overflow

/-- The byte at an index. -/
def byteAt (index : Nat) : Task κ Byte := do
  match (← get).machine.memory.bytes[index]? with
  | some b => pure b
  | none => crash .index

/-- The bytes of a range. -/
def bytesOf (span : Span) : Task κ (List Byte) := do
  let memory := (← get).machine.memory
  if InRange memory span then pure (memory.slice span.start (span.stop - span.start))
  else crash .range

/-- The first bytes of a buffer. -/
def firstOf (count : Nat) (buffer : List Byte) : Task κ (List Byte) :=
  if count ≤ buffer.length then pure (buffer.take count) else crash .range

/-- Copies bytes over those of a range. -/
def copy (span : Span) (bs : List Byte) : Task κ Unit := do
  let memory := (← get).machine.memory
  if InRange memory span then
    if bs.length = span.stop - span.start then
      modify (Step.onMachine fun m => { m with memory := memory.write span.start bs })
    else crash .length
  else crash .range

/-- The word of four bytes. -/
def wordOf (bs : List Byte) : Task κ Word :=
  if bs.length = 4 then pure (Word.ofBytes bs) else crash .length

/-- The range of an access, unless it is not inside the memory. -/
def span? (address count : Word) : Task κ (Option Span) := do
  let size := (← get).machine.memory.size
  if size < address.toNat ∨ size < count.toNat then pure none
  else
    let stop ← sum address count
    if size < stop.toNat then pure none else pure (some ⟨address.toNat, stop.toNat⟩)

/-- The range of an access. One that is not inside the memory ends the instruction with `f`. -/
def reach (f : Fault) (address count : Word) : Task κ Span := do
  match ← span? address count with
  | some span => pure span
  | none => fail f

/-- Loads a word. -/
def load (address : Word) : Task κ Word := do
  wordOf (← bytesOf (← reach .readOutOfBounds address 4))

/-- Stores a word. -/
def store (address value : Word) : Task κ Unit := do
  copy (← reach .writeOutOfBounds address 4) value.toBytes

/-! ### Registers -/

/-- The content of a register. -/
def register (r : Register) : Task κ Word := do
  pure ((← get).machine.get r)

/-- Puts a word into a register. -/
def put (r : Register) (w : Word) : Task κ Unit := modify (Step.onMachine fun m => m.set r w)

/-! ### Fetching -/

/-- Moves `IP` over some bytes of the code, or raises a fault if there are not so many. -/
def eat (count : Word) : Task κ (Option Span) := do
  let ip ← register .ip
  let stop ← sum ip count
  if (← get).machine.memory.codeSize.toUInt64 < stop then
    modify (Step.fault .pointerOutOfBounds)
    pure none
  else
    put .ip stop.toUInt32
    pure (some ⟨ip.toNat, stop.toNat⟩)

/-- Makes sure that a range is one of the code. -/
def ofCode (span : Span) : Task κ Unit := do
  if span.stop ≤ (← get).machine.memory.codeSize.toNat then pure () else crash .foreign

/-- Fetches a byte. -/
def fetchByte : Task κ Byte := do
  match ← eat 1 with
  | some span =>
    ofCode span
    byteAt span.start
  | none => pure 0

/-- Fetches a word. -/
def fetchWord : Task κ Word := do
  match ← eat 4 with
  | some span =>
    ofCode span
    wordOf (← bytesOf span)
  | none => pure 0

/-- Fetches a mode byte. -/
def fetchMode : Task κ Mode := do
  pure ⟨← fetchByte⟩

/-- Fetches the index of a register. -/
def fetchRegister : Task κ Register := do
  match Register.ofByte? (← fetchByte) with
  | some r => pure r
  | none => fail .badInstruction

/-- Fetches a destination that has to be a register. -/
def destination (mode : Mode) : Task κ Register :=
  match mode.dst? with
  | some .register => fetchRegister
  | _ => fail .badInstruction

/-- Fetches an operand and takes its value. -/
def source : Option OperandKind → Task κ Word
  | some .register => do register (← fetchRegister)
  | some .immediate => fetchWord
  | some .memory => do load (← fetchWord)
  | _ => fail .badInstruction

/-- Fetches an operand that may not be in memory and takes its value. -/
def directSource : Option OperandKind → Task κ Word
  | some .memory => fail .badInstruction
  | kind => source kind

/-! ### Instructions -/

/-- Moves a value to a register or into the memory. -/
def mov : Task κ Unit := do
  let mode ← fetchMode
  match mode.dst? with
  | some .register =>
    let dst ← fetchRegister
    let v ← source mode.src?
    put dst (if dst = .rS then v &&& 1 else v)
  | some .memory =>
    let address ← fetchWord
    store address (← directSource mode.src?)
  | _ => fail .badInstruction

/-- Calculates in a register. -/
def arithmetic (op : Arith) : Task κ Unit := do
  let mode ← fetchMode
  let dst ← destination mode
  let v ← source mode.src?
  put dst (op.apply (← register dst) v)

/-- Compares a register with a value. The register is looked at first. -/
def compare : Task κ Unit := do
  let mode ← fetchMode
  let a ← register (← destination mode)
  let b ← source mode.src?
  modify (Step.onMachine fun m => m.compare a b)

/-- Jumps, if the condition holds. -/
def branch (c : Condition) : Task κ Unit := do
  let mode ← fetchMode
  let target ← directSource mode.src?
  modify (Step.onMachine fun m => m.branch c target)

variable [Console κ]

/-- Writes bytes of the memory to a stream. -/
def send (descriptor address count : Word) : Task κ Unit := do
  let bytes ← bytesOf (← reach .readOutOfBounds address count)
  let s ← get
  let (error, console) := Console.write s.console (.ofDescriptor descriptor) bytes
  set (Step.emit (.write descriptor bytes error) { s with console })
  put .r1 count

/-- Has a buffer as long as the range filled, and copies as much of it as the console says that
it has read, or all of it if the console says more. -/
def fill (count : Word) (span : Span) : Task κ Nat := do
  let room := span.stop - span.start
  let s ← get
  let (reply, console) := Console.read s.console room
  let buffer := (reply.bytes ++ List.replicate room 0).take room
  let read := min reply.bytes.length buffer.length
  let bytes ← firstOf read buffer
  set (Step.emit (.read count bytes reply.error) { s with console })
  copy ⟨span.start, span.start + read⟩ bytes
  pure read

/-- Reads bytes from the input into the memory. -/
def receive (descriptor address count : Word) : Task κ Unit := do
  let span ← reach .writeOutOfBounds address count
  if descriptor = 0 then put .r1 (UInt32.ofNat (← fill count span))
  else put .r1 0

/-- Serves the request with the given number and arguments. -/
def request (id descriptor address count : Word) : Task κ Unit :=
  match Syscall.ofId? id with
  | none => fail .badInstruction
  | some .exit => modify (Step.onMachine Machine.halt)
  | some .write => send descriptor address count
  | some .read => receive descriptor address count
  | some .openFile => put .r1 0xFFFFFFFF

/-- Serves the request whose number is in `r1`. -/
def syscall : Task κ Unit := do
  let id ← register .r1
  let descriptor ← register .r2
  let address ← register .r3
  let count ← register .r4
  modify (Step.emit (.syscall id descriptor address count))
  request id descriptor address count

/-- Carries out the instruction with the given first byte. -/
def execute (opcode : Byte) : Task κ Unit :=
  match Opcode.ofByte? opcode with
  | none => fail .badInstruction
  | some .nop => pure ()
  | some .mov => mov
  | some (.arith op) => arithmetic op
  | some .cmp => compare
  | some (.branch c) => branch c
  | some .syscall => syscall

/-- Fetches an instruction, carries it out as far as that goes, and records it. -/
def step : Task κ Unit := do
  let ip ← register .ip
  let opcode ← fetchByte
  execute opcode <|> pure ()
  let s ← get
  if s.machine.tracing then
    let record := TraceRecord.ofMachine s.machine ip opcode
    set (Step.emit (.trace record) { s with console := Console.trace s.console record })

end Task

/-- One step, unless the machine has halted, in which every access is checked. -/
def Machine.guardedStep? {κ : Type} [Console κ] (m : Machine) (c : κ) :
    Except Crash (Option (Step κ)) :=
  match m.status with
  | .halted => .ok none
  | .running =>
    if m.memory.codeSize ≤ m.ip then .ok (some (Step.fault .pointerOutOfBounds ⟨m, c, []⟩))
    else do
      let (_, s) ← Task.step.run.run ⟨m, c, []⟩
      pure (some s)

end RegisterMachine
