import RegisterMachine.Isa.Instruction
import RegisterMachine.Machine.Memory

/-!
# RegisterMachine.Machine.Decoder

Reading an instruction from the code, field by field. Decoding changes nothing
but a **cursor**: the address of the next byte, and a list of the fetches that
were refused because they would have run past the code.

A refused fetch does not end the instruction. It leaves the address where it is
and reads as zero, so the fields that follow are decoded from the same place. A
field with a value that stands for nothing does end it: there is then no
instruction, and the cursor stands behind the field.

Because all fields are fetched before anything is carried out, `Memory.decode`
is a function of the code and the address alone.
-/

namespace RegisterMachine

/-- How far decoding has come. -/
structure Cursor where
  /-- The address of the next byte to be fetched. -/
  ip : Word
  /-- For each fetch that was refused, the address of the cursor at that time, in order. -/
  refused : List Word
  deriving DecidableEq, Repr

/-- A part of decoding, which may find that there is no instruction. -/
abbrev Decoder (α : Type) := OptionT (StateM Cursor) α

namespace Memory

/-- The number in the next `count` bytes of the code, or zero if there are not so many. -/
def fetch (m : Memory) (count : Nat) : StateM Cursor Nat := fun cursor =>
  if cursor.ip.toNat + count ≤ m.codeSize.toNat then
    (Word.fromLittleEndian (m.slice cursor.ip.toNat count),
      { cursor with ip := cursor.ip + UInt32.ofNat count })
  else (0, { cursor with refused := cursor.refused ++ [cursor.ip] })

/-- Fetches a byte. -/
def fetchByte (m : Memory) : Decoder Byte := OptionT.lift (UInt8.ofNat <$> m.fetch 1)

/-- Fetches a word. -/
def fetchWord (m : Memory) : Decoder Word := OptionT.lift (UInt32.ofNat <$> m.fetch 4)

/-- Fetches a mode byte. -/
def fetchMode (m : Memory) : Decoder Mode := Mode.mk <$> m.fetchByte

/-- Fetches the index of a register. -/
def fetchRegister (m : Memory) : Decoder Register := do
  match Register.ofByte? (← m.fetchByte) with
  | some r => return r
  | none => failure

/-- Fetches an operand that the mode says is of this kind. -/
def fetchOperand (m : Memory) : Option OperandKind → Decoder (Operand Word)
  | some .register => .register <$> m.fetchRegister
  | some .immediate => .immediate <$> m.fetchWord
  | some .memory => .memory <$> m.fetchWord
  | _ => failure

/-- Fetches an operand that may not be in memory. -/
def fetchDirect (m : Memory) : Option OperandKind → Decoder (Direct Word)
  | some .register => .register <$> m.fetchRegister
  | some .immediate => .immediate <$> m.fetchWord
  | _ => failure

/-- Fetches a destination that has to be a register. -/
def fetchDestination (m : Memory) : Option OperandKind → Decoder Register
  | some .register => m.fetchRegister
  | _ => failure

/-- Fetches what follows the first byte of an instruction. The destination of a branch is not
looked at. -/
def fetchFields (m : Memory) : Opcode → Decoder (Instruction Word)
  | .nop => return .nop
  | .syscall => return .syscall
  | .mov => do
    let mode ← m.fetchMode
    match mode.dst? with
    | some .register =>
      let dst ← m.fetchRegister
      return .move dst (← m.fetchOperand mode.src?)
    | some .memory =>
      let address ← m.fetchWord
      return .store address (← m.fetchDirect mode.src?)
    | _ => failure
  | .arith op => do
    let mode ← m.fetchMode
    let dst ← m.fetchDestination mode.dst?
    return .arith op dst (← m.fetchOperand mode.src?)
  | .cmp => do
    let mode ← m.fetchMode
    let left ← m.fetchDestination mode.dst?
    return .cmp left (← m.fetchOperand mode.src?)
  | .branch c => do
    let mode ← m.fetchMode
    return .branch c (← m.fetchDirect mode.src?)

/-- Fetches a whole instruction after its first byte. -/
def fetchInstruction (m : Memory) (opcode : Byte) : Decoder (Instruction Word) :=
  match Opcode.ofByte? opcode with
  | some op => m.fetchFields op
  | none => failure

end Memory

/-- What stands at an address of the code. -/
structure Decoded where
  /-- The first byte, whether it is an operation or not. -/
  opcode : Byte
  /-- The instruction, if there is one. -/
  instruction? : Option (Instruction Word)
  /-- Where decoding has come to. -/
  cursor : Cursor
  deriving DecidableEq, Repr

/-- Decodes what stands at an address. -/
def Memory.decode (m : Memory) (ip : Word) : Decoded :=
  let (opcode, cursor) := m.fetch 1 ⟨ip, []⟩
  let opcode := UInt8.ofNat opcode
  let (instruction?, cursor) := (m.fetchInstruction opcode).run cursor
  { opcode, instruction?, cursor }

end RegisterMachine
