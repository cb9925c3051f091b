import RegisterMachine.Assembly.Error
import RegisterMachine.Isa.Instruction
import RegisterMachine.Text.Pieces

/-!
# RegisterMachine.Source.Instruction

Reading one instruction. The mnemonic ends at the first space or tab; what
follows it is a list of operands, separated by commas, of which one at the very
end may be superfluous. An operand is a register's name, something in square
brackets, or else a number or a symbol, which are not told apart here.

An error is the first of three that applies: the mnemonic is unknown, the number
of operands is not what the operation takes, or their kinds are not.
-/

namespace RegisterMachine

namespace Operand

/-- The operand that a text writes. -/
def ofText (s : Text) : Operand Text :=
  let s := Text.trim s
  match Register.ofName? s with
  | some r => .register r
  | none =>
    match s with
    | '[' :: rest =>
      match Text.stripEnd? ']' rest with
      | some address => .memory (Text.trim address)
      | none => .immediate s
    | _ => .immediate s

/-- The operands that are listed after a mnemonic. -/
def listOfText (s : Text) : List (Operand Text) :=
  if s = [] then []
  else (Text.pieces ',' ((Text.stripEnd? ',' s).getD s)).map ofText

end Operand

namespace Instruction

/-- Does the character end a mnemonic? -/
def endsMnemonic (c : Char) : Bool := c == ' ' || c == '\t'

/-- The mnemonic and the trimmed rest of a line. -/
def splitMnemonic (s : Text) : Text × Text :=
  match Text.cut? endsMnemonic s with
  | some (mnemonic, rest) => (mnemonic, Text.trim rest)
  | none => (s, [])

variable {α : Type}

/-- The instruction with this operation and these operands, if it is legal. -/
def ofOperands (op : Opcode) (operands : List (Operand α)) : Except Cause (Instruction α) :=
  match op, operands with
  | .nop, [] => .ok .nop
  | .syscall, [] => .ok .syscall
  | .branch c, [target] =>
    match target.direct? with
    | some t => .ok (.branch c t)
    | none => .error .branchToMemory
  | .cmp, [.register left, right] => .ok (.cmp left right)
  | .cmp, [_, _] => .error .compareLeft
  | .mov, [.register dst, src] => .ok (.move dst src)
  | .mov, [.memory address, src] =>
    match src.direct? with
    | some s => .ok (.store address s)
    | none => .error .moveMemoryToMemory
  | .mov, [.immediate _, _] => .error .moveDestination
  | .arith a, [.register dst, src] => .ok (.arith a dst src)
  | .arith a, [_, _] => .error (.arithDestination a)
  | op, operands =>
    let expected := if op.isBare then 0 else if op.isBranch then 1 else 2
    .error (.operandCount op expected operands.length)

/-- The instruction that a line writes. -/
def ofText (s : Text) : Except Cause (Instruction Text) :=
  let (mnemonic, rest) := splitMnemonic s
  match Opcode.ofMnemonic? mnemonic with
  | none => .error (.unknownOpcode mnemonic)
  | some op => ofOperands op (Operand.listOfText rest)

/-! ### Legal operands -/

/-- An instruction is read off its own operation and operands. -/
@[simp] theorem ofOperands_operands (i : Instruction α) :
    ofOperands i.opcode i.operands = .ok i := by
  cases i with
  | branch c target => simp [opcode, operands, ofOperands]
  | store address src => simp [opcode, operands, ofOperands]
  | _ => rfl

end Instruction

end RegisterMachine
