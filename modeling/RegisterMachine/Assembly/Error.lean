import RegisterMachine.Isa.Opcode

/-!
# RegisterMachine.Assembly.Error

Why a program's text cannot be assembled: a cause, and the number of the line
where it was found. The wording of every cause is in one place,
`Cause.message`.
-/

namespace RegisterMachine

/-- What is wrong with a line. -/
inductive Cause
  | outsideSection
  | emptyLabel
  | duplicateLabel (label : Text)
  /-- The mnemonic is given as it was written. -/
  | unknownOpcode (mnemonic : Text)
  | operandCount (op : Opcode) (expected found : Nat)
  | branchToMemory
  /-- The left operand of a comparison is no register. -/
  | compareLeft
  | moveDestination
  | moveMemoryToMemory
  | arithDestination (op : Arith)
  | notADeclaration
  | malformedDeclaration
  | missingName
  | invalidSize (size : Text)
  | duplicateBuffer (name : Text)
  | dataTooLarge
  | codeTooLarge
  | unknownSymbol (symbol : Text)
  deriving DecidableEq, Repr

/-- The first thing that is wrong with a text. -/
structure AssemblyError where
  /-- The number of the line, from one. -/
  line : Nat
  cause : Cause
  deriving DecidableEq, Repr

namespace Cause

/-- A text between quotes. -/
def quoted (s : Text) : String := "'" ++ String.ofList s ++ "'"

/-- The cause in words. -/
def message : Cause → String
  | outsideSection => "content outside of any section"
  | emptyLabel => "empty label"
  | duplicateLabel label => "duplicate label " ++ quoted label
  | unknownOpcode mnemonic => "unknown opcode " ++ quoted mnemonic
  | operandCount op expected found =>
    String.ofList op.mnemonic ++ " takes " ++ toString expected ++ " operand(s), found " ++
      toString found
  | branchToMemory => "branch target cannot be [mem]"
  | compareLeft => "cmp lhs must be a register"
  | moveDestination => "mov dst must be a register or [mem]"
  | moveMemoryToMemory => "mov [mem], [mem] is not allowed"
  | arithDestination op => String.ofList (Opcode.arith op).mnemonic ++ " dst must be a register"
  | notADeclaration => "only DB declarations are allowed in _data"
  | malformedDeclaration => "malformed DB declaration"
  | missingName => "DB declaration is missing a name"
  | invalidSize size => "DB size must be a number, found " ++ quoted size
  | duplicateBuffer name => "duplicate DB name " ++ quoted name
  | dataTooLarge => "data section exceeds 4 GiB"
  | codeTooLarge => "code section exceeds 4 GiB"
  | unknownSymbol symbol => "unknown symbol " ++ quoted symbol

end Cause

/-- The error in words, with its line. -/
def AssemblyError.message (e : AssemblyError) : String :=
  e.cause.message ++ " at line " ++ toString e.line

end RegisterMachine
