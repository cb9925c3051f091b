import RegisterMachine.Text.Hex

/-!
# RegisterMachine.Isa.Opcode

The twelve operations. They fall into families that share a rule: three
operations of arithmetic, which read a source and change a register, and five
branches, which differ only in their condition. The families are types of their
own (`Arith`, `Condition`), so a definition over operations has one case for
each family.

An operation is written as a byte in code and as a mnemonic in a text, and both
tables are one-to-one.
-/

namespace RegisterMachine

/-- An operation of arithmetic: `d ← d + s`, `d ← d − s` or `d ← d xor s`. -/
inductive Arith
  | add
  | sub
  | xor
  deriving DecidableEq, Repr, Inhabited

/-- When a branch is taken, in terms of the outcome of the last comparison. -/
inductive Condition
  /-- Without any condition. -/
  | always
  | equal
  | notEqual
  | larger
  | lessOrEqual
  deriving DecidableEq, Repr, Inhabited

/-- The operation of an instruction. -/
inductive Opcode
  /-- Nothing. -/
  | nop
  /-- `d ← s`, into a register or into memory. -/
  | mov
  /-- `d ← d op s`, into a register. -/
  | arith (op : Arith)
  /-- Compares a register with a source and records the outcome in the flags. -/
  | cmp
  /-- `IP ← t` if the condition holds. -/
  | branch (condition : Condition)
  /-- A request to the host, whose number is in `r1`. -/
  | syscall
  deriving DecidableEq, Repr, Inhabited

namespace Opcode

/-- Every operation, in the order of the bytes. -/
def all : List Opcode :=
  [nop, mov, arith .add, arith .sub, arith .xor, cmp, branch .always, branch .equal,
    branch .notEqual, branch .larger, branch .lessOrEqual, syscall]

/-- The byte with which an instruction begins. -/
def toByte : Opcode → UInt8
  | nop => 0
  | mov => 1
  | arith .add => 2
  | arith .sub => 3
  | arith .xor => 4
  | cmp => 5
  | branch .always => 6
  | branch .equal => 7
  | branch .notEqual => 8
  | branch .larger => 9
  | branch .lessOrEqual => 10
  | syscall => 11

/-- The operation that a byte stands for. -/
def ofByte? (b : UInt8) : Option Opcode := all.find? fun op => op.toByte == b

/-- The word with which an instruction begins in a text. -/
def mnemonic : Opcode → Text
  | nop => ['n', 'o', 'p']
  | mov => ['m', 'o', 'v']
  | arith .add => ['a', 'd', 'd']
  | arith .sub => ['s', 'u', 'b']
  | arith .xor => ['x', 'o', 'r']
  | cmp => ['c', 'm', 'p']
  | branch .always => ['j', 'm', 'p']
  | branch .equal => ['j', 'e', 'q']
  | branch .notEqual => ['j', 'n', 'e', 'q']
  | branch .larger => ['j', 'l', 'a']
  | branch .lessOrEqual => ['j', 'l', 'e']
  | syscall => ['s', 'y', 's', 'c', 'a', 'l', 'l']

/-- The operation that a mnemonic names, whatever the case of its letters. -/
def ofMnemonic? (s : Text) : Option Opcode := all.find? fun op => op.mnemonic == Text.lower s

/-- Branches have a source and no destination. -/
def isBranch : Opcode → Bool
  | branch _ => true
  | _ => false

/-- A bare operation is a single byte, without a mode and operands. -/
def isBare : Opcode → Bool
  | nop => true
  | syscall => true
  | _ => false

/-- What is said of a byte that stands for no operation. -/
def unknownMessage (b : UInt8) : String :=
  "unknown opcode byte 0x" ++ String.ofList (Text.hexDigits Text.lowerDigit 2 b.toNat)

/-! ### Tables -/

theorem mem_all (op : Opcode) : op ∈ all := by
  cases op with
  | arith op => cases op <;> decide
  | branch c => cases c <;> decide
  | _ => decide

/-- What holds of the twelve holds of every operation. -/
theorem forall_of_forall_mem {p : Opcode → Prop} (h : ∀ op ∈ all, p op) (op : Opcode) : p op :=
  h op (mem_all op)

@[simp] theorem ofByte?_toByte (op : Opcode) : ofByte? op.toByte = some op :=
  forall_of_forall_mem (p := fun op => ofByte? op.toByte = some op) (by decide) op

theorem toByte_of_ofByte? {b : UInt8} {op : Opcode} (h : ofByte? b = some op) :
    op.toByte = b := by
  simpa using List.find?_some h

/-- A mnemonic has no upper-case letters, so it names its own operation. -/
@[simp] theorem ofMnemonic?_mnemonic (op : Opcode) : ofMnemonic? op.mnemonic = some op :=
  forall_of_forall_mem (p := fun op => ofMnemonic? op.mnemonic = some op) (by decide) op

theorem lower_mnemonic (op : Opcode) : Text.lower op.mnemonic = op.mnemonic :=
  forall_of_forall_mem (p := fun op => Text.lower op.mnemonic = op.mnemonic) (by decide) op

/-- Only the twelve mnemonics are known, in any case. -/
theorem ofMnemonic?_eq_some_iff {s : Text} {op : Opcode} :
    ofMnemonic? s = some op ↔ Text.lower s = op.mnemonic := by
  constructor
  · intro h
    have := List.find?_some h
    exact (by simpa using this : op.mnemonic = Text.lower s).symm
  · intro h
    have := ofMnemonic?_mnemonic op
    unfold ofMnemonic? at this ⊢
    rwa [h, ← lower_mnemonic op]

end Opcode

end RegisterMachine
