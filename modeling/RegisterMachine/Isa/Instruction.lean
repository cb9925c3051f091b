import RegisterMachine.Isa.Mode
import RegisterMachine.Isa.Opcode
import RegisterMachine.Isa.Register
import RegisterMachine.Word

/-!
# RegisterMachine.Isa.Instruction

Instructions, in a form in which only the legal ones exist. An operand's value
is of an arbitrary type `α`: in a program's text it is the text of a number or a
symbol, in code it is a word.

* `Operand α` is anything an instruction may read; `Direct α` leaves out memory,
  for the places where memory is not allowed: the target of a branch, and the
  source of a store;
* `Instruction α` has one constructor for each shape that the operation and its
  operand kinds can take, so the rules on kinds are not checked but typed;
* `Instruction.size` does not depend on the values, which is what lets a text be
  laid out before its symbols are known (`size_resolve`);
* `Instruction.encode` gives the bytes, `size` of them (`length_encode`).
-/

namespace RegisterMachine

/-- An operand that is at hand without an access to memory. -/
inductive Direct (α : Type)
  | register (r : Register)
  | immediate (value : α)
  deriving DecidableEq, Repr

/-- An operand. -/
inductive Operand (α : Type)
  | register (r : Register)
  | immediate (value : α)
  /-- The word in memory at this address. -/
  | memory (address : α)
  deriving DecidableEq, Repr

/-- An instruction whose operands are of the kinds that its operation takes. -/
inductive Instruction (α : Type)
  | nop
  | syscall
  /-- `mov r, s`. -/
  | move (dst : Register) (src : Operand α)
  /-- `mov [a], s`. -/
  | store (address : α) (src : Direct α)
  /-- `add r, s`, `sub r, s` or `xor r, s`. -/
  | arith (op : Arith) (dst : Register) (src : Operand α)
  /-- `cmp r, s`. -/
  | cmp (left : Register) (right : Operand α)
  /-- `jmp t`, `jeq t` and the other branches. -/
  | branch (condition : Condition) (target : Direct α)
  deriving DecidableEq, Repr

variable {α β ε : Type}

theorem exists_of_map_eq_ok {f : α → β} {x : Except ε α} {b : β} (h : x.map f = .ok b) :
    ∃ a, x = .ok a ∧ f a = b := by
  cases x with
  | error e => cases h
  | ok a => exact ⟨a, rfl, Except.ok.inj h⟩

theorem exists_of_bind_eq_ok {f : α → Except ε β} {x : Except ε α} {b : β}
    (h : x.bind f = .ok b) : ∃ a, x = .ok a ∧ f a = .ok b := by
  cases x with
  | error e => cases h
  | ok a => exact ⟨a, rfl, h⟩

namespace Direct

/-- The same operand among all operands. -/
def toOperand : Direct α → Operand α
  | register r => .register r
  | immediate v => .immediate v

end Direct

namespace Operand

/-- The kind under which a mode byte announces the operand. -/
def kind : Operand α → OperandKind
  | register _ => .register
  | immediate _ => .immediate
  | memory _ => .memory

/-- The operand as a direct one, unless it is in memory. -/
def direct? : Operand α → Option (Direct α)
  | register r => some (.register r)
  | immediate v => some (.immediate v)
  | memory _ => none

/-- How many bytes the operand takes. -/
def size (operand : Operand α) : Nat := operand.kind.size

/-- The bytes of an operand: a register's index, or the four bytes of a word. -/
def encode : Operand Word → List Byte
  | register r => [r.toByte]
  | immediate v => v.toBytes
  | memory a => a.toBytes

/-- The operand with its value found by `f`. -/
def resolve (f : α → Except ε β) : Operand α → Except ε (Operand β)
  | register r => .ok (.register r)
  | immediate v => (f v).map .immediate
  | memory a => (f a).map .memory

@[simp] theorem size_register (r : Register) : (register r : Operand α).size = 1 := rfl

@[simp] theorem size_immediate (v : α) : (immediate v).size = 4 := rfl

@[simp] theorem size_memory (a : α) : (memory a).size = 4 := rfl

@[simp] theorem length_encode (operand : Operand Word) :
    operand.encode.length = operand.size := by
  cases operand <;> rfl

theorem kind_resolve {f : α → Except ε β} {o : Operand α} {o' : Operand β}
    (h : o.resolve f = .ok o') : o'.kind = o.kind := by
  cases o with
  | register r => cases h; rfl
  | immediate v => obtain ⟨w, -, rfl⟩ := exists_of_map_eq_ok h; rfl
  | memory a => obtain ⟨w, -, rfl⟩ := exists_of_map_eq_ok h; rfl

end Operand

namespace Direct

/-- The operand with its value found by `f`. -/
def resolve (f : α → Except ε β) : Direct α → Except ε (Direct β)
  | register r => .ok (.register r)
  | immediate v => (f v).map .immediate

@[simp] theorem direct?_toOperand (d : Direct α) : d.toOperand.direct? = some d := by
  cases d <;> rfl

theorem kind_toOperand_resolve {f : α → Except ε β} {d : Direct α} {d' : Direct β}
    (h : d.resolve f = .ok d') : d'.toOperand.kind = d.toOperand.kind := by
  cases d with
  | register r => cases h; rfl
  | immediate v => obtain ⟨w, -, rfl⟩ := exists_of_map_eq_ok h; rfl

end Direct

namespace Instruction

/-- The operation of an instruction. -/
def opcode : Instruction α → Opcode
  | nop => .nop
  | syscall => .syscall
  | move _ _ => .mov
  | store _ _ => .mov
  | arith op _ _ => .arith op
  | cmp _ _ => .cmp
  | branch c _ => .branch c

/-- The operands, the destination first. -/
def operands : Instruction α → List (Operand α)
  | nop => []
  | syscall => []
  | move dst src => [.register dst, src]
  | store address src => [.memory address, src.toOperand]
  | arith _ dst src => [.register dst, src]
  | cmp left right => [.register left, right]
  | branch _ target => [target.toOperand]

/-- The register that the instruction assigns to, if it names one. -/
def target? : Instruction α → Option Register
  | move dst _ => some dst
  | arith _ dst _ => some dst
  | _ => none

/-- The mode byte, unless the operation is bare. -/
def mode? : Instruction α → Option Mode
  | nop => none
  | syscall => none
  | move _ src => some (.ofKinds .register src.kind)
  | store _ src => some (.ofKinds .memory src.toOperand.kind)
  | arith _ _ src => some (.ofKinds .register src.kind)
  | cmp _ right => some (.ofKinds .register right.kind)
  | branch _ target => some (.ofBranch target.toOperand.kind)

/-- How many bytes the instruction takes: one for the operation, one for the mode, and those of
the operands. -/
def size : Instruction α → Nat
  | nop => 1
  | syscall => 1
  | move _ src => 3 + src.size
  | store _ src => 6 + src.toOperand.size
  | arith _ _ src => 3 + src.size
  | cmp _ right => 3 + right.size
  | branch _ target => 2 + target.toOperand.size

/-- The bytes of an instruction: the operation, the mode, the operands. -/
def encode (i : Instruction Word) : List Byte :=
  i.opcode.toByte :: ((i.mode?.map Mode.byte).toList ++ i.operands.flatMap Operand.encode)

/-- The instruction with its values found by `f`, the destination's first. -/
def resolve (f : α → Except ε β) : Instruction α → Except ε (Instruction β)
  | nop => .ok .nop
  | syscall => .ok .syscall
  | move dst src => (src.resolve f).map (.move dst)
  | store address src => (f address).bind fun a => (src.resolve f).map (.store a)
  | arith op dst src => (src.resolve f).map (.arith op dst)
  | cmp left right => (right.resolve f).map (.cmp left)
  | branch c target => (target.resolve f).map (.branch c)

/-! ### Sizes -/

/-- An instruction is encoded in as many bytes as its size says. -/
@[simp] theorem length_encode (i : Instruction Word) : i.encode.length = i.size := by
  cases i <;> simp [encode, mode?, operands, size] <;> omega

theorem size_pos (i : Instruction α) : 0 < i.size := by
  cases i <;> simp only [size] <;> omega

/-- The size depends on the kinds of the operands only, and not on their values. -/
theorem size_resolve {f : α → Except ε β} {i : Instruction α} {i' : Instruction β}
    (h : i.resolve f = .ok i') : i'.size = i.size := by
  cases i with
  | nop => cases h; rfl
  | syscall => cases h; rfl
  | move dst src =>
    obtain ⟨s, hs, rfl⟩ := exists_of_map_eq_ok h
    simp [size, Operand.size, Operand.kind_resolve hs]
  | store address src =>
    obtain ⟨a, -, h⟩ := exists_of_bind_eq_ok h
    obtain ⟨s, hs, rfl⟩ := exists_of_map_eq_ok h
    simp [size, Operand.size, Direct.kind_toOperand_resolve hs]
  | arith op dst src =>
    obtain ⟨s, hs, rfl⟩ := exists_of_map_eq_ok h
    simp [size, Operand.size, Operand.kind_resolve hs]
  | cmp left right =>
    obtain ⟨s, hs, rfl⟩ := exists_of_map_eq_ok h
    simp [size, Operand.size, Operand.kind_resolve hs]
  | branch c target =>
    obtain ⟨t, ht, rfl⟩ := exists_of_map_eq_ok h
    simp [size, Operand.size, Direct.kind_toOperand_resolve ht]

/-- Neither the operation nor the destination is a value that is looked up. -/
theorem head_resolve {f : α → Except ε β} {i : Instruction α} {i' : Instruction β}
    (h : i.resolve f = .ok i') : i'.opcode = i.opcode ∧ i'.target? = i.target? := by
  cases i with
  | nop => cases h; exact ⟨rfl, rfl⟩
  | syscall => cases h; exact ⟨rfl, rfl⟩
  | move dst src => obtain ⟨s, -, rfl⟩ := exists_of_map_eq_ok h; exact ⟨rfl, rfl⟩
  | store address src =>
    obtain ⟨a, -, h⟩ := exists_of_bind_eq_ok h
    obtain ⟨s, -, rfl⟩ := exists_of_map_eq_ok h
    exact ⟨rfl, rfl⟩
  | arith op dst src => obtain ⟨s, -, rfl⟩ := exists_of_map_eq_ok h; exact ⟨rfl, rfl⟩
  | cmp left right => obtain ⟨s, -, rfl⟩ := exists_of_map_eq_ok h; exact ⟨rfl, rfl⟩
  | branch c target => obtain ⟨t, -, rfl⟩ := exists_of_map_eq_ok h; exact ⟨rfl, rfl⟩

end Instruction

end RegisterMachine
