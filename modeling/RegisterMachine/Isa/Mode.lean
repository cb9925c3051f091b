/-!
# RegisterMachine.Isa.Mode

After its first byte, an instruction with operands has a **mode byte**, which
says what kind of destination and what kind of source follow: the destination's
kind in the high four bits, the source's in the low four. Only four of the
sixteen values of such a half are kinds.
-/

namespace RegisterMachine

/-- The kind of an operand. -/
inductive OperandKind
  /-- There is no such operand. -/
  | none
  | register
  | immediate
  | memory
  deriving DecidableEq, Repr, Inhabited

namespace OperandKind

/-- Every kind, in the order of the numbers. -/
def all : List OperandKind := [none, register, immediate, memory]

/-- The number of a kind in a mode byte. -/
def toNibble : OperandKind → UInt8
  | none => 0
  | register => 1
  | immediate => 2
  | memory => 3

/-- The kind with the given number. -/
def ofNibble? (n : UInt8) : Option OperandKind := all.find? fun k => k.toNibble == n

/-- How many bytes an operand of this kind takes after the mode byte. -/
def size : OperandKind → Nat
  | none => 0
  | register => 1
  | immediate => 4
  | memory => 4

end OperandKind

/-- A mode byte. Any byte is one; its halves are kinds or not. -/
structure Mode where
  /-- The byte as it stands in code. -/
  byte : UInt8
  deriving DecidableEq, Repr, Inhabited

namespace Mode

/-- The mode byte for two kinds. -/
def ofKinds (dst src : OperandKind) : Mode := ⟨dst.toNibble * 16 + src.toNibble⟩

/-- The mode byte of a branch, which has only a source. -/
def ofBranch (src : OperandKind) : Mode := ofKinds .none src

/-- The kind of the destination. -/
def dst? (m : Mode) : Option OperandKind := OperandKind.ofNibble? (m.byte / 16)

/-- The kind of the source. -/
def src? (m : Mode) : Option OperandKind := OperandKind.ofNibble? (m.byte % 16)

/-! ### The halves of a mode byte -/

@[simp] theorem dst?_ofKinds (dst src : OperandKind) : (ofKinds dst src).dst? = some dst := by
  cases dst <;> cases src <;> decide

@[simp] theorem src?_ofKinds (dst src : OperandKind) : (ofKinds dst src).src? = some src := by
  cases dst <;> cases src <;> decide

@[simp] theorem src?_ofBranch (src : OperandKind) : (ofBranch src).src? = some src :=
  src?_ofKinds .none src

theorem toNibble_of_ofNibble? {n : UInt8} {k : OperandKind}
    (h : OperandKind.ofNibble? n = some k) : k.toNibble = n := by
  simpa using List.find?_some h

/-- A byte whose halves are kinds is the mode byte for these kinds. -/
theorem eq_ofKinds {m : Mode} {dst src : OperandKind} (hd : m.dst? = some dst)
    (hs : m.src? = some src) : m = ofKinds dst src := by
  have hd' := toNibble_of_ofNibble? hd
  have hs' := toNibble_of_ofNibble? hs
  obtain ⟨b⟩ := m
  rw [ofKinds, hd', hs', Mode.mk.injEq]
  apply UInt8.toNat_inj.1
  have hb : b.toNat < 256 := b.toNat_lt
  simp only [UInt8.toNat_add, UInt8.toNat_mul, UInt8.toNat_div, UInt8.toNat_mod]
  simp
  omega

end Mode

end RegisterMachine
