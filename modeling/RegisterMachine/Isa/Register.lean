import RegisterMachine.Text.Blank

/-!
# RegisterMachine.Isa.Register

The eleven registers: eight general ones, the instruction pointer `IP`, the
flags `rF` and the mode register `rS`. An operand byte holds a register's index;
a program's text holds its name, in any case.
-/

namespace RegisterMachine

/-- A register, in the order of the indices. -/
inductive Register
  | r1
  | r2
  | r3
  | r4
  | r5
  | r6
  | r7
  | r8
  /-- The instruction pointer: the address of the next byte to be fetched. -/
  | ip
  /-- The flags, see `RegisterMachine.Flags`. -/
  | rF
  /-- The mode register, of which bit 0 asks for signed comparison. -/
  | rS
  deriving DecidableEq, Repr, Inhabited

namespace Register

/-- Every register, in the order of the indices. -/
def all : List Register := [r1, r2, r3, r4, r5, r6, r7, r8, ip, rF, rS]

/-- The place of a register in the register file. -/
def index : Register → Fin 11
  | r1 => 0
  | r2 => 1
  | r3 => 2
  | r4 => 3
  | r5 => 4
  | r6 => 5
  | r7 => 6
  | r8 => 7
  | ip => 8
  | rF => 9
  | rS => 10

/-- The byte that stands for a register in an operand. -/
def toByte (r : Register) : UInt8 := UInt8.ofNat r.index

/-- The register that an operand byte stands for. -/
def ofByte? (b : UInt8) : Option Register := all.find? fun r => r.toByte == b

/-- The name under which a register is printed. -/
def name : Register → Text
  | r1 => ['r', '1']
  | r2 => ['r', '2']
  | r3 => ['r', '3']
  | r4 => ['r', '4']
  | r5 => ['r', '5']
  | r6 => ['r', '6']
  | r7 => ['r', '7']
  | r8 => ['r', '8']
  | ip => ['I', 'P']
  | rF => ['r', 'F']
  | rS => ['r', 'S']

/-- The register that a text names, whatever the case of its letters and the blanks around it. -/
def ofName? (s : Text) : Option Register :=
  all.find? fun r => Text.lower r.name == Text.lower (Text.trim s)

/-! ### Tables -/

theorem index_injective {r s : Register} (h : r.index = s.index) : r = s := by
  revert h
  cases r <;> cases s <;> decide

/-- Every place of the register file is that of a register. -/
theorem exists_index : ∀ i : Fin 11, ∃ r ∈ all, r.index = i := by decide

@[simp] theorem ofByte?_toByte (r : Register) : ofByte? r.toByte = some r := by
  cases r <;> decide

theorem toByte_of_ofByte? {b : UInt8} {r : Register} (h : ofByte? b = some r) : r.toByte = b := by
  simpa using List.find?_some h

/-- A register's own name names it. -/
@[simp] theorem ofName?_name (r : Register) : ofName? r.name = some r := by
  cases r <;> decide

/-- No register has a name with such a beginning. -/
theorem ofName?_eq_none {c : Char} {rest : Text}
    (htrim : Text.trim (c :: rest) = c :: rest) (hr : c.toLower ≠ 'r') (hi : c.toLower ≠ 'i') :
    ofName? (c :: rest) = none := by
  rw [ofName?, htrim, List.find?_eq_none]
  intro r _ heq
  have hname : Text.lower r.name = c.toLower :: Text.lower rest := beq_iff_eq.1 heq
  have hhead : some c.toLower = some 'r' ∨ some c.toLower = some 'i' := by
    have hfirst := congrArg List.head? hname
    rw [List.head?_cons] at hfirst
    rw [← hfirst]
    cases r <;> decide
  rcases hhead with hc | hc
  · exact hr (Option.some.inj hc)
  · exact hi (Option.some.inj hc)

end Register

end RegisterMachine
