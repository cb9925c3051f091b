import RegisterMachine.Proofs.Assembly.Simulation
import RegisterMachine.Proofs.Machine.Branching

/-!
# RegisterMachine.Proofs.Machine.Operands

What a register is worth as an operand. `IP` moves while an instruction is being
fetched, so it matters when an operand is read. In an instruction with two
operands every register is read when all of the instruction has been fetched,
on either side and whatever the other operand is, with one exception: on the
left of a comparison `IP` is read as soon as its own byte has been fetched, and
is then the address of the other operand (`Machine.operands_read`). So a register
equals itself in a comparison, unless it is `IP`.

`Machine.combined` says what the instructions make of their operands. How the
registers are read is a parameter of it, one for either side.
-/

namespace RegisterMachine

/-- The value of an operand, if registers are read like this. -/
def Memory.worth? (memory : Memory) (reading : Register → Word) : Operand Word → Option Word
  | .register r => some (reading r)
  | .immediate v => some v
  | .memory address => memory.load? address

namespace Machine

/-- What becomes of a machine with an instruction of two operands, if registers are read by `left`
where they are the left operand and by `right` where they are the right one. -/
def combined (m : Machine) (left right : Register → Word) : Instruction Word → Machine
  | .move dst src =>
    match m.memory.worth? right src with
    | some v => m.set dst (if dst = .rS then v &&& 1 else v)
    | none => m.raise .readOutOfBounds
  | .store address src =>
    match m.memory.worth? right src.toOperand with
    | some v =>
      match m.memory.store? address v with
      | some memory => { m with memory }
      | none => m.raise .writeOutOfBounds
    | none => m.raise .readOutOfBounds
  | .arith op dst src =>
    match m.memory.worth? right src with
    | some v => m.set dst (op.apply (left dst) v)
    | none => m.raise .readOutOfBounds
  | .cmp r src =>
    match m.memory.worth? right src with
    | some v => m.compare (left r) v
    | none => m.raise .readOutOfBounds
  | .nop => m
  | .syscall => m
  | .branch _ _ => m

/-- What a register holds once the whole instruction has been fetched: `IP` is the address of the
next instruction, and all others are as before. -/
def holding (m : Machine) (i : Instruction Word) (r : Register) : Word :=
  if r = .ip then m.ip + UInt32.ofNat i.size else m.get r

variable {m : Machine} {i : Instruction Word} {left : Register → Word}

/-! ### Operands -/

theorem holding_eq (m : Machine) (i : Instruction Word) :
    m.holding i = (m.skip i.size).get := by
  funext r
  unfold holding
  split
  · rename_i hr
    rw [hr]
    exact (m.get_set_self _ _).symm
  · rename_i hr
    exact (m.get_skip_of_ne i.size hr).symm

theorem value?_eq_worth? (m : Machine) (o : Operand Word) :
    m.value? o = m.memory.worth? m.get o := by
  cases o <;> rfl

theorem worth?_toOperand (m : Machine) (d : Direct Word) :
    m.memory.worth? m.get d.toOperand = some (m.value d) := by
  cases d <;> rfl

/-! ### Completing an instruction -/

/-- What becomes of the machine `m` with the instruction `i`, if it is `next` when all of it has
been fetched. -/
def completion {κ : Type} [Console κ] (m next : Machine) (c : κ) (i : Instruction Word) : Machine :=
  ((next.turnOf [] (m.ip, i.opcode.toByte) i.opcode
    (next.execute m.registers.leftValue i)).serve c).machine

/-- Where all of an instruction is in the code, it is completed when it has been skipped. -/
theorem step_of_codeAt {κ : Type} [Console κ] {c : κ} (hrun : m.status = .running)
    (hcode : m.memory.CodeAt m.ip.toNat i.encode) :
    ∃ s, m.step? c = some s ∧ s.machine = m.completion (m.skip i.size) c i :=
  ⟨_, step?_of_turn? (turn?_of_codeAt hrun hcode) c, rfl⟩

/-- To complete an instruction with two operands is to combine them. The left one is looked at only
in arithmetic and in a comparison, of which each has its own way to read it. -/
theorem completion_of_two {κ : Type} [Console κ] {c : κ} {next : Machine}
    (htwo : i.operands.length = 2)
    (harith : ∀ op dst src, i = .arith op dst src → left dst = next.get dst)
    (hcmp : ∀ r src, i = .cmp r src → left r = m.registers.leftValue r) :
    m.completion next c i = next.combined left next.get i := by
  unfold completion
  rw [Turn.machine_serve]
  cases i with
  | nop => cases htwo
  | syscall => cases htwo
  | branch c target => cases htwo
  | move dst src =>
    rw [execute, combined, value?_eq_worth?]
    cases next.memory.worth? next.get src <;> rfl
  | store address src =>
    rw [execute, combined, worth?_toOperand]
    dsimp only
    cases next.memory.store? address (next.value src) <;> rfl
  | arith op dst src =>
    rw [execute, combined, value?_eq_worth?, harith op dst src rfl]
    cases next.memory.worth? next.get src <;> rfl
  | cmp r src =>
    rw [execute, combined, value?_eq_worth?, hcmp r src rfl]
    cases next.memory.worth? next.get src <;> rfl

/-! ### Comparing a register with itself -/

/-- A comparison says that its operands are equal exactly if they are. -/
theorem has_equal_compare (m : Machine) (a b : Word) :
    (m.compare a b).flags.has .equal = true ↔ a = b := by
  have hcompares : (m.compare a b).flags.Compares m.signed a b := by
    intro f hf
    rw [compare, flags_withFlags, Flags.has_insert_ofFlag, Flags.has_remove_comparison]
    simp [hf]
  exact hcompares.holds_iff .equal

/-- The flag of equality after a comparison, however its operands are read. -/
theorem has_equal_combined {left right : Register → Word} {r t : Register} :
    (m.combined left right (.cmp r (.register t))).flags.has .equal = true ↔
      left r = right t :=
  m.has_equal_compare _ _

/-! ### Steps -/

/-- How the step `s` of `m` has read the operands of the instruction `i`. -/
structure ReadsOperands {κ : Type} (m : Machine) (i : Instruction Word) (s : Step κ) : Prop where
  /-- On both sides registers are read when the whole instruction has been fetched. -/
  uniform : (∀ right, i ≠ .cmp .ip right) →
    s.machine = (m.skip i.size).combined (m.holding i) (m.holding i) i
  /-- `IP` on the left of a comparison is the address of the right operand. -/
  pointer : ∀ right, i = .cmp .ip right →
    s.machine = (m.skip i.size).combined (fun _ => m.ip + 3) (m.holding i) i
  /-- The address of the next instruction does not wrap around. -/
  next : (m.holding i .ip).toNat = m.ip.toNat + i.size
  /-- A register is equal to itself, unless it is `IP`. -/
  reflexive : ∀ r, i = .cmp r (.register r) →
    (s.machine.flags.has .equal = true ↔ r ≠ .ip)

variable {κ : Type} [Console κ] {right : Operand Word}

/-- Registers are read when the whole instruction has been fetched, on both sides. -/
theorem completion_uniform (c : κ) (htwo : i.operands.length = 2)
    (hpointer : ∀ right, i ≠ .cmp .ip right) :
    m.completion (m.skip i.size) c i =
      (m.skip i.size).combined (m.holding i) (m.holding i) i := by
  have hcmp (r : Register) (src : Operand Word) (hi : i = .cmp r src) :
      m.holding i r = m.registers.leftValue r := by
    have hr : r ≠ .ip := by
      rintro rfl
      exact hpointer src hi
    rw [holding, if_neg hr, Registers.leftValue, if_neg hr]
    rfl
  rw [m.holding_eq] at hcmp ⊢
  exact completion_of_two htwo (fun _ _ _ _ => rfl) hcmp

/-- On the left of a comparison `IP` is read before the right operand is fetched. -/
theorem completion_pointer (c : κ) (hi : i = .cmp .ip right) :
    m.completion (m.skip i.size) c i =
      (m.skip i.size).combined (fun _ => m.ip + 3) (m.holding i) i := by
  subst hi
  rw [m.holding_eq]
  refine completion_of_two rfl (fun _ _ _ h => by cases h) ?_
  intro r src h
  cases h
  rfl

/-- The two places at which `IP` is read, if it is compared with itself, are one byte apart. -/
theorem pointer_ne_holding (m : Machine) :
    m.ip + 3 ≠ m.holding (.cmp .ip (.register .ip)) .ip := by
  intro h
  have hsame : m.ip + 3 = m.ip + 4 := h
  exact absurd ((UInt32.add_right_inj _).1 hsame) (by decide)

/-- Every running machine that has come to the bytes of an instruction with two operands takes a
step, with any console, and the step `ReadsOperands` as it should, but for `IP` on the left of a
comparison. -/
theorem operands_read (c : κ) (hrun : m.status = .running)
    (hcode : m.memory.CodeAt m.ip.toNat i.encode) (htwo : i.operands.length = 2) :
    ∃ s, m.step? c = some s ∧ m.ReadsOperands i s := by
  obtain ⟨s, hs, hmachine⟩ := step_of_codeAt (c := c) hrun hcode
  have huniform (hpointer : ∀ right, i ≠ .cmp .ip right) :=
    hmachine.trans (completion_uniform c htwo hpointer)
  have hleft (right : Operand Word) (hi : i = .cmp .ip right) :=
    hmachine.trans (completion_pointer c hi)
  have hinside := hcode.inside
  rw [Instruction.length_encode] at hinside
  refine ⟨s, hs, huniform, hleft, ?_, ?_⟩
  · rw [m.holding_eq]
    exact toNat_ip_skip hinside
  · rintro r rfl
    by_cases hr : r = .ip
    · subst hr
      rw [hleft _ rfl, has_equal_combined]
      exact iff_of_false m.pointer_ne_holding fun h => h rfl
    · rw [huniform (fun right h => hr (by cases h; rfl)), has_equal_combined]
      exact iff_of_true rfl hr

/-- `add r1, IP`. -/
def addPointer : Image := ⟨0, [0x02, 0x11, 0x00, 0x08], []⟩

/-- `IP` is worth the address of the next instruction. -/
theorem operands_read_addPointer :
    ∃ s, (ofImage addPointer).step? (Buffer.ofInput []) = some s ∧ s.machine.get .r1 = 4 := by
  have hcode : (ofImage addPointer).memory.CodeAt (ofImage addPointer).ip.toNat
      (Instruction.arith .add .r1 (.register .ip)).encode := ⟨by decide, by decide⟩
  obtain ⟨s, hs, h⟩ := operands_read (Buffer.ofInput []) rfl hcode rfl
  refine ⟨s, hs, ?_⟩
  rw [h.uniform fun right hi => by cases hi]
  decide

/-- `cmp IP, IP`. -/
def cmpPointer : Image := ⟨0, [0x05, 0x11, 0x08, 0x08], []⟩

/-- Compared with itself, `IP` is found to be less. -/
theorem cmpPointer_unequal :
    (ofImage cmpPointer).memory.CodeAt (ofImage cmpPointer).ip.toNat
        (Instruction.cmp .ip (.register .ip)).encode ∧
      ∃ s, (ofImage cmpPointer).step? (Buffer.ofInput []) = some s ∧
        s.machine.flags.has .equal = false ∧ s.machine.flags.has .less = true :=
  ⟨⟨by decide, by decide⟩, _, rfl, by decide, by decide⟩

end Machine

end RegisterMachine
