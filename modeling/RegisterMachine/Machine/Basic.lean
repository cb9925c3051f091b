import RegisterMachine.Isa.Fault
import RegisterMachine.Machine.Memory
import RegisterMachine.Machine.Registers

/-!
# RegisterMachine.Machine.Basic

The state of the machine: registers, memory, whether it is running, and whether
it is asked for a trace. A fault leaves nothing behind but its flag in `rF` and a
halted machine, so whoever runs a machine looks at its flags when it has halted.
-/

namespace RegisterMachine

/-- Whether a machine takes further steps. -/
inductive Status
  | running
  | halted
  deriving DecidableEq, Repr

/-- The state of the machine. -/
structure Machine where
  registers : Registers
  memory : Memory
  status : Status
  /-- Whether a record is made of every instruction. -/
  tracing : Bool

namespace Machine

/-- A machine that is ready to run an image from its entry. -/
def ofImage (image : Image) : Machine where
  registers := Registers.zero.set .ip image.entry
  memory := Memory.ofImage image
  status := .running
  tracing := true

/-- The content of a register. -/
def get (m : Machine) (r : Register) : Word := m.registers.get r

/-- The machine after a word has been put into a register, with none of the rules that
instructions follow. -/
def set (m : Machine) (r : Register) (w : Word) : Machine :=
  { m with registers := m.registers.set r w }

/-- The machine with the trace turned on or off. -/
def withTracing (m : Machine) (on : Bool) : Machine := { m with tracing := on }

/-- The instruction pointer. -/
def ip (m : Machine) : Word := m.get .ip

/-- The flags. -/
def flags (m : Machine) : Flags := ⟨m.get .rF⟩

/-- The machine with other flags. -/
def withFlags (m : Machine) (flags : Flags) : Machine := m.set .rF flags.word

/-- Does the mode register ask for signed comparison? -/
def signed (m : Machine) : Bool := m.get .rS &&& 1 != 0

/-- The machine, stopped. -/
def halt (m : Machine) : Machine := { m with status := .halted }

/-- The machine, stopped by a fault. -/
def raise (m : Machine) (f : Fault) : Machine :=
  (m.withFlags (m.flags.insert (.ofFlag f.flag))).halt

/-! ### Views of a changed machine -/

@[simp] theorem get_set_self (m : Machine) (r : Register) (w : Word) : (m.set r w).get r = w :=
  Registers.get_set_self m.registers r w

theorem get_set_of_ne (m : Machine) {r s : Register} (w : Word) (h : s ≠ r) :
    (m.set r w).get s = m.get s :=
  Registers.get_set_of_ne m.registers w h

@[simp] theorem memory_set (m : Machine) (r : Register) (w : Word) :
    (m.set r w).memory = m.memory := rfl

@[simp] theorem status_set (m : Machine) (r : Register) (w : Word) :
    (m.set r w).status = m.status := rfl

@[simp] theorem flags_withFlags (m : Machine) (flags : Flags) :
    (m.withFlags flags).flags = flags := by
  simp [withFlags, Machine.flags]

@[simp] theorem memory_raise (m : Machine) (f : Fault) : (m.raise f).memory = m.memory := rfl

@[simp] theorem status_raise (m : Machine) (f : Fault) : (m.raise f).status = .halted := rfl

/-- A fault touches no register but the flags. -/
theorem get_raise_of_ne (m : Machine) (f : Fault) {r : Register} (h : r ≠ .rF) :
    (m.raise f).get r = m.get r :=
  get_set_of_ne m _ h

@[simp] theorem flags_raise (m : Machine) (f : Fault) :
    (m.raise f).flags = m.flags.insert (.ofFlag f.flag) :=
  flags_withFlags m _

/-- The flag of a fault is set when the machine has stopped because of it. -/
theorem has_flag_raise (m : Machine) (f : Fault) : (m.raise f).flags.has f.flag := by
  simp

end Machine

end RegisterMachine
