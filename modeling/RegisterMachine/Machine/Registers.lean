import RegisterMachine.Isa.Register
import RegisterMachine.Word

/-!
# RegisterMachine.Machine.Registers

The register file: eleven words. `get` and `set` are all there is to it, and the
two lemmas `get_set_self` and `get_set_of_ne` are all that is used of them.
-/

namespace RegisterMachine

/-- The contents of the registers, in the order of their indices. -/
structure Registers where
  slots : Vector Word 11
  deriving DecidableEq, Repr

namespace Registers

/-- All registers hold zero. -/
def zero : Registers := ⟨Vector.replicate 11 0⟩

/-- The content of a register. -/
def get (rs : Registers) (r : Register) : Word := rs.slots[r.index]

/-- The registers after a word has been put into one of them. -/
def set (rs : Registers) (r : Register) (w : Word) : Registers :=
  ⟨rs.slots.set r.index w r.index.isLt⟩

@[simp] theorem get_zero (r : Register) : zero.get r = 0 := by
  simp [get, zero]

@[simp] theorem get_set_self (rs : Registers) (r : Register) (w : Word) :
    (rs.set r w).get r = w := by
  simp [get, set]

theorem get_set_of_ne (rs : Registers) {r s : Register} (w : Word) (h : s ≠ r) :
    (rs.set r w).get s = rs.get s := by
  have hi : (r.index : Nat) ≠ s.index := by
    intro hi
    exact h (Register.index_injective (Fin.ext hi)).symm
  simp [get, set, hi]

theorem get_set (rs : Registers) (r s : Register) (w : Word) :
    (rs.set r w).get s = if s = r then w else rs.get s := by
  split
  · subst s; exact get_set_self rs r w
  · exact get_set_of_ne rs w ‹_›

/-- Two register files with the same contents are the same. -/
theorem ext_get {rs ss : Registers} (h : ∀ r, rs.get r = ss.get r) : rs = ss := by
  obtain ⟨v⟩ := rs
  obtain ⟨w⟩ := ss
  rw [Registers.mk.injEq]
  apply Vector.ext
  intro i hi
  obtain ⟨r, -, hr⟩ := Register.exists_index ⟨i, hi⟩
  have := h r
  simpa [get, hr] using this

end Registers

end RegisterMachine
