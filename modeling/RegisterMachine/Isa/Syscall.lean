import RegisterMachine.Word

/-!
# RegisterMachine.Isa.Syscall

The requests that a program makes to the host. Their number is in `r1`, their
arguments in `r2`, `r3` and `r4`, and the result comes back in `r1`.
-/

namespace RegisterMachine

/-- A request to the host. -/
inductive Syscall
  /-- Halt the machine. -/
  | exit
  /-- Write `r4` bytes from the address `r3`, to the standard error if `r2` is 2, else to the
  standard output. -/
  | write
  /-- Read at most `r4` bytes to the address `r3`, if `r2` is 0, else none. -/
  | read
  /-- Always refused, with the result `0xFFFFFFFF`. -/
  | openFile
  deriving DecidableEq, Repr, Inhabited

/-- The request with the given number. -/
def Syscall.ofId? (id : Word) : Option Syscall :=
  if id = 0 then some exit
  else if id = 1 then some write
  else if id = 2 then some read
  else if id = 3 then some openFile
  else none

/-- An output stream of the host. -/
inductive Stream
  | stdout
  | stderr
  deriving DecidableEq, Repr, Inhabited

/-- The stream with the given descriptor: 2 is the standard error, all others the standard
output. -/
def Stream.ofDescriptor (fd : Word) : Stream := if fd = 2 then stderr else stdout

namespace Syscall

theorem ofId?_eq_none_iff {id : Word} : ofId? id = none ↔ 3 < id := by
  unfold ofId?
  constructor
  · intro h
    have h0 : id ≠ 0 := by rintro rfl; simp at h
    have h1 : id ≠ 1 := by rintro rfl; simp at h
    have h2 : id ≠ 2 := by rintro rfl; simp at h
    have h3 : id ≠ 3 := by rintro rfl; simp at h
    rw [UInt32.lt_iff_toNat_lt]
    simp only [ne_eq, ← UInt32.toNat_inj] at h0 h1 h2 h3
    simp at h0 h1 h2 h3 ⊢
    omega
  · intro h
    have h0 : id ≠ 0 := by rintro rfl; revert h; decide
    have h1 : id ≠ 1 := by rintro rfl; revert h; decide
    have h2 : id ≠ 2 := by rintro rfl; revert h; decide
    have h3 : id ≠ 3 := by rintro rfl; revert h; decide
    simp [h0, h1, h2, h3]

end Syscall

end RegisterMachine
