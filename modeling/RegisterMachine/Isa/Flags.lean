import RegisterMachine.Word
import RegisterMachine.Text.Blank

/-!
# RegisterMachine.Isa.Flags

The register `rF` is a word whose eight low bits have names. Three record the
outcome of the last comparison, one whether the last branch was taken, and four
the faults that have stopped the machine. The other bits have no meaning, but a
program may set them, and they are kept.

`Flags` is a view of the whole word; `Flag` is one named bit of it.
-/

namespace RegisterMachine

/-- A named bit of the flags, in the order of the bits. -/
inductive Flag
  /-- The compared values were equal. -/
  | equal
  /-- The left value was greater. -/
  | greater
  /-- The left value was less. -/
  | less
  /-- The last branch was taken. -/
  | test
  /-- Bad instruction. -/
  | bad
  /-- The instruction pointer left the code. -/
  | pointer
  /-- A read left the memory. -/
  | read
  /-- A write left the memory. -/
  | write
  deriving DecidableEq, Repr, Inhabited

namespace Flag

/-- Every flag, in the order of the bits. -/
def all : List Flag := [equal, greater, less, test, bad, pointer, read, write]

/-- The word in which only this flag is set. -/
def bit : Flag → Word
  | equal => 1
  | greater => 2
  | less => 4
  | test => 8
  | bad => 16
  | pointer => 32
  | read => 64
  | write => 128

/-- The name under which a flag is printed. -/
def name : Flag → Text
  | equal => ['E', 'Q']
  | greater => ['G', 'T']
  | less => ['L', 'T']
  | test => ['T', 'E', 'S', 'T']
  | bad => ['B', 'A', 'D']
  | pointer => ['I', 'P', '_', 'O', 'O', 'B']
  | read => ['R', '_', 'O', 'O', 'B']
  | write => ['W', '_', 'O', 'O', 'B']

end Flag

/-- The content of the flags register. -/
structure Flags where
  /-- All 32 bits. -/
  word : Word
  deriving DecidableEq, Repr, Inhabited

namespace Flags

/-- A single flag. -/
def ofFlag (f : Flag) : Flags := ⟨f.bit⟩

/-- The outcomes of a comparison. -/
def comparison : Flags := ⟨7⟩

/-- The flags that faults raise. -/
def faults : Flags := ⟨240⟩

/-- Are all bits of `other` set? -/
def contains (flags other : Flags) : Bool := flags.word &&& other.word == other.word

/-- Is any bit of `other` set? -/
def intersects (flags other : Flags) : Bool := flags.word &&& other.word != 0

/-- With the bits of `other` set. -/
def insert (flags other : Flags) : Flags := ⟨flags.word ||| other.word⟩

/-- With the bits of `other` cleared. -/
def remove (flags other : Flags) : Flags := ⟨flags.word &&& ~~~ other.word⟩

/-- Is this flag set? -/
def has (flags : Flags) (f : Flag) : Bool := flags.contains (ofFlag f)

/-- Is the flag of any fault set? -/
def hasFault (flags : Flags) : Bool := flags.intersects faults

/-- The names of the flags that are set, in the order of the bits. -/
def names (flags : Flags) : List Text := (Flag.all.filter flags.has).map Flag.name

/-- The flags as they are printed, such as `[EQ TEST]`. -/
def render (flags : Flags) : Text := '[' :: ([' '].intercalate flags.names ++ [']'])

/-! ### Bits -/

theorem has_iff {flags : Flags} {f : Flag} : flags.has f ↔ flags.word &&& f.bit = f.bit := by
  simp [has, contains, ofFlag]

theorem and_or_self (a b : Word) : (a ||| b) &&& b = b := by
  apply UInt32.toBitVec_inj.1
  ext i hi
  simp
  cases b.toBitVec[i] <;> simp

@[simp] theorem has_insert_self (flags : Flags) (f : Flag) : (flags.insert (ofFlag f)).has f := by
  rw [has_iff]
  exact and_or_self flags.word f.bit

/-- A bit that is set stays set when others are set too. -/
theorem has_insert {flags other : Flags} {f : Flag} (h : flags.has f) :
    (flags.insert other).has f := by
  rw [has_iff] at h ⊢
  show (flags.word ||| other.word) &&& f.bit = f.bit
  have hbits : ∀ i (hi : i < 32), (flags.word &&& f.bit).toBitVec[i] = f.bit.toBitVec[i] := by
    simp [h]
  apply UInt32.toBitVec_inj.1
  ext i hi
  have := hbits i hi
  simp at this ⊢
  intro hf
  exact Or.inl (this hf)

@[simp] theorem insert_word (flags other : Flags) :
    (flags.insert other).word = flags.word ||| other.word := rfl

@[simp] theorem remove_word (flags other : Flags) :
    (flags.remove other).word = flags.word &&& ~~~ other.word := rfl

end Flags

end RegisterMachine
