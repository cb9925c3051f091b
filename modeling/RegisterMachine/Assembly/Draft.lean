import RegisterMachine.Source.Line
import RegisterMachine.Source.Statement

/-!
# RegisterMachine.Assembly.Draft

The first reading of a program. A **draft** is what is known after some of the
lines: the section, the size of the instructions, the labels with the number of
code bytes before them, and the declarations in order. No symbol has been looked
up, and none is needed, because the size of an instruction does not depend on
values.

A line is refused as soon as it is read, so the error that is reported is the one
of the first line that does not fit what precedes it.
-/

namespace RegisterMachine

/-- What is known of a program after its first lines. -/
structure Draft where
  /-- The section that the next line stands in. -/
  current : Option Section
  /-- Whether there was a main section at all. -/
  hasMain : Bool
  /-- How many bytes the instructions take. -/
  codeSize : Nat
  /-- The labels, with the addresses that they are bound to. -/
  labels : List (Text × Nat)
  /-- The declarations, with the numbers of their lines. -/
  declarations : List (Nat × Declaration)
  deriving DecidableEq, Repr

namespace Draft

/-- Addresses are words, so there are this many. -/
def addressLimit : Nat := 4294967296

/-- How many bytes some instructions take. -/
def codeSizeOf : List (Nat × Instruction Text) → Nat
  | [] => 0
  | (_, i) :: is => i.size + codeSizeOf is

/-- How many bytes some declarations take. -/
def dataSizeOf : List (Nat × Declaration) → Nat
  | [] => 0
  | (_, d) :: ds => d.size.toNat + dataSizeOf ds

/-- What is known before the first line. -/
def empty : Draft := ⟨none, false, 0, [], []⟩

/-- The draft with one more statement, which stands on the given line. -/
def add (draft : Draft) (line : Nat) : Statement → Except Cause Draft
  | .marker s =>
    .ok { draft with current := some s, hasMain := draft.hasMain || s == .main }
  | .label name =>
    if name ∈ draft.labels.map Prod.fst then .error (.duplicateLabel name)
    else .ok { draft with labels := draft.labels ++ [(name, draft.codeSize)] }
  | .instruction i =>
    if draft.codeSize + i.size < addressLimit then
      .ok { draft with codeSize := draft.codeSize + i.size }
    else .error .codeTooLarge
  | .declaration d =>
    if d.name ∈ draft.declarations.map (fun entry => entry.2.name) then
      .error (.duplicateBuffer d.name)
    else .ok { draft with declarations := draft.declarations ++ [(line, d)] }

/-- The draft with one more line. -/
def addLine (draft : Draft) (l : Line) : Except AssemblyError Draft :=
  match (Statement.ofText draft.current l.text).bind (draft.add l.number) with
  | .ok draft => .ok draft
  | .error cause => .error ⟨l.number, cause⟩

/-- The draft with more lines. -/
def addLines (draft : Draft) : List Line → Except AssemblyError Draft
  | [] => .ok draft
  | l :: ls => (draft.addLine l).bind fun draft => draft.addLines ls

/-- The draft of a whole program. -/
def ofLines (lines : List Line) : Except AssemblyError Draft := empty.addLines lines

/-! ### More lines -/

theorem addLines_append (draft : Draft) (ls ms : List Line) :
    draft.addLines (ls ++ ms) = (draft.addLines ls).bind fun draft => draft.addLines ms := by
  induction ls generalizing draft with
  | nil => rfl
  | cons l ls ih =>
    rw [List.cons_append, addLines, addLines]
    cases draft.addLine l with
    | error e => rfl
    | ok next => exact ih next

end Draft

end RegisterMachine
