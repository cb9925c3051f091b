import RegisterMachine.Assembly.Layout

/-!
# RegisterMachine.Assembly.Emission

The second reading of a program. An **emission** is what has been written after
some of the lines: the bytes of the instructions so far, and the section that
the next line stands in. The lines are read again from the first one on, and of
the first reading nothing is used but the layout; in particular the reading
keeps track of the section by itself, and it counts no bytes.
-/

namespace RegisterMachine

/-- What has been written of a program after its first lines. -/
structure Emission where
  /-- The section that the next line stands in. -/
  current : Option Section
  /-- The bytes of the instructions. -/
  code : Array Byte
  deriving DecidableEq, Repr

namespace Emission

/-- What has been written before the first line. -/
def empty : Emission := ⟨none, #[]⟩

/-- The emission with one more statement. Only an instruction writes anything. -/
def add (layout : Layout) (e : Emission) : Statement → Except Cause Emission
  | .marker s => .ok { e with current := some s }
  | .label _ => .ok e
  | .instruction i =>
    match i.resolve layout.value with
    | .ok i => .ok { e with code := e.code.appendList i.encode }
    | .error symbol => .error (.unknownSymbol symbol)
  | .declaration _ => .ok e

/-- The emission with one more line. -/
def addLine (layout : Layout) (e : Emission) (l : Line) : Except AssemblyError Emission :=
  match (Statement.ofText e.current l.text).bind (e.add layout) with
  | .ok e => .ok e
  | .error cause => .error ⟨l.number, cause⟩

/-- The emission with more lines. -/
def addLines (layout : Layout) (e : Emission) : List Line → Except AssemblyError Emission
  | [] => .ok e
  | l :: ls => (e.addLine layout l).bind fun e => e.addLines layout ls

/-- The emission of a whole program. -/
def ofLines (layout : Layout) (lines : List Line) : Except AssemblyError Emission :=
  empty.addLines layout lines

end Emission

end RegisterMachine
