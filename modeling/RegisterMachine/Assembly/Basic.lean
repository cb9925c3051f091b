import RegisterMachine.Assembly.Emission
import RegisterMachine.Image.Basic
import RegisterMachine.Log

/-!
# RegisterMachine.Assembly.Basic

The assembler. A text is read twice: the first reading gives its layout, the
second looks every symbol up and writes the bytes of the instructions, in order.
The first error ends it.

`assemble` is a function of the text alone. What it reports on the way is
another one, `assemblyLog`: the layout is reported as soon as it is known, so
also for a program in which a symbol is then missing.
-/

namespace RegisterMachine

/-- The image of a program, given as its meaningful lines. -/
def assembleLines (lines : List Line) : Except AssemblyError Image := do
  let layout ← Layout.ofLines lines
  let emission ← Emission.ofLines layout lines
  return { entry := 0, code := emission.code.toList, data := List.replicate layout.dataSize 0 }

/-- The image of a program. Execution begins at the first byte of its code. -/
def assemble (source : String) : Except AssemblyError Image :=
  assembleLines (Line.ofText source.toList)

/-- What is reported of a layout. -/
def Layout.log (layout : Layout) : List Log.Record :=
  let target := "bytecraft::assembler"
  let noMain : Log.Record :=
    { level := .warn, target, fields := []
      message := "source has no _main: section, module will contain no code" }
  let complete : Log.Record :=
    { level := .debug, target, message := "layout complete"
      fields :=
        [("code_size", toString layout.codeSize), ("data_size", toString layout.dataSize),
          ("labels", toString layout.labels.length),
          ("buffers", toString layout.buffers.length)] }
  if layout.hasMain then [complete] else [noMain, complete]

/-- What is reported while a program is assembled. -/
def assemblyLog (source : String) : List Log.Record :=
  match Layout.ofLines (Line.ofText source.toList) with
  | .ok layout => layout.log
  | .error _ => []

end RegisterMachine
