import RegisterMachine.Command.Files
import RegisterMachine.Host.Terminal
import RegisterMachine.Machine.Step

/-!
# RegisterMachine.Command.Execution

Carrying out a command on files and a terminal. The exit status is 0 if the
command did what it was asked for, 1 if a file stood in the way, and 101 if a line
that has to be printed could not be. That a program faulted is no failure of the
command that ran it.
-/

namespace RegisterMachine

/-- What can be asked for. -/
inductive Command
  /-- Assemble a program into an image. -/
  | assemble (input output : String)
  /-- Run an image until it halts, with or without a line for every instruction. -/
  | run (program : String) (traced : Bool)
  deriving DecidableEq, Repr

/-- The state of the world after a command, and its exit status. -/
structure Execution where
  status : Nat
  files : Files
  terminal : Terminal

namespace Terminal

/-- Runs a machine on the terminal for at most a given number of steps. -/
def drive : Nat → Machine → Terminal → Machine × Terminal
  | 0, m, t => (m, t)
  | limit + 1, m, t =>
    if t.ended.isSome then (m, t)
    else
      match m.step? t with
      | none => (m, t)
      | some step =>
        drive limit step.machine (step.console.logAll (step.events.filterMap Event.log?))

/-- The end of a command that has done its work, unless a line of it could not be printed. -/
def finish (t : Terminal) (files : Files) : Execution :=
  match t.ended with
  | none => { status := 0, files, terminal := t }
  | some e => { status := 101, files, terminal := t.writeError (t.report e) }

/-- The end of a command that could not do its work, for a reason that is told. -/
def fail (t : Terminal) (files : Files) (reason : String) : Execution :=
  { status := 1, files, terminal := t.complain reason }

end Terminal

/-- The line that tells the sizes of an assembled image. -/
def Image.summary (image : Image) : String :=
  "Assembled OK: entry=" ++ toString image.entry.toNat ++ " code=" ++
    toString image.code.length ++ "B data=" ++ toString image.data.length ++ "B"

/-- The warning that a run ended on a fault. -/
def Machine.faultLog (m : Machine) : List Log.Record :=
  if m.flags.hasFault then
    [{ level := .warn, target := "bytecraft", message := "program halted on a fault"
       fields := [("flags", String.ofList m.flags.render)] }]
  else []

namespace Command

/-- Does what a command asks for. A program is run for at most `limit` steps. -/
def execute (limit : Nat) (files : Files) (t : Terminal) : Command → Execution
  | assemble input output =>
    let t := t.logAll (files.assembleLog input)
    match files.assemble input with
    | .error e => t.fail files ("Assembly failed: " ++ e.message)
    | .ok image =>
      let (error, files) := files.save output image
      match error with
      | some e => t.fail files ("Save failed: " ++ e.message)
      | none => (t.print image.summary).finish files
  | run program traced =>
    match files.load program with
    | .error e => t.fail files ("Load failed: " ++ e.message)
    | .ok image =>
      let (m, t) := t.drive limit ((Machine.ofImage image).withTracing traced)
      if t.ended.isSome then t.finish files else (t.logAll m.faultLog).finish files

/-- Carries out a command, and closes the standard output behind it. -/
def perform (limit : Nat) (files : Files) (t : Terminal) (command : Command) : Execution :=
  let done := command.execute limit files t
  { done with terminal := done.terminal.close }

end Command

end RegisterMachine
