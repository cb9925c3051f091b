/-!
# RegisterMachine.Log

Log records: a level, the part of the program that speaks, a fixed message, and
named values. `Record.line` is a record as it stands on the standard error.
-/

namespace RegisterMachine.Log

/-- How much a record matters. -/
inductive Level
  | trace
  | debug
  | warn
  deriving DecidableEq, Repr

/-- A log record. -/
structure Record where
  level : Level
  /-- The part of the program that speaks. -/
  target : String
  message : String
  /-- The named values, in the order in which they are printed. -/
  fields : List (String × String)
  deriving DecidableEq, Repr

/-- The level as it is printed. -/
def Level.name : Level → String
  | trace => "TRACE"
  | debug => "DEBUG"
  | warn => "WARN"

/-- A record on one line, without the line's end. -/
def Record.line (r : Record) : String :=
  let head := r.level.name ++ " " ++ r.target ++ ": " ++ r.message
  r.fields.foldl (fun text field => text ++ " " ++ field.1 ++ "=" ++ field.2) head

end RegisterMachine.Log
