import RegisterMachine.Command.Execution

/-!
# RegisterMachine.CommandLine

The arguments of the process. A command is `asm` or `run`; its options may stand
anywhere after it, and after `--` everything is a plain argument. An option with
a value takes it from the same argument or from the next one, which then must not
look like an option. An empty text is no file name. Help may be asked for by an
option or by a command, on the whole or on one command.

Anything missing, unknown, surplus or given twice makes the whole line wrong, and
`CommandLine.ofArguments?` gives `none`. Like `RegisterMachine.Main`, this is the
outer layer: what a command does begins where its files are known.
-/

namespace RegisterMachine

/-- What the arguments ask for. -/
inductive CommandLine
  | command (c : Command)
  | version
  | help
  deriving DecidableEq, Repr

namespace CommandLine

/-- The name and the version that are told. -/
def versionText : String := "bytecraft 0.1.0"

/-- How the arguments are used. -/
def helpText : String :=
  "Usage: bytecraft asm <INPUT> --output <FILE>\n       bytecraft run [--no-trace] <PROGRAM>"

/-- An argument of a command. -/
inductive Argument
  /-- The rest is plain. -/
  | rest
  /-- An option `--name`. -/
  | long (name : List Char)
  /-- An option `--name=value`. -/
  | longWith (name value : List Char)
  /-- Options of one letter, at least one. -/
  | short (letter : Char) (more : List Char)
  | plain (value : List Char)

/-- What kind of argument a text is. A single dash is plain. -/
def Argument.ofText (s : List Char) : Argument :=
  match s with
  | ['-', '-'] => .rest
  | '-' :: '-' :: option =>
    let name := option.takeWhile (· ≠ '=')
    match option.drop name.length with
    | '=' :: value => .longWith name value
    | _ => .long name
  | '-' :: letter :: more => .short letter more
  | _ => .plain s

/-- Is the argument a file name? -/
def isFileName (s : List Char) : Bool :=
  match Argument.ofText s with
  | .plain value => !value.isEmpty
  | _ => false

/-- A value that has not been given yet. -/
def setOnce (current : Option String) (value : List Char) : Option (Option String) :=
  if value = [] ∨ current.isSome then none else some (some (String.ofList value))

/-- The command `asm` with the arguments that have been given. -/
def ofAssembleFiles (input output : Option String) : Option CommandLine :=
  input.bind fun i => output.map fun o => .command (.assemble i o)

/-- The command `run` with the arguments that have been given. -/
def ofRunFile (program : Option String) (traced : Bool) : Option CommandLine :=
  program.map fun p => .command (.run p traced)

/-- The plain arguments after `--`, of which there may be one if none has been given yet. -/
def setRest (current : Option String) : List (List Char) → Option (Option String)
  | [] => some current
  | [value] => setOnce current value
  | _ => none

/-- The arguments of `asm`, of which `input` and `output` have been read. -/
def assembleArguments (input output : Option String) : List (List Char) → Option CommandLine
  | [] => ofAssembleFiles input output
  | argument :: more =>
    match Argument.ofText argument with
    | .rest => (setRest input more).bind fun input => ofAssembleFiles input output
    | .plain value => (setOnce input value).bind fun input => assembleArguments input output more
    | .longWith name value =>
      if name = "output".toList then
        (setOnce output value).bind fun output => assembleArguments input output more
      else none
    | .long name =>
      if name = "help".toList then some .help
      else if name = "output".toList then
        match more with
        | value :: more =>
          if isFileName value then
            (setOnce output value).bind fun output => assembleArguments input output more
          else none
        | [] => none
      else none
    | .short 'h' _ => some .help
    | .short 'o' [] =>
      match more with
      | value :: more =>
        if isFileName value then
          (setOnce output value).bind fun output => assembleArguments input output more
        else none
      | [] => none
    | .short 'o' ('=' :: value) =>
      (setOnce output value).bind fun output => assembleArguments input output more
    | .short 'o' value =>
      (setOnce output value).bind fun output => assembleArguments input output more
    | .short _ _ => none

/-- The arguments of `run`, of which `program` and `traced` have been read. -/
def runArguments (program : Option String) (traced : Bool) : List (List Char) → Option CommandLine
  | [] => ofRunFile program traced
  | argument :: more =>
    match Argument.ofText argument with
    | .rest => (setRest program more).bind fun program => ofRunFile program traced
    | .plain value => (setOnce program value).bind fun program => runArguments program traced more
    | .long name =>
      if name = "help".toList then some .help
      else if name = "no-trace".toList ∧ traced then runArguments program false more
      else none
    | .short 'h' _ => some .help
    | .short _ _ => none
    | .longWith _ _ => none

/-- What the arguments ask for, if they are well-formed. -/
def ofArguments? (arguments : List String) : Option CommandLine :=
  match arguments with
  | [] => none
  | "asm" :: more => assembleArguments none none (more.map String.toList)
  | "run" :: more => runArguments none true (more.map String.toList)
  | ["help"] => some .help
  | ["help", topic] => if topic ∈ ["asm", "run", "help"] then some .help else none
  | argument :: _ =>
    match Argument.ofText argument.toList with
    | .long name =>
      if name = "version".toList then some .version
      else if name = "help".toList then some .help
      else none
    | .short 'V' _ => some .version
    | .short 'h' _ => some .help
    | _ => none

/-- Does what the arguments ask for. The status is 2 if they are wrong. -/
def execute (limit : Nat) (files : Files) (t : Terminal) (arguments : List String) : Execution :=
  match ofArguments? arguments with
  | none => { status := 2, files, terminal := t }
  | some (.command c) => c.perform limit files t
  | some .version =>
    { status := 0, files, terminal := (t.writeOut (Terminal.lineBytes versionText)).2.close }
  | some .help =>
    { status := 0, files, terminal := (t.writeOut (Terminal.lineBytes helpText)).2.close }

end CommandLine

end RegisterMachine
