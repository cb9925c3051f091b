/-!
# RegisterMachine.Host.Error

Why the host refuses something: to open a file, to read or to write. The texts
are those of the operating system, with its numbers.
-/

namespace RegisterMachine

/-- A refusal by the host. -/
inductive HostError
  | notFound
  | notDirectory
  | isDirectory
  /-- The device is full. -/
  | noSpace
  | nameTooLong
  /-- A name with a character of code zero. -/
  | zeroInName
  /-- The bytes are no UTF-8. -/
  | notText
  /-- Any other, in the host's words. -/
  | other (text : String)
  deriving DecidableEq, Repr

/-- The refusal in words. -/
def HostError.message : HostError → String
  | notFound => "No such file or directory (os error 2)"
  | notDirectory => "Not a directory (os error 20)"
  | isDirectory => "Is a directory (os error 21)"
  | noSpace => "No space left on device (os error 28)"
  | nameTooLong => "File name too long (os error 36)"
  | zeroInName => "file name contained an unexpected NUL byte"
  | notText => "stream did not contain valid UTF-8"
  | other text => text

end RegisterMachine
