import RegisterMachine.Assembly.Error
import RegisterMachine.Text.Numeral
import RegisterMachine.Text.Pieces

/-!
# RegisterMachine.Source.Declaration

Reading one declaration of a buffer, `DB name[size]`. The keyword, in any case,
ends at the first ASCII blank. In the trimmed rest the name ends at the first
opening bracket, and the size at a closing bracket, which has to be the last
character.

An error is the first that applies: there is no keyword, the brackets are not
as they should be or there is nothing between them, there is no name, or the
size is no number.
-/

namespace RegisterMachine

/-- A named buffer of zeros. -/
structure Declaration where
  name : Text
  size : Word
  deriving DecidableEq, Repr

namespace Declaration

/-- The five blanks of ASCII that end a keyword. A vertical tab is not one of them. -/
def endsKeyword (c : Char) : Bool :=
  c == ' ' || c == '\t' || c == '\n' || c == '\x0C' || c == '\r'

/-- The name and the size of a trimmed text `name[size]`, both trimmed. -/
def brackets? (s : Text) : Option (Text × Text) := do
  let body ← Text.stripEnd? ']' s
  let (name, size) ← Text.cut? (· == '[') body
  let size := Text.trim size
  if size = [] ∨ '[' ∈ size ∨ ']' ∈ size then none else some (Text.trim name, size)

/-- The declaration that a line writes. -/
def ofText (s : Text) : Except Cause Declaration :=
  match Text.cut? endsKeyword s with
  | none => .error .notADeclaration
  | some (keyword, rest) =>
    if Text.lower keyword ≠ ['d', 'b'] then .error .notADeclaration
    else
      match brackets? (Text.trim rest) with
      | none => .error .malformedDeclaration
      | some (name, size) =>
        if name = [] then .error .missingName
        else
          match Text.number? size with
          | none => .error (.invalidSize size)
          | some n => .ok ⟨name, n⟩

/-- A declared name is never empty. -/
theorem name_ne_nil {s : Text} {d : Declaration} (h : ofText s = .ok d) : d.name ≠ [] := by
  unfold ofText at h
  split at h
  · cases h
  · split at h
    · cases h
    · split at h
      · cases h
      · split at h
        · cases h
        · split at h
          · cases h
          · cases h; assumption

end Declaration

end RegisterMachine
