import RegisterMachine.Text.Blank

/-!
# RegisterMachine.Text.Hex

Hexadecimal digits at a fixed width, as a machine prints its registers: exactly
`width` digits, padded with zeros. The letters are a parameter, so that one
definition serves both cases.
-/

namespace RegisterMachine.Text

/-- The letters of the upper-case hexadecimal digits, by value. -/
def upperDigit (n : Nat) : Char := Char.ofNat (if n < 10 then 48 + n else 55 + n)

/-- The letters of the lower-case hexadecimal digits, by value. -/
def lowerDigit (n : Nat) : Char := Char.ofNat (if n < 10 then 48 + n else 87 + n)

/-- The last `width` hexadecimal digits of `n`. -/
def hexDigits (letter : Nat → Char) : Nat → Nat → Text
  | 0, _ => []
  | width + 1, n => hexDigits letter width (n / 16) ++ [letter (n % 16)]

/-- How many numbers can be told apart by `width` hexadecimal digits. -/
def hexCount : Nat → Nat
  | 0 => 1
  | width + 1 => 16 * hexCount width

/-- A word as eight upper-case digits. -/
def hexWord (w : UInt32) : Text := hexDigits upperDigit 8 w.toNat

/-- A byte as two upper-case digits. -/
def hexByte (b : UInt8) : Text := hexDigits upperDigit 2 b.toNat

@[simp] theorem length_hexDigits (letter : Nat → Char) (width n : Nat) :
    (hexDigits letter width n).length = width := by
  induction width generalizing n with
  | zero => rfl
  | succ width ih => simp [hexDigits, ih]

end RegisterMachine.Text
