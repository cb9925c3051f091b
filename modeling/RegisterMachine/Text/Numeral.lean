import RegisterMachine.Text.Blank
import RegisterMachine.Word

/-!
# RegisterMachine.Text.Numeral

The numbers that a program's text may contain, as words of 32 bits.

* A hexadecimal numeral is `0x` or `0X` and then digits in either case, with an
  optional `+` before the digits. Its value has to be below `2 ^ 64`.
* Any other numeral is decimal, with an optional sign. Its value has to lie in
  `[-2 ^ 63, 2 ^ 63)`.

Blanks around the numeral are ignored. The value keeps its low 32 bits, so a
negative number stands for its two's complement. A text that is no numeral, or
whose value is out of range, is no number, and may then be the name of a symbol.
-/

namespace RegisterMachine.Text

/-- The value of a hexadecimal digit in either case. -/
def digitValue? (c : Char) : Option Nat :=
  if '0' ≤ c ∧ c ≤ '9' then some (c.toNat - 48)
  else if 'a' ≤ c ∧ c ≤ 'f' then some (c.toNat - 87)
  else if 'A' ≤ c ∧ c ≤ 'F' then some (c.toNat - 55)
  else none

/-- The value of a digit, if it is a digit in this base, which is at most sixteen. -/
def digit? (base : Nat) (c : Char) : Option Nat := (digitValue? c).filter (· < base)

/-- The value of the digits that follow a numeral whose value is `n`. -/
def natFrom? (base : Nat) (n : Nat) : Text → Option Nat
  | [] => some n
  | c :: cs => (digit? base c).bind fun d => natFrom? base (n * base + d) cs

/-- The value of one or more digits. -/
def nat? (base : Nat) : Text → Option Nat
  | [] => none
  | c :: cs => natFrom? base 0 (c :: cs)

/-- The value of decimal digits with an optional sign, in the range of 64 bits. -/
def decimal? : Text → Option Int
  | '-' :: cs => (nat? 10 cs).bind fun n => if n ≤ 9223372036854775808 then some (-n) else none
  | '+' :: cs => (nat? 10 cs).bind fun n => if n < 9223372036854775808 then some n else none
  | cs => (nat? 10 cs).bind fun n => if n < 9223372036854775808 then some n else none

/-- The value of hexadecimal digits with an optional `+`, in the range of 64 bits. -/
def hexadecimal? : Text → Option Nat
  | '+' :: cs => (nat? 16 cs).bind fun n => if n < 18446744073709551616 then some n else none
  | cs => (nat? 16 cs).bind fun n => if n < 18446744073709551616 then some n else none

/-- The word that a text denotes, if it is a number. -/
def number? (s : Text) : Option Word :=
  match trim s with
  | '0' :: 'x' :: cs => (hexadecimal? cs).map UInt32.ofNat
  | '0' :: 'X' :: cs => (hexadecimal? cs).map UInt32.ofNat
  | cs => (decimal? cs).map UInt32.ofInt

/-! ### What a number is not -/

theorem digit?_lt {base : Nat} {c : Char} {d : Nat} (h : digit? base c = some d) : d < base := by
  simpa using (Option.filter_eq_some_iff.1 h).2

@[simp] theorem nat?_nil (base : Nat) : nat? base [] = none := rfl

/-- Digits are read from the left: the value of the first ones is carried on. -/
theorem natFrom?_append (base n : Nat) (s t : Text) :
    natFrom? base n (s ++ t) = (natFrom? base n s).bind fun m => natFrom? base m t := by
  induction s generalizing n with
  | nil => rfl
  | cons c cs ih =>
    cases hd : digit? base c with
    | none => simp [natFrom?, hd]
    | some d => simp [natFrom?, hd, ih]

/-- Nothing but blanks is no number. -/
theorem number?_eq_none_of_trim_eq_nil {s : Text} (h : trim s = []) : number? s = none := by
  simp [number?, h, decimal?]

/-- Blanks at the ends do not matter. -/
@[simp] theorem number?_trim (s : Text) : number? (trim s) = number? s := by
  simp [number?]

end RegisterMachine.Text
