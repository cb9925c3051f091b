import RegisterMachine.Machine.Basic
import RegisterMachine.Text.Hex

/-!
# RegisterMachine.Machine.Trace

A record of one instruction: where it stood, its first byte, and the registers
after it. On a line every number has a fixed width, and the names of the set
flags follow their word.
-/

namespace RegisterMachine

/-- What is recorded of an instruction after it has been carried out. -/
structure TraceRecord where
  ipBefore : Word
  /-- The first byte, whether it is an operation or not. -/
  opcode : Byte
  /-- The contents of `r1` to `r8`. -/
  general : Vector Word 8
  ipAfter : Word
  flags : Flags
  /-- Bit 0 of the mode register. -/
  signed : Bool
  deriving DecidableEq, Repr

namespace TraceRecord

/-- What is recorded when the machine has just carried out an instruction. -/
def ofMachine (m : Machine) (ipBefore : Word) (opcode : Byte) : TraceRecord where
  ipBefore := ipBefore
  opcode := opcode
  general := #v[m.get .r1, m.get .r2, m.get .r3, m.get .r4, m.get .r5, m.get .r6, m.get .r7,
    m.get .r8]
  ipAfter := m.ip
  flags := m.flags
  signed := m.signed

/-- The general registers, in order. -/
def generalRegisters : List Register := [.r1, .r2, .r3, .r4, .r5, .r6, .r7, .r8]

/-- A register's name and content. -/
def renderRegister (r : Register) (w : Word) : Text := r.name ++ ':' :: Text.hexWord w

/-- The line of a record. -/
def render (t : TraceRecord) : Text :=
  renderRegister .ip t.ipBefore ++ [' ', 'O', 'P', ':'] ++ Text.hexByte t.opcode ++
    [' ', '|', ' '] ++
    (generalRegisters.zip t.general.toList).flatMap (fun p => renderRegister p.1 p.2 ++ [' ']) ++
    renderRegister .ip t.ipAfter ++ [' '] ++
    renderRegister .rF t.flags.word ++ [' '] ++
    Register.rS.name ++ [':', if t.signed then '1' else '0', ' '] ++
    '[' :: t.flags.names.flatMap (fun name => name ++ [' ']) ++ [']']

end TraceRecord

end RegisterMachine
