/-!
# RegisterMachine.Word

Everything the machine computes is a **word** of 32 bits, and everything it
stores is a **byte**. A word lies in memory and in a file as four bytes, least
significant first.

`Word.ofBytes` and `Word.toBytes` are inverse to each other: a word survives the
trip through its bytes (`Word.ofBytes_toBytes`), and four bytes survive the trip
through their word (`Word.toBytes_ofBytes`).
-/

namespace RegisterMachine

/-- The value of a register, an address or a size. -/
abbrev Word := UInt32

/-- A cell of memory. -/
abbrev Byte := UInt8

namespace Word

/-- The `width` low bytes of a number, least significant first. -/
def littleEndian : Nat → Nat → List Byte
  | 0, _ => []
  | width + 1, n => UInt8.ofNat (n % 256) :: littleEndian width (n / 256)

/-- The number whose bytes are given, least significant first. -/
def fromLittleEndian : List Byte → Nat
  | [] => 0
  | b :: bs => b.toNat + 256 * fromLittleEndian bs

/-- How many numbers fit into `width` bytes. -/
def count : Nat → Nat
  | 0 => 1
  | width + 1 => 256 * count width

/-- The four bytes of a word. -/
def toBytes (w : Word) : List Byte := littleEndian 4 w.toNat

/-- The word with the given bytes. -/
def ofBytes (bs : List Byte) : Word := UInt32.ofNat (fromLittleEndian bs)

/-! ### Little-endian numbers -/

@[simp] theorem length_littleEndian (width n : Nat) : (littleEndian width n).length = width := by
  induction width generalizing n with
  | zero => rfl
  | succ width ih => simp [littleEndian, ih]

theorem fromLittleEndian_littleEndian {width n : Nat} (h : n < count width) :
    fromLittleEndian (littleEndian width n) = n := by
  induction width generalizing n with
  | zero =>
    obtain rfl : n = 0 := by simpa [count] using h
    rfl
  | succ width ih =>
    have hq : n / 256 < count width := by
      rw [count] at h
      omega
    have hb : (UInt8.ofNat (n % 256)).toNat = n % 256 := by simp
    rw [littleEndian, fromLittleEndian, ih hq, hb]
    omega

theorem littleEndian_fromLittleEndian (bs : List Byte) :
    littleEndian bs.length (fromLittleEndian bs) = bs := by
  induction bs with
  | nil => rfl
  | cons b bs ih =>
    have hb : b.toNat < 256 := b.toNat_lt
    have hmod : (b.toNat + 256 * fromLittleEndian bs) % 256 = b.toNat := by omega
    have hdiv : (b.toNat + 256 * fromLittleEndian bs) / 256 = fromLittleEndian bs := by omega
    rw [List.length_cons, littleEndian, fromLittleEndian, hmod, hdiv, ih, UInt8.ofNat_toNat]

theorem fromLittleEndian_lt (bs : List Byte) : fromLittleEndian bs < count bs.length := by
  induction bs with
  | nil => simp [fromLittleEndian, count]
  | cons b bs ih =>
    have hb : b.toNat < 256 := b.toNat_lt
    rw [fromLittleEndian, List.length_cons, count]
    omega

/-! ### Words -/

@[simp] theorem length_toBytes (w : Word) : (toBytes w).length = 4 := length_littleEndian 4 _

@[simp] theorem ofBytes_toBytes (w : Word) : ofBytes (toBytes w) = w := by
  have h : w.toNat < count 4 := w.toNat_lt
  rw [ofBytes, toBytes, fromLittleEndian_littleEndian h, UInt32.ofNat_toNat]

theorem toBytes_ofBytes {bs : List Byte} (h : bs.length = 4) : toBytes (ofBytes bs) = bs := by
  have hlt : fromLittleEndian bs < 4294967296 := by
    have := fromLittleEndian_lt bs
    rwa [h] at this
  rw [toBytes, ofBytes, UInt32.toNat_ofNat', Nat.mod_eq_of_lt hlt, ← h,
    littleEndian_fromLittleEndian]

end Word

end RegisterMachine
