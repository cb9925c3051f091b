import RegisterMachine.Image.Basic

/-!
# RegisterMachine.Machine.Memory

The memory is one array of bytes, of which an initial part is code. Instructions
are fetched from the code only, whereas loads and stores may touch all of it, so
a program can change itself but not grow.

Bounds are compared as natural numbers: an access to `count` bytes from
`address` on is inside exactly if `address + count` is at most the size, however
close the address is to the last word. That the code does not outgrow the memory
is part of the type.
-/

namespace RegisterMachine

/-- A memory whose first `codeSize` bytes are code. -/
structure Memory where
  bytes : Array Byte
  codeSize : Word
  codeSize_le : codeSize.toNat ≤ bytes.size

namespace Memory

/-- The memory that an image starts with. -/
def ofImage (image : Image) : Memory where
  bytes := image.memory.toArray
  codeSize := UInt32.ofNat image.code.length
  codeSize_le := by
    simp only [UInt32.toNat_ofNat', List.size_toArray, Image.length_memory]
    exact Nat.le_trans (Nat.mod_le _ _) (Nat.le_add_right _ _)

/-- How many bytes there are. -/
def size (m : Memory) : Nat := m.bytes.size

/-- Are `count` bytes from `address` on all inside? -/
def Inside (m : Memory) (address count : Nat) : Prop := address + count ≤ m.size

instance (m : Memory) (address count : Nat) : Decidable (m.Inside address count) :=
  inferInstanceAs (Decidable (address + count ≤ m.bytes.size))

/-- The `count` bytes from `address` on, as far as they are inside. -/
def slice (m : Memory) (address count : Nat) : List Byte :=
  (m.bytes.extract address (address + count)).toList

/-- The bytes with `bs` written over them from `address` on. -/
def overwrite (bytes : Array Byte) (address : Nat) : List Byte → Array Byte
  | [] => bytes
  | b :: bs => overwrite (bytes.setIfInBounds address b) (address + 1) bs

@[simp] theorem size_overwrite (bytes : Array Byte) (address : Nat) (bs : List Byte) :
    (overwrite bytes address bs).size = bytes.size := by
  induction bs generalizing bytes address with
  | nil => rfl
  | cons b bs ih => simp [overwrite, ih]

/-- The memory with `bs` written from `address` on, as far as that is inside. -/
def write (m : Memory) (address : Nat) (bs : List Byte) : Memory where
  bytes := overwrite m.bytes address bs
  codeSize := m.codeSize
  codeSize_le := by
    rw [size_overwrite]
    exact m.codeSize_le

/-- The word at an address, if its four bytes are inside. -/
def load? (m : Memory) (address : Word) : Option Word :=
  if m.Inside address.toNat 4 then some (Word.ofBytes (m.slice address.toNat 4)) else none

/-- The memory with a word stored at an address, if its four bytes are inside. -/
def store? (m : Memory) (address value : Word) : Option Memory :=
  if m.Inside address.toNat 4 then some (m.write address.toNat value.toBytes) else none

/-! ### Writing and reading -/

@[simp] theorem size_write (m : Memory) (address : Nat) (bs : List Byte) :
    (m.write address bs).size = m.size := size_overwrite m.bytes address bs

@[simp] theorem codeSize_write (m : Memory) (address : Nat) (bs : List Byte) :
    (m.write address bs).codeSize = m.codeSize := rfl

theorem length_slice {m : Memory} {address count : Nat} (h : m.Inside address count) :
    (m.slice address count).length = count := by
  have h' : address + count ≤ m.bytes.size := h
  simp only [slice, Array.length_toList, Array.size_extract]
  omega

theorem getElem?_overwrite (bytes : Array Byte) (address : Nat) (bs : List Byte) (i : Nat) :
    (overwrite bytes address bs)[i]? =
      if address ≤ i ∧ i < address + bs.length ∧ i < bytes.size then bs[i - address]?
      else bytes[i]? := by
  induction bs generalizing bytes address with
  | nil =>
    have : ¬ (address ≤ i ∧ i < address + ([] : List Byte).length ∧ i < bytes.size) := by
      simp only [List.length_nil]
      omega
    rw [if_neg this, overwrite]
  | cons b bs ih =>
    rw [overwrite, ih, Array.size_setIfInBounds, Array.getElem?_setIfInBounds, List.length_cons]
    by_cases hi : address = i
    · subst hi
      have h₁ : ¬ (address + 1 ≤ address ∧ address < address + 1 + bs.length ∧
          address < bytes.size) := by omega
      rw [if_neg h₁, if_pos rfl]
      by_cases hs : address < bytes.size
      · have h₂ : address ≤ address ∧ address < address + (bs.length + 1) ∧
            address < bytes.size := by omega
        rw [if_pos hs, if_pos h₂]
        simp
      · have h₂ : ¬ (address ≤ address ∧ address < address + (bs.length + 1) ∧
            address < bytes.size) := by omega
        rw [if_neg hs, if_neg h₂, Array.getElem?_eq_none (by omega)]
    · rw [if_neg hi]
      by_cases hin : address + 1 ≤ i ∧ i < address + 1 + bs.length ∧ i < bytes.size
      · have h₂ : address ≤ i ∧ i < address + (bs.length + 1) ∧ i < bytes.size := by omega
        rw [if_pos hin, if_pos h₂, show i - address = (i - (address + 1)) + 1 by omega,
          List.getElem?_cons_succ]
      · have h₂ : ¬ (address ≤ i ∧ i < address + (bs.length + 1) ∧ i < bytes.size) := by omega
        rw [if_neg hin, if_neg h₂]

/-- A byte outside what is written stays. -/
theorem getElem?_write_of_outside {m : Memory} {address : Nat} {bs : List Byte} {i : Nat}
    (h : i < address ∨ address + bs.length ≤ i) : (m.write address bs).bytes[i]? = m.bytes[i]? := by
  show (overwrite m.bytes address bs)[i]? = _
  rw [getElem?_overwrite, if_neg (by omega)]

/-- A byte that is written is there. -/
theorem getElem?_write_of_inside {m : Memory} {address : Nat} {bs : List Byte} {k : Nat}
    (h : m.Inside address bs.length) (hk : k < bs.length) :
    (m.write address bs).bytes[address + k]? = bs[k]? := by
  have hinside : address + bs.length ≤ m.bytes.size := h
  show (overwrite m.bytes address bs)[address + k]? = _
  rw [getElem?_overwrite, if_pos (by omega), Nat.add_sub_cancel_left]

/-- Bytes are read as they are. -/
theorem slice_of_bytes {m : Memory} {address : Nat} {bs : List Byte}
    (h : m.Inside address bs.length)
    (hbytes : ∀ k < bs.length, m.bytes[address + k]? = bs[k]?) :
    m.slice address bs.length = bs := by
  have hinside : address + bs.length ≤ m.bytes.size := h
  refine List.ext_getElem? ?_
  intro k
  rw [slice, Array.getElem?_toList, Array.getElem?_extract]
  by_cases hk : k < bs.length
  · rw [if_pos (by omega), hbytes k hk]
  · rw [if_neg (by omega), List.getElem?_eq_none (by omega)]

/-- Bytes that are written are read where they were put. -/
theorem slice_write {m : Memory} {address : Nat} {bs : List Byte}
    (h : m.Inside address bs.length) : (m.write address bs).slice address bs.length = bs := by
  refine slice_of_bytes ?_ fun k hk => getElem?_write_of_inside h hk
  show address + bs.length ≤ (m.write address bs).size
  rw [size_write]
  exact h

/-- The word whose bytes are at an address is loaded from there. -/
theorem load?_of_bytes {m : Memory} {address value : Word} (h : m.Inside address.toNat 4)
    (hbytes : ∀ k < 4, m.bytes[address.toNat + k]? = value.toBytes[k]?) :
    m.load? address = some value := by
  have hlen : value.toBytes.length = 4 := value.length_toBytes
  have hslice : m.slice address.toNat 4 = value.toBytes := by
    rw [← hlen] at h hbytes ⊢
    exact slice_of_bytes h hbytes
  rw [load?, if_pos h, hslice, Word.ofBytes_toBytes]

theorem load?_isSome_iff {m : Memory} {address : Word} :
    (m.load? address).isSome ↔ m.Inside address.toNat 4 := by
  unfold load?
  split <;> simp_all

theorem store?_isSome_iff {m : Memory} {address value : Word} :
    (m.store? address value).isSome ↔ m.Inside address.toNat 4 := by
  unfold store?
  split <;> simp_all

end Memory

end RegisterMachine
