import RegisterMachine.Assembly.Draft

/-!
# RegisterMachine.Assembly.Layout

Where everything stands. The code comes first; the buffers follow in the order
of their declarations, each right after the one before it. Addresses and sizes
are added as natural numbers, and a sum that is no word is an error, so nothing
wraps around.

`Layout.resolve` says what a text stands for as a value: a number if it is one,
else a label, else a buffer.
-/

namespace RegisterMachine

/-- The places of a program's labels and buffers. -/
structure Layout where
  codeSize : Nat
  dataSize : Nat
  /-- The labels, with their addresses. -/
  labels : List (Text × Nat)
  /-- The buffers, with the addresses of their first bytes. -/
  buffers : List (Text × Nat)
  hasMain : Bool
  deriving DecidableEq, Repr

namespace Layout

/-- The addresses of the buffers, of which the first stands `offset` bytes after the code, and
the size of the data altogether. -/
def place (codeSize offset : Nat) :
    List (Nat × Declaration) → Except AssemblyError (List (Text × Nat) × Nat)
  | [] => .ok ([], offset)
  | (line, d) :: rest =>
    if codeSize + offset < Draft.addressLimit ∧ offset + d.size.toNat < Draft.addressLimit then
      (place codeSize (offset + d.size.toNat) rest).map fun placed =>
        ((d.name, codeSize + offset) :: placed.1, placed.2)
    else .error ⟨line, .dataTooLarge⟩

/-- The layout of a program. -/
def ofDraft (draft : Draft) : Except AssemblyError Layout :=
  (place draft.codeSize 0 draft.declarations).map fun placed =>
    { codeSize := draft.codeSize
      dataSize := placed.2
      labels := draft.labels
      buffers := placed.1
      hasMain := draft.hasMain }

/-- The layout of the program with these lines, after its first reading. -/
def ofLines (lines : List Line) : Except AssemblyError Layout := (Draft.ofLines lines).bind ofDraft

/-- The value that a text stands for. -/
def resolve (layout : Layout) (s : Text) : Option Word :=
  match Text.number? s with
  | some n => some n
  | none =>
    match layout.labels.lookup s with
    | some address => some (UInt32.ofNat address)
    | none => (layout.buffers.lookup s).map UInt32.ofNat

/-- The value that a text stands for, or the text itself if it stands for none. -/
def value (layout : Layout) (s : Text) : Except Text Word :=
  match layout.resolve s with
  | some v => .ok v
  | none => .error s

/-! ### Sizes -/

/-- The data is the buffers, one after the other. -/
theorem dataSize_of_place {codeSize offset : Nat} {ds : List (Nat × Declaration)}
    {placed : List (Text × Nat) × Nat} (h : place codeSize offset ds = .ok placed) :
    placed.2 = offset + Draft.dataSizeOf ds := by
  induction ds generalizing offset placed with
  | nil => cases h; rfl
  | cons d ds ih =>
    obtain ⟨line, d⟩ := d
    rw [place] at h
    split at h
    · obtain ⟨p, hp, rfl⟩ := exists_of_map_eq_ok h
      simp only [ih hp, Draft.dataSizeOf]
      omega
    · cases h

end Layout

end RegisterMachine
