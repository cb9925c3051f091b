import RegisterMachine.Source.Declaration
import RegisterMachine.Source.Instruction

/-!
# RegisterMachine.Source.Statement

What a line states depends on the section that it stands in. The two markers
`_main:` and `_data:` open a section wherever they stand; before the first of
them nothing else is allowed. In the main section a line that ends in a colon
is a label and any other one an instruction; in the data section every line is
a declaration.
-/

namespace RegisterMachine

/-- The two kinds of sections. -/
inductive Section
  /-- Labels and instructions. -/
  | main
  /-- Declarations of buffers. -/
  | data
  deriving DecidableEq, Repr

/-- What a line states. -/
inductive Statement
  /-- The beginning of a section. -/
  | marker (s : Section)
  | label (name : Text)
  | instruction (i : Instruction Text)
  | declaration (d : Declaration)
  deriving DecidableEq, Repr

namespace Section

/-- The line that opens a section. -/
def marker : Section → Text
  | main => ['_', 'm', 'a', 'i', 'n', ':']
  | data => ['_', 'd', 'a', 't', 'a', ':']

/-- The section that a line opens. -/
def ofMarker? (s : Text) : Option Section :=
  if s = main.marker then some main else if s = data.marker then some data else none

@[simp] theorem ofMarker?_marker (s : Section) : ofMarker? s.marker = some s := by
  cases s <;> rfl

theorem ofMarker?_eq_some_iff {s : Text} {opened : Section} :
    ofMarker? s = some opened ↔ s = opened.marker := by
  constructor
  · intro h
    unfold ofMarker? at h
    split at h
    · cases h
      assumption
    · split at h
      · cases h
        assumption
      · cases h
  · rintro rfl
    exact ofMarker?_marker opened

theorem ofMarker?_eq_none_iff {s : Text} :
    ofMarker? s = none ↔ ∀ opened : Section, s ≠ opened.marker := by
  simp only [Option.eq_none_iff_forall_ne_some, ne_eq, ofMarker?_eq_some_iff]

end Section

namespace Statement

/-- What a line of the main section states. -/
def ofMain (s : Text) : Except Cause Statement :=
  match Text.stripEnd? ':' s with
  | some before =>
    let name := Text.trim before
    if name = [] then .error .emptyLabel else .ok (.label name)
  | none => (Instruction.ofText s).map .instruction

/-- What a line of the data section states. -/
def ofData (s : Text) : Except Cause Statement := (Declaration.ofText s).map .declaration

/-- What a line states in the section that it stands in. -/
def ofText (current : Option Section) (s : Text) : Except Cause Statement :=
  match Section.ofMarker? s with
  | some opened => .ok (.marker opened)
  | none =>
    match current with
    | none => .error .outsideSection
    | some .main => ofMain s
    | some .data => ofData s

@[simp] theorem ofText_marker (current : Option Section) (s : Section) :
    ofText current s.marker = .ok (.marker s) := by
  simp [ofText]

/-- A label is never empty. -/
theorem label_ne_nil {current : Option Section} {s name : Text}
    (h : ofText current s = .ok (.label name)) : name ≠ [] := by
  unfold ofText at h
  split at h
  · cases h
  · split at h
    · cases h
    · unfold ofMain at h
      split at h
      · rename_i before _
        by_cases hn : Text.trim before = []
        · simp [hn] at h
        · simp only [hn, if_false] at h
          cases h
          exact hn
      · obtain ⟨i, -, hi⟩ := exists_of_map_eq_ok h
        cases hi
    · obtain ⟨d, -, hd⟩ := exists_of_map_eq_ok h
      cases hd

/-- Nor is the name of a buffer. -/
theorem declaration_name_ne_nil {current : Option Section} {s : Text} {d : Declaration}
    (h : ofText current s = .ok (.declaration d)) : d.name ≠ [] := by
  unfold ofText at h
  split at h
  · cases h
  · split at h
    · cases h
    · unfold ofMain at h
      split at h
      · dsimp only at h
        split at h <;> cases h
      · obtain ⟨i, -, hi⟩ := exists_of_map_eq_ok h
        cases hi
    · obtain ⟨e, he, heq⟩ := exists_of_map_eq_ok h
      cases heq
      exact Declaration.name_ne_nil he

end Statement

end RegisterMachine
