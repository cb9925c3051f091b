import RegisterMachine.Proofs.Assembly.FirstError

/-!
# RegisterMachine.Proofs.Assembly.Renumbering

The two readings of a program whose lines have got other numbers. The number of a
line is looked at only when an error is reported: it is the line of a statement
that is refused, and a draft keeps that of every declaration, for which there may
turn out to be no room. So the same lines under other numbers have the same image,
or the same error at the new number of its line (`assembleLines_renumber`).

Nothing is asked of the new numbers. They need not grow from line to line, and
two lines may get the same one.
-/

namespace RegisterMachine

section

variable (place : Nat → Nat)

/-- The line under its new number. -/
def Line.renumber (l : Line) : Line := ⟨place l.number, l.text⟩

/-- The error at the new number of its line. -/
def AssemblyError.renumber (e : AssemblyError) : AssemblyError := ⟨place e.line, e.cause⟩

/-- The declarations, each with the new number of its line. -/
def Declaration.renumberAll (ds : List (Nat × Declaration)) : List (Nat × Declaration) :=
  ds.map fun entry => (place entry.1, entry.2)

/-- The draft with the new numbers of its declarations. -/
def Draft.renumber (draft : Draft) : Draft :=
  { draft with declarations := Declaration.renumberAll place draft.declarations }

end

variable {place : Nat → Nat}

/-! ### The first reading -/

namespace Draft

/-- A statement is added in the same way, whatever the number of its line. -/
theorem add_renumber (draft : Draft) (line : Nat) (s : Statement) :
    (draft.renumber place).add (place line) s =
      (draft.add line s).map (renumber place) := by
  cases s with
  | marker opened => rfl
  | label name =>
    rw [add, add, apply_ite (Except.map (renumber place))]
    rfl
  | instruction i =>
    rw [add, add, apply_ite (Except.map (renumber place))]
    rfl
  | declaration d =>
    have hnames : (draft.renumber place).declarations.map (fun entry => entry.2.name) =
        draft.declarations.map fun entry => entry.2.name := by
      simp [renumber, Declaration.renumberAll]
    rw [add, add, hnames, apply_ite (Except.map (renumber place))]
    simp [Except.map, renumber, Declaration.renumberAll]

theorem addLine_renumber (draft : Draft) (l : Line) :
    (draft.renumber place).addLine (l.renumber place) =
      ((draft.addLine l).map (renumber place)).mapError (AssemblyError.renumber place) := by
  have hcurrent : (draft.renumber place).current = draft.current := rfl
  rw [addLine_eq_mapError, addLine_eq_mapError, hcurrent]
  show ((Statement.ofText draft.current l.text).bind
    ((draft.renumber place).add (place l.number))).mapError _ = _
  cases Statement.ofText draft.current l.text with
  | error cause => rfl
  | ok s =>
    rw [Except.bind, Except.bind, add_renumber]
    cases draft.add l.number s <;> rfl

theorem addLines_renumber (draft : Draft) (ls : List Line) :
    (draft.renumber place).addLines (ls.map (Line.renumber place)) =
      ((draft.addLines ls).map (renumber place)).mapError (AssemblyError.renumber place) := by
  induction ls generalizing draft with
  | nil => rfl
  | cons l ls ih =>
    rw [List.map_cons, addLines, addLines, addLine_renumber]
    cases draft.addLine l with
    | error e => rfl
    | ok next => exact ih next

end Draft

/-! ### The layout -/

namespace Layout

/-- A declaration without room is reported under the new number of its line. -/
theorem place_renumber (codeSize offset : Nat) (ds : List (Nat × Declaration)) :
    Layout.place codeSize offset (Declaration.renumberAll place ds) =
      (Layout.place codeSize offset ds).mapError (AssemblyError.renumber place) := by
  induction ds generalizing offset with
  | nil => rfl
  | cons entry ds ih =>
    obtain ⟨line, d⟩ := entry
    unfold Declaration.renumberAll at ih ⊢
    rw [List.map_cons]
    by_cases hroom : Room codeSize offset d
    · rw [place_cons_of_room hroom, place_cons_of_room hroom, ih]
      cases Layout.place codeSize (offset + d.size.toNat) ds <;> rfl
    · rw [place_cons_of_not_room hroom, place_cons_of_not_room hroom]
      rfl

/-- There are no numbers of lines in a layout. -/
theorem ofLines_renumber (ls : List Line) :
    ofLines (ls.map (Line.renumber place)) =
      (ofLines ls).mapError (AssemblyError.renumber place) := by
  have hdraft : Draft.ofLines (ls.map (Line.renumber place)) = _ :=
    Draft.addLines_renumber Draft.empty ls
  rw [ofLines, ofLines, hdraft, Draft.ofLines]
  cases Draft.empty.addLines ls with
  | error e => rfl
  | ok draft =>
    show ofDraft (draft.renumber place) = (ofDraft draft).mapError _
    rw [ofDraft, ofDraft]
    show (Layout.place draft.codeSize 0 (Declaration.renumberAll place _)).map _ = _
    rw [place_renumber]
    cases Layout.place draft.codeSize 0 draft.declarations <;> rfl

end Layout

/-! ### The second reading -/

namespace Emission

theorem addLine_renumber (layout : Layout) (e : Emission) (l : Line) :
    e.addLine layout (l.renumber place) =
      (e.addLine layout l).mapError (AssemblyError.renumber place) := by
  unfold addLine Line.renumber
  cases (Statement.ofText e.current l.text).bind (e.add layout) <;> rfl

theorem addLines_renumber (layout : Layout) (e : Emission) (ls : List Line) :
    e.addLines layout (ls.map (Line.renumber place)) =
      (e.addLines layout ls).mapError (AssemblyError.renumber place) := by
  induction ls generalizing e with
  | nil => rfl
  | cons l ls ih =>
    rw [List.map_cons, addLines, addLines, addLine_renumber]
    cases e.addLine layout l with
    | error err => rfl
    | ok next => exact ih next

end Emission

/-- The same lines under other numbers have the same image, or the same error at the new number
of its line. -/
theorem assembleLines_renumber (place : Nat → Nat) (ls : List Line) :
    assembleLines (ls.map (Line.renumber place)) =
      (assembleLines ls).mapError (AssemblyError.renumber place) := by
  have hlayout : Layout.ofLines (ls.map (Line.renumber place)) =
      ((Layout.ofLines ls).map id).mapError (AssemblyError.renumber place) := by
    rw [Except.map_id]
    exact Layout.ofLines_renumber ls
  refine assembleLines_of_readings hlayout (fun _ => rfl) ?_
  intro layout _
  exact Emission.addLines_renumber layout .empty ls

end RegisterMachine
