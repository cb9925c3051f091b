import RegisterMachine.Assembly.Basic
import RegisterMachine.Proofs.Assembly.Declarations

/-!
# RegisterMachine.Proofs.Assembly.FirstError

Which error is reported, if there are several. Three things can go wrong: a line
is refused when it is read, there is no room for a declaration, a value is
unknown. They are looked for in this order, each over the whole program, and of
each kind the first one is reported.

`Verdict` says this without either reading, in terms of what the lines state,
and `assemble_verdict` that it is what the assembler answers: an error exactly if
it is the verdict, and an image exactly if there is no error to report. A line
that is refused is refused whatever follows it, so its error stays when more
lines are added.
-/

namespace RegisterMachine

/-! ### The first of a list -/

section

variable {α : Type} {p : List α → α → Prop} {xs before : List α} {x : α}

/-- No element has the property, which may depend on the elements before it. -/
def Nowhere (p : List α → α → Prop) (xs : List α) : Prop :=
  ∀ before x after, xs = before ++ x :: after → ¬p before x

/-- `x` is the first element with the property, and `before` are the elements before it. -/
structure Earliest (p : List α → α → Prop) (xs before : List α) (x : α) : Prop where
  split : ∃ after, xs = before ++ x :: after
  here : p before x
  nowhere : Nowhere p before

theorem nowhere_nil : Nowhere p [] := by
  intro before x after h
  exact absurd h.symm (by simp)

theorem nowhere_cons (hx : ¬p [] x) (h : Nowhere (fun before => p (x :: before)) xs) :
    Nowhere p (x :: xs) := by
  intro before y after hxs
  cases before with
  | nil =>
    cases hxs
    exact hx
  | cons z before =>
    cases hxs
    exact h before y after rfl

/-- Either there is no element with the property, or there is a first one. -/
theorem nowhere_or_earliest (p : List α → α → Prop) (xs : List α) :
    Nowhere p xs ∨ ∃ before x, Earliest p xs before x := by
  induction xs generalizing p with
  | nil => exact Or.inl nowhere_nil
  | cons x xs ih =>
    by_cases hx : p [] x
    · exact Or.inr ⟨[], x, ⟨xs, rfl⟩, hx, nowhere_nil⟩
    · rcases ih fun before => p (x :: before) with hno | ⟨before, y, ⟨after, rfl⟩, hy, hno⟩
      · exact Or.inl (nowhere_cons hx hno)
      · exact Or.inr ⟨x :: before, y, ⟨after, rfl⟩, hy, nowhere_cons hx hno⟩

/-- What is first stays first when more elements are added at the end. -/
theorem Earliest.mono {ys : List α} (h : Earliest p xs before x) (hsub : xs <+: ys) :
    Earliest p ys before x := by
  obtain ⟨⟨after, rfl⟩, hx, hno⟩ := h
  obtain ⟨more, rfl⟩ := hsub
  exact ⟨⟨after ++ more, by simp⟩, hx, hno⟩

end

/-! ### What can go wrong -/

/-- The line `l`, which stands behind the lines `before`, is refused when it is read: it states
nothing in its section, or it names something again, or its code has no address. -/
inductive Refused (before : List Line) (l : Line) : Cause → Prop
  | unreadable {cause : Cause} :
      Statement.ofText (Section.after none before) l.text = .error cause → Refused before l cause
  | label {name : Text} : States before l (.label name) → Stated before (.label name) →
      Refused before l (.duplicateLabel name)
  | buffer {d e : Declaration} : States before l (.declaration d) →
      Stated before (.declaration e) → e.name = d.name → Refused before l (.duplicateBuffer d.name)
  | code {i : Instruction Text} : States before l (.instruction i) →
      Draft.addressLimit ≤ Draft.codeSizeOf (Line.instructions none before) + i.size →
      Refused before l .codeTooLarge

/-- The line is refused, for one cause or another. -/
def RefusedLine (before : List Line) (l : Line) : Prop := ∃ cause, Refused before l cause

/-- The error is that of the first line that is refused. -/
def Refuses (lines : List Line) (e : AssemblyError) : Prop :=
  ∃ before l cause, Earliest RefusedLine lines before l ∧ Refused before l cause ∧
    e = ⟨l.number, cause⟩

/-- There is no room for a declaration behind the code of the program and the declarations
before it. -/
def Crowded (lines : List Line) (before : List (Nat × Declaration)) (entry : Nat × Declaration) :
    Prop :=
  ¬Layout.Room (Draft.codeSizeOf (Line.instructions none lines)) (Draft.dataSizeOf before) entry.2

/-- The text is neither a number nor a name that the program gives to a label or a buffer. -/
def Undefined (lines : List Line) (t : Text) : Prop :=
  Text.number? t = none ∧ ¬Stated lines (.label t) ∧
    ¬∃ d, Stated lines (.declaration d) ∧ d.name = t

/-- The instruction has a value that is undefined. -/
def Puzzling (lines : List Line) (entry : Nat × Instruction Text) : Prop :=
  ∃ t ∈ entry.2.values, Undefined lines t

/-- The error that is to be reported of a program, if there is one. Each rule but the first has
as its condition that those before it do not apply. -/
inductive Verdict (lines : List Line) : Option AssemblyError → Prop
  | refused {e : AssemblyError} : Refuses lines e → Verdict lines (some e)
  | crowded {before : List (Nat × Declaration)} {line : Nat} {d : Declaration} :
      Nowhere RefusedLine lines →
      Earliest (Crowded lines) (Line.declarations lines) before (line, d) →
      Verdict lines (some ⟨line, .dataTooLarge⟩)
  | undefined {before : List (Nat × Instruction Text)} {line : Nat} {i : Instruction Text}
      {front : List Text} {t : Text} :
      Nowhere RefusedLine lines → Nowhere (Crowded lines) (Line.declarations lines) →
      Earliest (fun _ => Puzzling lines) (Line.instructions none lines) before (line, i) →
      Earliest (fun _ => Undefined lines) i.values front t →
      Verdict lines (some ⟨line, .unknownSymbol t⟩)
  | assembled :
      Nowhere RefusedLine lines → Nowhere (Crowded lines) (Line.declarations lines) →
      Nowhere (fun _ => Puzzling lines) (Line.instructions none lines) → Verdict lines none

/-- The three rules and their absence leave nothing out. -/
theorem exists_verdict (lines : List Line) : ∃ e?, Verdict lines e? := by
  rcases nowhere_or_earliest RefusedLine lines with hread | ⟨before, l, hl⟩
  · rcases nowhere_or_earliest (Crowded lines) (Line.declarations lines) with
      hplaced | ⟨before, ⟨line, d⟩, hd⟩
    · rcases nowhere_or_earliest (fun _ => Puzzling lines) (Line.instructions none lines) with
        hknown | ⟨before, ⟨line, i⟩, hi⟩
      · exact ⟨_, .assembled hread hplaced hknown⟩
      · rcases nowhere_or_earliest (fun _ => Undefined lines) i.values with hno | ⟨front, t, ht⟩
        · obtain ⟨t, ht, hundefined⟩ := hi.here
          obtain ⟨front, back, hsplit⟩ := List.append_of_mem ht
          exact absurd hundefined (hno front t back hsplit)
        · exact ⟨_, .undefined hread hplaced hi ht⟩
    · exact ⟨_, .crowded hread hd⟩
  · obtain ⟨cause, hcause⟩ := hl.here
    exact ⟨_, .refused ⟨before, l, cause, hl, hcause, rfl⟩⟩

/-! ### Lines that are refused -/

namespace Draft

variable {draft : Draft} {l : Line} {s : Statement} {cause : Cause} {before ls : List Line}

/-- Whatever goes wrong in a line is reported with its number. -/
theorem addLine_eq_mapError (draft : Draft) (l : Line) :
    draft.addLine l = ((Statement.ofText draft.current l.text).bind
      (draft.add l.number)).mapError (AssemblyError.mk l.number) := by
  unfold addLine
  cases (Statement.ofText draft.current l.text).bind (draft.add l.number) <;> rfl

theorem addLine_of_unreadable (h : Statement.ofText draft.current l.text = .error cause) :
    draft.addLine l = .error ⟨l.number, cause⟩ := by
  rw [addLine, h]
  rfl

theorem addLine_of_add_error (hs : Statement.ofText draft.current l.text = .ok s)
    (h : draft.add l.number s = .error cause) : draft.addLine l = .error ⟨l.number, cause⟩ := by
  rw [addLine, hs, Except.bind, h]

theorem addLine_of_admits (hs : Statement.ofText draft.current l.text = .ok s)
    (h : draft.Admits s) : draft.addLine l = .ok (draft.extend l.number s) := by
  rw [addLine, hs, Except.bind, add_eq_ok_iff.2 ⟨h, rfl⟩]

/-- A line that is refused is an error, with its own number. -/
theorem Covers.addLine_of_refused (hd : draft.Covers before) (h : Refused before l cause) :
    draft.addLine l = .error ⟨l.number, cause⟩ := by
  cases h with
  | unreadable hs =>
    rw [← hd.current] at hs
    exact addLine_of_unreadable hs
  | label hs hstated =>
    unfold States at hs
    rw [← hd.current] at hs
    exact addLine_of_add_error hs (if_pos ((hd.labels _).2 hstated))
  | buffer hs hstated hname =>
    unfold States at hs
    rw [← hd.current] at hs
    exact addLine_of_add_error hs (if_pos ((hd.declarations _).2 ⟨_, hstated, hname⟩))
  | code hs hsize =>
    unfold States at hs
    rw [← hd.current] at hs
    rw [← hd.codeSize] at hsize
    exact addLine_of_add_error hs (if_neg (by omega))

/-- A line that is not refused is read. -/
theorem Covers.exists_addLine (hd : draft.Covers before) (h : ¬RefusedLine before l) :
    ∃ next, draft.addLine l = .ok next := by
  cases hs : Statement.ofText draft.current l.text with
  | error cause =>
    rw [hd.current] at hs
    exact absurd ⟨cause, .unreadable hs⟩ h
  | ok s =>
    by_cases ha : draft.Admits s
    · exact ⟨_, addLine_of_admits hs ha⟩
    · rw [hd.current] at hs
      refine absurd ?_ h
      cases s with
      | marker opened => exact absurd trivial ha
      | label name => exact ⟨_, .label hs ((hd.labels name).1 (Decidable.not_not.1 ha))⟩
      | instruction i =>
        have hsize : ¬draft.codeSize + i.size < addressLimit := ha
        rw [hd.codeSize] at hsize
        exact ⟨_, .code hs (by omega)⟩
      | declaration d =>
        obtain ⟨e, he, hname⟩ := (hd.declarations d.name).1 (Decidable.not_not.1 ha)
        exact ⟨_, .buffer hs he hname⟩

theorem Covers.exists_addLines (hd : draft.Covers before)
    (h : Nowhere (fun front => RefusedLine (before ++ front)) ls) :
    ∃ next, draft.addLines ls = .ok next := by
  induction ls generalizing draft before with
  | nil => exact ⟨draft, rfl⟩
  | cons l ls ih =>
    have hl : ¬RefusedLine before l := by simpa using h [] l ls rfl
    obtain ⟨next, hnext⟩ := hd.exists_addLine hl
    obtain ⟨last, hlast⟩ := ih (hd.addLine hnext) (by
      intro front m back hls
      simpa using h (l :: front) m back (by rw [hls]; rfl))
    exact ⟨last, by rw [Draft.addLines, hnext]; exact hlast⟩

/-- The first reading comes through lines of which none is refused. -/
theorem exists_of_nowhere (h : Nowhere RefusedLine ls) : ∃ draft, ofLines ls = .ok draft :=
  covers_empty.exists_addLines h

/-- The first line that is refused ends the first reading. -/
theorem ofLines_of_refuses {e : AssemblyError} (h : Refuses ls e) : ofLines ls = .error e := by
  obtain ⟨before, l, cause, ⟨⟨after, rfl⟩, -, hno⟩, hcause, rfl⟩ := h
  obtain ⟨draft, hdraft⟩ := exists_of_nowhere hno
  have hline := (covers_of_ofLines hdraft).addLine_of_refused hcause
  unfold ofLines at hdraft ⊢
  rw [addLines_append, hdraft, Except.bind, addLines, hline]
  rfl

end Draft

/-! ### Declarations without room -/

namespace Layout

variable {lines : List Line}

/-- A program that can be read is laid out if its declarations can be placed. -/
theorem ofLines_of_nowhere (h : Nowhere RefusedLine lines) :
    ∃ draft, Draft.ofLines lines = .ok draft ∧
      Layout.ofLines lines =
        (place (Draft.codeSizeOf (Line.instructions none lines)) 0 (Line.declarations lines)).map
          fun placed => ⟨draft.codeSize, placed.2, draft.labels, placed.1, draft.hasMain⟩ := by
  obtain ⟨draft, hdraft⟩ := Draft.exists_of_nowhere h
  refine ⟨draft, hdraft, ?_⟩
  rw [ofLines, hdraft, Except.bind, ofDraft, (Draft.covers_of_ofLines hdraft).codeSize,
    (Draft.lists_of_ofLines hdraft).declarations]

theorem ofLines_of_crowded {before : List (Nat × Declaration)} {line : Nat} {d : Declaration}
    (h : Nowhere RefusedLine lines)
    (hd : Earliest (Crowded lines) (Line.declarations lines) before (line, d)) :
    ofLines lines = .error ⟨line, .dataTooLarge⟩ := by
  obtain ⟨draft, -, hlayout⟩ := ofLines_of_nowhere h
  obtain ⟨⟨after, hsplit⟩, hcrowded, hno⟩ := hd
  have hbefore : ∃ placed,
      place (Draft.codeSizeOf (Line.instructions none lines)) 0 before = .ok placed := by
    refine exists_place_iff.2 ?_
    intro front entry back hfront
    rw [Nat.zero_add]
    exact Decidable.not_not.1 (hno front entry back hfront)
  obtain ⟨buffers, hplace⟩ := place_append ((line, d) :: after) hbefore
  have hroom : ¬Room (Draft.codeSizeOf (Line.instructions none lines))
      (0 + Draft.dataSizeOf before) d := by simpa [Crowded] using hcrowded
  rw [hlayout, hsplit, hplace, place_cons_of_not_room hroom]
  rfl

theorem exists_of_roomy (h : Nowhere RefusedLine lines)
    (hroom : Nowhere (Crowded lines) (Line.declarations lines)) :
    ∃ layout, ofLines lines = .ok layout := by
  obtain ⟨draft, -, hlayout⟩ := ofLines_of_nowhere h
  have hplace : ∃ placed, place (Draft.codeSizeOf (Line.instructions none lines)) 0
      (Line.declarations lines) = .ok placed := by
    refine exists_place_iff.2 ?_
    intro before entry after hsplit
    rw [Nat.zero_add]
    exact Decidable.not_not.1 (hroom before entry after hsplit)
  obtain ⟨placed, hplaced⟩ := hplace
  exact ⟨_, by rw [hlayout, hplaced]; rfl⟩

/-- A layout knows the names that the program gives, and no others. -/
theorem unknown_iff {layout : Layout} (h : ofLines lines = .ok layout) {t : Text} :
    layout.Unknown t ↔ Undefined lines t := by
  obtain ⟨draft, hdraft, -, hlabels, hbuffers⟩ := exists_of_ofLines h
  have hcovers := Draft.covers_of_ofLines hdraft
  rw [Unknown, Undefined, hlabels, hbuffers, hcovers.labels, hcovers.declarations]

end Layout

/-! ### Values that are not known -/

/-- What the instructions of some lines are taken apart into, the lines are, too. -/
theorem Line.exists_of_instructions {current : Option Section} {lines : List Line}
    {is js : List (Nat × Instruction Text)} {line : Nat} {i : Instruction Text}
    (h : instructions current lines = is ++ (line, i) :: js) :
    ∃ before l after, lines = before ++ l :: after ∧
      Statement.ofText (Section.after current before) l.text = .ok (.instruction i) ∧
      l.number = line ∧ instructions current before = is := by
  induction lines generalizing current is with
  | nil => exact absurd h.symm (by simp [instructions])
  | cons m lines ih =>
    cases hm : Statement.ofText current m.text with
    | error cause =>
      rw [instructions, hm] at h
      obtain ⟨before, l, after, hlines, hl, hline, hbefore⟩ := ih h
      exact ⟨m :: before, l, after, by rw [hlines]; rfl, hl, hline, by
        rw [instructions, hm]; exact hbefore⟩
    | ok s =>
      rw [instructions, hm] at h
      dsimp only at h
      -- the instruction is that of the first line, or of one behind it
      cases s with
      | instruction j =>
        cases is with
        | nil =>
          rw [Statement.instructions_instruction, List.singleton_append, List.nil_append] at h
          cases h
          exact ⟨[], m, lines, rfl, hm, rfl, rfl⟩
        | cons entry is =>
          rw [Statement.instructions_instruction, List.singleton_append, List.cons_append] at h
          obtain ⟨rfl, hrest⟩ := List.cons.inj h
          obtain ⟨before, l, after, hlines, hl, hline, hbefore⟩ := ih hrest
          refine ⟨m :: before, l, after, by rw [hlines]; rfl, hl, hline, ?_⟩
          rw [instructions, hm]
          simp [hbefore]
      | _ =>
        obtain ⟨before, l, after, hlines, hl, hline, hbefore⟩ := ih h
        exact ⟨m :: before, l, after, by rw [hlines]; rfl, hl, hline, by
          rw [instructions, hm]; exact hbefore⟩

/-- An operand is the only place for a value among its values. -/
theorem Operand.given?_of_split {α : Type} {o : Operand α} {front back : List α} {v : α}
    (h : [o].filterMap given? = front ++ v :: back) : o.given? = some v := by
  cases o with
  | register r => exact absurd h.symm (List.append_ne_nil_of_right_ne_nil _ (List.cons_ne_nil _ _))
  | immediate u =>
    have hone : [u] = front ++ v :: back := h
    obtain ⟨rfl, rfl⟩ : front = [] ∧ u = v := by cases front <;> simp_all
    rfl
  | memory a =>
    have hone : [a] = front ++ v :: back := h
    obtain ⟨rfl, rfl⟩ : front = [] ∧ a = v := by cases front <;> simp_all
    rfl

theorem Operand.resolve_of_given {α β ε : Type} {f : α → Except ε β} {o : Operand α} {v : α}
    {e : ε} (hv : o.given? = some v) (he : f v = .error e) : o.resolve f = .error e := by
  cases o with
  | register r => cases hv
  | immediate u =>
    cases hv
    rw [resolve, he]
    rfl
  | memory a =>
    cases hv
    rw [resolve, he]
    rfl

theorem Direct.resolve_of_given {α β ε : Type} {f : α → Except ε β} {d : Direct α} {v : α}
    {e : ε} (hv : d.toOperand.given? = some v) (he : f v = .error e) :
    d.resolve f = .error e := by
  cases d with
  | register r => cases hv
  | immediate u =>
    cases hv
    rw [resolve, he]
    rfl

/-- The first value that is not found is the one whose error is reported. -/
theorem Instruction.resolve_of_earliest {α β ε : Type} {f : α → Except ε β} {i : Instruction α}
    {front : List α} {v : α} {e : ε}
    (h : Earliest (fun _ v => ∃ e, f v = .error e) i.values front v) (he : f v = .error e) :
    i.resolve f = .error e := by
  obtain ⟨⟨back, hvalues⟩, -, hno⟩ := h
  cases i with
  | nop => exact absurd hvalues (by simp [values, operands])
  | syscall => exact absurd hvalues (by simp [values, operands])
  | move dst src =>
    rw [resolve, Operand.resolve_of_given (Operand.given?_of_split hvalues) he]
    rfl
  | arith op dst src =>
    rw [resolve, Operand.resolve_of_given (Operand.given?_of_split hvalues) he]
    rfl
  | cmp left right =>
    rw [resolve, Operand.resolve_of_given (Operand.given?_of_split hvalues) he]
    rfl
  | branch c target =>
    rw [resolve, Direct.resolve_of_given (Operand.given?_of_split hvalues) he]
    rfl
  | store address src =>
    -- the only instruction that may have two values
    cases front with
    | nil =>
      obtain ⟨rfl, -⟩ := List.cons.inj hvalues
      rw [resolve, he]
      rfl
    | cons first front =>
      obtain ⟨rfl, hsrc⟩ := List.cons.inj hvalues
      cases ha : f address with
      | error e => exact absurd ⟨e, ha⟩ (hno [] address front rfl)
      | ok a =>
        rw [resolve, ha, Except.bind, Direct.resolve_of_given (Operand.given?_of_split hsrc) he]
        rfl

namespace Emission

variable {layout : Layout} {lines : List Line}

theorem addLine_eq_mapError (layout : Layout) (e : Emission) (l : Line) :
    e.addLine layout l = ((Statement.ofText e.current l.text).bind
      (e.add layout)).mapError (AssemblyError.mk l.number) := by
  unfold addLine
  cases (Statement.ofText e.current l.text).bind (e.add layout) <;> rfl

theorem addLines_append (layout : Layout) (e : Emission) (ls ms : List Line) :
    e.addLines layout (ls ++ ms) = (e.addLines layout ls).bind fun e => e.addLines layout ms := by
  induction ls generalizing e with
  | nil => rfl
  | cons l ls ih =>
    rw [List.cons_append, addLines, addLines]
    cases e.addLine layout l with
    | error err => rfl
    | ok next => exact ih next

/-- The second reading comes through lines in which no value is undefined. -/
theorem exists_of_nowhere {ls : List Line} {draft : Draft} (h : Layout.ofLines lines = .ok layout)
    (hdraft : Draft.ofLines ls = .ok draft)
    (hno : Nowhere (fun _ => Puzzling lines) (Line.instructions none ls)) :
    ∃ e, ofLines layout ls = .ok e := by
  cases he : ofLines layout ls with
  | ok e => exact ⟨e, rfl⟩
  | error err =>
    obtain ⟨line, i, t, hmem, ht, hunknown⟩ := (error_iff_unknown hdraft).1 ⟨err, he⟩
    obtain ⟨is, js, his⟩ := List.append_of_mem hmem
    exact absurd ⟨t, ht, (Layout.unknown_iff h).1 hunknown⟩ (hno is (line, i) js his)

/-- The first undefined value of the first instruction that has one ends the second reading. -/
theorem ofLines_of_undefined {before : List (Nat × Instruction Text)} {line : Nat}
    {i : Instruction Text} {front : List Text} {t : Text} (h : Layout.ofLines lines = .ok layout)
    (hi : Earliest (fun _ => Puzzling lines) (Line.instructions none lines) before (line, i))
    (ht : Earliest (fun _ => Undefined lines) i.values front t) :
    ofLines layout lines = .error ⟨line, .unknownSymbol t⟩ := by
  obtain ⟨draft, hdraft, -⟩ := Layout.exists_of_ofLines h
  obtain ⟨⟨after, hsplit⟩, -, hno⟩ := hi
  obtain ⟨ls, l, ms, hlines, hl, rfl, rfl⟩ := Line.exists_of_instructions hsplit
  -- nothing is unknown in front of the line, so the second reading comes to it
  obtain ⟨e, he⟩ : ∃ e, ofLines layout ls = .ok e := by
    rw [hlines] at hdraft
    obtain ⟨d, hd, -⟩ := Draft.exists_of_addLines_append hdraft
    exact exists_of_nowhere h hd hno
  have hresolve : i.resolve layout.value = .error t := by
    have herror (u : Text) : (∃ e, layout.value u = .error e) ↔ Undefined lines u := by
      simp [Layout.value_eq_error_iff, Layout.unknown_iff h]
    have hfirst : Earliest (fun _ u => ∃ e, layout.value u = .error e) i.values front t := by
      simpa only [herror] using ht
    exact Instruction.resolve_of_earliest hfirst
      (Layout.value_eq_error_iff.2 ⟨rfl, (Layout.unknown_iff h).2 ht.here⟩)
  have hline : e.addLine layout l = .error ⟨l.number, .unknownSymbol t⟩ := by
    rw [addLine, (covers_of_ofLines he).current, hl, Except.bind, add, hresolve]
  unfold ofLines at he ⊢
  rw [hlines, addLines_append, he, Except.bind, addLines, hline]
  rfl

end Emission

/-! ### The verdict -/

theorem assembleLines_of_layout_error {lines : List Line} {e : AssemblyError}
    (h : Layout.ofLines lines = .error e) : assembleLines lines = .error e := by
  unfold assembleLines
  rw [h]
  rfl

theorem assembleLines_of_emission_error {lines : List Line} {layout : Layout} {e : AssemblyError}
    (hl : Layout.ofLines lines = .ok layout) (he : Emission.ofLines layout lines = .error e) :
    assembleLines lines = .error e := by
  unfold assembleLines
  rw [hl]
  show (Emission.ofLines layout lines >>= _) = _
  rw [he]
  rfl

theorem assembleLines_of_ok {lines : List Line} {layout : Layout} {emission : Emission}
    (hl : Layout.ofLines lines = .ok layout) (he : Emission.ofLines layout lines = .ok emission) :
    assembleLines lines = .ok ⟨0, emission.code.toList, List.replicate layout.dataSize 0⟩ := by
  unfold assembleLines
  rw [hl]
  show (Emission.ofLines layout lines >>= _) = _
  rw [he]
  rfl

/-- If the readings of two programs correspond, then so do their errors, and they have the same
image if they have one. -/
theorem assembleLines_of_readings {ls ms : List Line} {f : Layout → Layout}
    {g : AssemblyError → AssemblyError}
    (hlayout : Layout.ofLines ms = ((Layout.ofLines ls).map f).mapError g)
    (hsize : ∀ layout, (f layout).dataSize = layout.dataSize)
    (hemission : ∀ layout, Layout.ofLines ls = .ok layout →
      Emission.ofLines (f layout) ms = (Emission.ofLines layout ls).mapError g) :
    assembleLines ms = (assembleLines ls).mapError g := by
  cases hl : Layout.ofLines ls with
  | error e =>
    rw [hl] at hlayout
    rw [assembleLines_of_layout_error hlayout, assembleLines_of_layout_error hl]
    rfl
  | ok layout =>
    rw [hl] at hlayout
    have hreading := hemission layout hl
    cases he : Emission.ofLines layout ls with
    | error e =>
      rw [he] at hreading
      rw [assembleLines_of_emission_error hlayout hreading, assembleLines_of_emission_error hl he]
      rfl
    | ok emission =>
      rw [he] at hreading
      rw [assembleLines_of_ok hlayout hreading, assembleLines_of_ok hl he, hsize]
      rfl

namespace Refuses

variable {lines more : List Line} {e : AssemblyError}

theorem assembleLines (h : Refuses lines e) :
    RegisterMachine.assembleLines lines = .error e := by
  refine assembleLines_of_layout_error ?_
  rw [Layout.ofLines, Draft.ofLines_of_refuses h]
  rfl

/-- What stands behind a refused line does not matter. -/
theorem mono (h : Refuses lines e) (hsub : lines <+: more) : Refuses more e := by
  obtain ⟨before, l, cause, hl, hcause, he⟩ := h
  exact ⟨before, l, cause, hl.mono hsub, hcause, he⟩

end Refuses

namespace Verdict

variable {lines : List Line}

/-- The error that is to be reported is reported. -/
theorem assembleLines_error {e : AssemblyError} (h : Verdict lines (some e)) :
    assembleLines lines = .error e := by
  cases h with
  | refused hrefuses => exact hrefuses.assembleLines
  | crowded hread hcrowded =>
    exact assembleLines_of_layout_error (Layout.ofLines_of_crowded hread hcrowded)
  | undefined hread hroom hi ht =>
    obtain ⟨layout, hlayout⟩ := Layout.exists_of_roomy hread hroom
    exact assembleLines_of_emission_error hlayout (Emission.ofLines_of_undefined hlayout hi ht)

/-- A program of which no error is to be reported has an image. -/
theorem exists_image (h : Verdict lines none) : ∃ image, assembleLines lines = .ok image := by
  cases h with
  | assembled hread hroom hknown =>
    obtain ⟨layout, hlayout⟩ := Layout.exists_of_roomy hread hroom
    obtain ⟨draft, hdraft, -⟩ := Layout.exists_of_ofLines hlayout
    obtain ⟨emission, hemission⟩ := Emission.exists_of_nowhere hlayout hdraft hknown
    exact ⟨_, assembleLines_of_ok hlayout hemission⟩

theorem error_iff {e : AssemblyError} :
    assembleLines lines = .error e ↔ Verdict lines (some e) := by
  refine ⟨?_, assembleLines_error⟩
  intro h
  obtain ⟨e?, hverdict⟩ := exists_verdict lines
  cases e? with
  | none =>
    obtain ⟨image, himage⟩ := hverdict.exists_image
    cases h.symm.trans himage
  | some f =>
    cases h.symm.trans hverdict.assembleLines_error
    exact hverdict

theorem ok_iff : (∃ image, assembleLines lines = .ok image) ↔ Verdict lines none := by
  refine ⟨?_, exists_image⟩
  rintro ⟨image, h⟩
  obtain ⟨e?, hverdict⟩ := exists_verdict lines
  cases e? with
  | none => exact hverdict
  | some f => cases h.symm.trans hverdict.assembleLines_error

end Verdict

/-- Text on new lines leaves the lines before it as they are. -/
theorem Line.ofText_prefix (source more : String) :
    Line.ofText source.toList <+: Line.ofText (source ++ "\n" ++ more).toList := by
  have htext : (source ++ "\n" ++ more).toList = source.toList ++ '\n' :: more.toList := by simp
  rw [Line.ofText, Line.ofText, htext, Text.pieces_append_cons, Line.numberFrom_append]
  exact List.prefix_append _ _

/-- The assembler reports the error of the verdict and no other, and assembles the program if
there is none. The error of a refused line stays whatever is added behind it, and the number in
it is that of the line in the text. -/
theorem assemble_verdict (source : String) :
    (∀ e, assemble source = .error e ↔ Verdict (Line.ofText source.toList) (some e)) ∧
    ((∃ image, assemble source = .ok image) ↔ Verdict (Line.ofText source.toList) none) ∧
    (∀ e, Refuses (Line.ofText source.toList) e →
      (∀ more : String, assemble (source ++ "\n" ++ more) = .error e) ∧
      ∀ extended : String, Line.ofText source.toList <+: Line.ofText extended.toList →
        assemble extended = .error e) ∧
    ∀ l ∈ Line.ofText source.toList, 1 ≤ l.number ∧
      ((Text.pieces '\n' source.toList)[l.number - 1]?).map Line.content = some l.text := by
  refine ⟨fun e => Verdict.error_iff, Verdict.ok_iff, ?_, ?_⟩
  · intro e he
    have hextended (extended : String)
        (hsub : Line.ofText source.toList <+: Line.ofText extended.toList) :
        assemble extended = .error e := (he.mono hsub).assembleLines
    exact ⟨fun more => hextended _ (Line.ofText_prefix source more), hextended⟩
  · intro l hl
    exact ⟨Line.le_number hl, Line.content_at_number hl⟩

/-- A program with an error of each kind: a symbol without a place, a buffer without room, and
two lines that are refused. -/
def mistaken : String :=
  "_main:\nmov r1, [missing]\n_data:\nDB big[-1]\nDB small[1]\nDB big[2]\n_main:\nhalt"

/-- The line that is refused first is the one that counts, although it stands behind the others,
and a declaration of the missing symbol does not change that. -/
theorem assemble_verdict_mistaken :
    Refuses (Line.ofText mistaken.toList) ⟨6, .duplicateBuffer "big".toList⟩ ∧
      assemble (mistaken ++ "\n" ++ "_data:\nDB missing[4]") =
        .error ⟨6, .duplicateBuffer "big".toList⟩ := by
  obtain ⟨herror, -, hrefuses, -⟩ := assemble_verdict mistaken
  have hverdict : Verdict (Line.ofText mistaken.toList)
      (some ⟨6, .duplicateBuffer "big".toList⟩) := (herror _).1 rfl
  have hrefused : Refuses (Line.ofText mistaken.toList) ⟨6, .duplicateBuffer "big".toList⟩ := by
    cases hverdict with
    | refused h => exact h
  exact ⟨hrefused, (hrefuses _ hrefused).1 _⟩

end RegisterMachine
