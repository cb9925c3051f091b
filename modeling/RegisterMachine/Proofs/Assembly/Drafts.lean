import Mathlib.Data.List.Nodup
import RegisterMachine.Proofs.Assembly.FirstError

/-!
# RegisterMachine.Proofs.Assembly.Drafts

The first reading as a fold. What is made of the statements of a program is
`Draft.extendAll`, whether they can be taken or not; the first reading comes
through exactly if every line states something and the result is `Draft.Sound`
(`Draft.addLines_eq_ok_iff`). Each field of the result is then a function of the
statements alone.
-/

namespace RegisterMachine

namespace Line

/-- Every line states something in its section. -/
def Readable (current : Option Section) : List Line → Prop
  | [] => True
  | l :: ls =>
    (∃ s, Statement.ofText current l.text = .ok s) ∧ Readable (Section.next current l) ls

theorem instructions_eq_flatMap (current : Option Section) (ls : List Line) :
    instructions current ls =
      (statements current ls).flatMap fun entry => entry.2.instructions entry.1 := by
  induction ls generalizing current with
  | nil => rfl
  | cons l ls ih =>
    rw [instructions, statements]
    cases Statement.ofText current l.text with
    | error cause => exact ih _
    | ok s =>
      dsimp only
      rw [ih, List.flatMap_cons]

end Line

namespace Statement

/-- The labels of some statements, if the instructions among them begin at `address`. -/
def labelsFrom (address : Nat) : List Statement → List (Text × Nat)
  | [] => []
  | s :: ss =>
    s.labels address ++ labelsFrom (address + Draft.codeSizeOf (s.instructions 0)) ss

end Statement

namespace Draft

variable {draft next : Draft} {ss : List (Nat × Statement)}

/-- The draft with more statements, whether it can take them or not. -/
def extendAll (draft : Draft) : List (Nat × Statement) → Draft
  | [] => draft
  | (line, s) :: ss => (draft.extend line s).extendAll ss

/-- No name is used twice, and the code has addresses. -/
structure Sound (draft : Draft) : Prop where
  labels : (draft.labels.map Prod.fst).Nodup
  declarations : (draft.declarations.map fun entry => entry.2.name).Nodup
  codeSize : draft.codeSize < addressLimit

theorem sound_empty : Sound empty := ⟨List.nodup_nil, List.nodup_nil, by decide⟩

/-- A name is new to a list without repetitions if the list has none with it either. -/
theorem nodup_concat_iff {names : List Text} (h : names.Nodup) (name : Text) :
    (names ++ [name]).Nodup ↔ name ∉ names := by
  rw [← List.concat_eq_append, List.nodup_concat]
  exact and_iff_left h

/-- A sound draft can take a statement exactly if it stays sound. -/
theorem Sound.admits_iff (h : draft.Sound) (line : Nat) (s : Statement) :
    draft.Admits s ↔ (draft.extend line s).Sound := by
  -- only the field that the statement adds to can become unsound
  have hlabel (name : Text) :
      name ∉ draft.labels.map Prod.fst ↔
        ((draft.extend line (.label name)).labels.map Prod.fst).Nodup := by
    rw [extend, List.map_append]
    exact (nodup_concat_iff h.labels name).symm
  have hdeclaration (d : Declaration) :
      d.name ∉ draft.declarations.map (fun entry => entry.2.name) ↔
        ((draft.extend line (.declaration d)).declarations.map fun e => e.2.name).Nodup := by
    rw [extend, List.map_append]
    exact (nodup_concat_iff h.declarations d.name).symm
  have hnolabel : ((draft.labels ++ []).map Prod.fst).Nodup := by
    rw [List.append_nil]
    exact h.labels
  have hnodeclaration :
      ((draft.declarations ++ []).map fun entry : Nat × Declaration => entry.2.name).Nodup := by
    rw [List.append_nil]
    exact h.declarations
  cases s with
  | marker opened => exact iff_of_true trivial ⟨hnolabel, hnodeclaration, h.codeSize⟩
  | label name =>
    exact ⟨fun ha => ⟨(hlabel name).1 ha, hnodeclaration, h.codeSize⟩,
      fun hsound => (hlabel name).2 hsound.labels⟩
  | instruction i =>
    exact ⟨fun ha => ⟨hnolabel, hnodeclaration, ha⟩, fun hsound => hsound.codeSize⟩
  | declaration d =>
    exact ⟨fun ha => ⟨hnolabel, (hdeclaration d).1 ha, h.codeSize⟩,
      fun hsound => (hdeclaration d).2 hsound.declarations⟩

/-- What has become unsound stays so. -/
theorem Sound.of_extendAll (h : (draft.extendAll ss).Sound) : draft.Sound := by
  induction ss generalizing draft with
  | nil => exact h
  | cons entry ss ih =>
    obtain ⟨hlabels, hdeclarations, hsize⟩ := ih h
    rw [extend, List.map_append] at hlabels hdeclarations
    exact ⟨(List.nodup_append.1 hlabels).1, (List.nodup_append.1 hdeclarations).1,
      Nat.lt_of_le_of_lt (Nat.le_add_right _ _) hsize⟩

/-- The first reading comes through exactly if every line states something and what is made of
all statements is sound. -/
theorem addLines_eq_ok_iff (h : draft.Sound) {ls : List Line} :
    draft.addLines ls = .ok next ↔
      Line.Readable draft.current ls ∧
        next = draft.extendAll (Line.statements draft.current ls) ∧ next.Sound := by
  induction ls generalizing draft with
  | nil =>
    rw [addLines, Except.ok.injEq, Line.statements, extendAll, eq_comm]
    exact ⟨fun hnext => ⟨trivial, hnext, hnext ▸ h⟩, fun hnext => hnext.2.1⟩
  | cons l ls ih =>
    cases hs : Statement.ofText draft.current l.text with
    | error cause =>
      rw [addLines, addLine_of_unreadable hs]
      refine iff_of_false ?_ ?_
      · intro hok
        cases hok
      · rintro ⟨⟨⟨s, hl⟩, -⟩, -⟩
        cases hs.symm.trans hl
    | ok s =>
      have hnext : Section.next draft.current l = (draft.extend l.number s).current :=
        Statement.next_of_ofText hs
      rw [Line.statements, hs, Line.Readable, hnext]
      dsimp only
      by_cases ha : draft.Admits s
      · rw [addLines, addLine_of_admits hs ha]
        show (draft.extend l.number s).addLines ls = .ok next ↔ _
        rw [ih ((h.admits_iff l.number s).1 ha)]
        simp [hs, extendAll]
      · refine iff_of_false ?_ ?_
        · intro hok
          obtain ⟨d, hd, -⟩ := exists_of_bind_eq_ok hok
          obtain ⟨s', hs', hadd⟩ := exists_of_addLine hd
          cases hs.symm.trans hs'
          exact ha (add_eq_ok_iff.1 hadd).1
        · rintro ⟨-, rfl, hsound⟩
          exact ha ((h.admits_iff l.number s).2 (Sound.of_extendAll hsound))

theorem ofLines_eq_ok_iff {ls : List Line} :
    ofLines ls = .ok next ↔
      Line.Readable none ls ∧ next = empty.extendAll (Line.statements none ls) ∧ next.Sound :=
  addLines_eq_ok_iff sound_empty

/-! ### What is made of some statements -/

/-- Labels are bound by the statements of the main section alone. -/
theorem labels_extendAll (draft : Draft) (ss : List (Nat × Statement)) :
    (draft.extendAll ss).labels = draft.labels ++ Statement.labelsFrom draft.codeSize
      ((ss.map Prod.snd).filter fun s => s.home? = some .main) := by
  induction ss generalizing draft with
  | nil => simp [extendAll, Statement.labelsFrom]
  | cons entry ss ih =>
    obtain ⟨line, s⟩ := entry
    rw [extendAll, ih, List.map_cons]
    cases s <;> simp [extend, Statement.home?, Statement.labels, Statement.labelsFrom]

theorem codeSize_extendAll (draft : Draft) (ss : List (Nat × Statement)) :
    (draft.extendAll ss).codeSize =
      draft.codeSize + codeSizeOf (ss.flatMap fun entry => entry.2.instructions entry.1) := by
  induction ss generalizing draft with
  | nil => rfl
  | cons entry ss ih =>
    rw [extendAll, ih, List.flatMap_cons, codeSizeOf_append, extend, Nat.add_assoc]

theorem declarations_extendAll (draft : Draft) (ss : List (Nat × Statement)) :
    (draft.extendAll ss).declarations =
      draft.declarations ++ ss.flatMap fun entry => entry.2.declarations entry.1 := by
  induction ss generalizing draft with
  | nil => simp [extendAll]
  | cons entry ss ih => rw [extendAll, ih, List.flatMap_cons, extend, List.append_assoc]

/-- The numbers of the lines do not count. -/
theorem codeSizeOf_congr {is js : List (Nat × Instruction Text)}
    (h : is.map Prod.snd = js.map Prod.snd) : codeSizeOf is = codeSizeOf js := by
  induction is generalizing js with
  | nil => rw [List.map_eq_nil_iff.1 h.symm]
  | cons entry is ih =>
    cases js with
    | nil => cases h
    | cons other js =>
      obtain ⟨hsize, hrest⟩ := List.cons.inj h
      rw [codeSizeOf_cons, codeSizeOf_cons, hsize, ih hrest]

end Draft

end RegisterMachine
