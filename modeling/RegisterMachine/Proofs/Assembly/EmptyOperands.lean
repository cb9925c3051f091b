import RegisterMachine.Proofs.Assembly.FirstError
import RegisterMachine.Proofs.Assembly.Grammar

/-!
# RegisterMachine.Proofs.Assembly.EmptyOperands

No program has an operand that is empty. Reading a line does not see to that: an
operand without a text is an immediate value, or an address, whose name is the
empty text, and the line is an instruction like another one if its operation
takes such a value. It is the tables that refuse it. No line states an empty label
or a buffer without a name (`undefined_nil`), whatever else the program declares, and
the empty text is no number, so it has no value in any layout and the second reading
does not come to its end (`assemble_of_emptyOperand`).
-/

namespace RegisterMachine

/-! ### Operands without a text -/

/-- The text of the operand is blank, or there is nothing but blanks between its brackets. -/
def Operand.IsEmpty (t : Text) : Prop :=
  (∀ c ∈ t, Text.isBlank c = true) ∨
    ∃ inside, Text.trim t = '[' :: (inside ++ [']']) ∧ ∀ c ∈ inside, Text.isBlank c = true

/-- The line, behind the lines `before`, stands in the main section, is neither a marker nor a
label, and lists an operand that is empty. -/
inductive Line.HasEmptyOperand (before : List Line) (l : Line) : Prop
  | mk {mnemonic rest t : Text} {texts : List Text} : Section.after none before = some .main →
      (∀ opened : Section, l.text ≠ opened.marker) → l.text.getLast? ≠ some ':' →
      Grammar.Heads l.text mnemonic rest → Grammar.Lists rest texts → t ∈ texts →
      Operand.IsEmpty t → HasEmptyOperand before l

/-- An empty operand is read as a value, the name of which is the empty text. -/
theorem Operand.given?_of_isEmpty {t : Text} (h : IsEmpty t) : (ofText t).given? = some [] := by
  rcases h with hblank | ⟨inside, ht, hblank⟩
  · rw [← Text.trim_eq_nil_iff] at hblank
    have hname : Register.ofName? (Text.trim t) = none := by
      rw [hblank]
      decide
    have hbracket : ∀ address, Text.trim t ≠ '[' :: (address ++ [']']) := by simp [hblank]
    rw [Grammar.ofText_of_no_bracket hname hbracket, hblank, given?_immediate]
  · rw [Grammar.ofText_of_bracket ht, Text.trim_eq_nil_iff.2 hblank, given?_memory]

/-- If the line is an instruction at all, then one of its values is the empty text. -/
theorem Line.HasEmptyOperand.nil_mem_values {before : List Line} {l : Line} {s : Statement}
    (h : l.HasEmptyOperand before) (hs : States before l s) :
    ∃ i, s = .instruction i ∧ [] ∈ i.values := by
  cases h with
  | @mk mnemonic rest t texts hmain hmarker hlabel hheads hlists ht hempty =>
    unfold States at hs
    rw [hmain, Grammar.ofText_of_instruction hmarker hlabel] at hs
    obtain ⟨i, hi, rfl⟩ := exists_of_map_eq_ok hs
    refine ⟨i, rfl, ?_⟩
    -- the operands that the line lists are those of the instruction
    have hspells : Grammar.Spells l.text mnemonic (texts.map Operand.ofText) :=
      ⟨rest, texts, hheads, hlists, Grammar.forall₂_writes_iff.2 rfl⟩
    have hoperands : i.operands = texts.map Operand.ofText := by
      cases Grammar.instruction_ofText_eq_iff.1 hi with
      | known hs' _ hverdict =>
        cases hverdict with
        | legal _ _ _ hos =>
          rw [hos, ← (Grammar.spells_iff.1 hs').2, (Grammar.spells_iff.1 hspells).2]
    rw [Instruction.mem_values]
    refine ⟨Operand.ofText t, ?_, Operand.given?_of_isEmpty hempty⟩
    rw [hoperands]
    exact List.mem_map_of_mem ht

/-! ### Names -/

variable {lines : List Line}

theorem not_stated_label_nil (lines : List Line) : ¬Stated lines (.label []) := by
  intro ⟨_, _, _, _, hl⟩
  exact Statement.label_ne_nil hl rfl

theorem not_stated_nameless (lines : List Line) :
    ¬∃ d, Stated lines (.declaration d) ∧ d.name = [] := by
  intro ⟨d, ⟨before, l, after, _, hl⟩, hname⟩
  exact Statement.declaration_name_ne_nil hl hname

/-- The empty text has no meaning, whatever the program declares. -/
theorem undefined_nil (lines : List Line) : Undefined lines [] :=
  ⟨Text.number?_eq_none_of_trim_eq_nil Text.trim_nil, not_stated_label_nil lines,
    not_stated_nameless lines⟩

/-- A program of which some line has an empty operand has an error to be reported. -/
theorem Line.HasEmptyOperand.not_verdict_none {before after : List Line} {l : Line}
    (h : l.HasEmptyOperand before) : ¬Verdict (before ++ l :: after) none := by
  intro hverdict
  cases hverdict with
  | assembled hread _ hknown =>
    cases hs : Statement.ofText (Section.after none before) l.text with
    | error cause => exact hread before l after rfl ⟨cause, .unreadable hs⟩
    | ok s =>
      obtain ⟨i, rfl, hnil⟩ := h.nil_mem_values hs
      have hsplit : instructions none (before ++ l :: after) = _ := States.instructions_split hs
      rw [Statement.instructions_instruction, List.singleton_append] at hsplit
      exact hknown _ _ _ hsplit ⟨[], hnil, undefined_nil _⟩

/-- A line of the main section with an empty operand is an error, whatever else the program says:
no layout binds the empty name, and it has no value in any. -/
theorem assemble_of_emptyOperand :
    (∀ (source : String) (before : List Line) (l : Line) (after : List Line),
      Line.ofText source.toList = before ++ l :: after → l.HasEmptyOperand before →
        ∃ e, assemble source = .error e) ∧
    ∀ (lines : List Line) (layout : Layout), Layout.ofLines lines = .ok layout →
      layout.labels.lookup [] = none ∧ layout.buffers.lookup [] = none ∧
        layout.resolve [] = none := by
  refine ⟨?_, ?_⟩
  · intro source before l after hlines h
    cases hassemble : assemble source with
    | error e => exact ⟨e, rfl⟩
    | ok image =>
      have hverdict := Verdict.ok_iff.1 ⟨image, hassemble⟩
      rw [hlines] at hverdict
      exact absurd hverdict h.not_verdict_none
  · intro lines layout h
    have hunknown : layout.Unknown [] := (Layout.unknown_iff h).2 (undefined_nil lines)
    exact ⟨lookup_eq_none_iff_not_mem.2 hunknown.2.1, lookup_eq_none_iff_not_mem.2 hunknown.2.2,
      Layout.resolve_eq_none_iff.2 hunknown⟩

/-- A program of which every line is read, and the last one stores into nothing. -/
def bareStore : String := "_data:\nDB buf[4]\n_main:\nhere:\njmp here\nmov [ ] , r3,"

theorem assemble_of_emptyOperand_bareStore :
    (∃ e, assemble bareStore = .error e) ∧
      ∃ layout, Layout.ofLines (Line.ofText bareStore.toList) = .ok layout ∧
        layout.resolve "here".toList = some 0 ∧ layout.resolve [] = none := by
  obtain ⟨hprograms, hlayouts⟩ := assemble_of_emptyOperand
  have hlines : Line.ofText bareStore.toList =
      [⟨1, "_data:".toList⟩, ⟨2, "DB buf[4]".toList⟩, ⟨3, "_main:".toList⟩, ⟨4, "here:".toList⟩,
        ⟨5, "jmp here".toList⟩] ++ ⟨6, "mov [ ] , r3,".toList⟩ :: [] := by decide
  have hheads : Grammar.Heads "mov [ ] , r3,".toList "mov".toList "[ ] , r3,".toList :=
    Grammar.heads_iff.2 (by decide)
  have hlists : Grammar.Lists "[ ] , r3,".toList ["[ ] ".toList, " r3".toList] :=
    Grammar.lists_iff.2 (by decide)
  have hmarker (opened : Section) : "mov [ ] , r3,".toList ≠ opened.marker := by
    cases opened <;> decide
  have hempty : Operand.IsEmpty "[ ] ".toList :=
    Or.inr ⟨[' '], by decide, List.forall_mem_singleton.2 rfl⟩
  have hlayout : Layout.ofLines (Line.ofText bareStore.toList) =
      .ok ⟨13, 4, [("here".toList, 0)], [("buf".toList, 13)], true⟩ := rfl
  refine ⟨hprograms bareStore _ _ _ hlines ?_, _, hlayout, by decide, (hlayouts _ _ hlayout).2.2⟩
  exact .mk (by decide) hmarker (by decide) hheads hlists List.mem_cons_self hempty

end RegisterMachine
