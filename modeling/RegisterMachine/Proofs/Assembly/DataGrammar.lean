import RegisterMachine.Assembly.Layout
import RegisterMachine.Proofs.Text.Numerals

/-!
# RegisterMachine.Proofs.Assembly.DataGrammar

The grammar of a line in the data section, `DB name[size]`. Four questions are
asked of a line, in this order: does it begin with the keyword
(`Declaration.Opens`), are the brackets where they have to be and is there
anything between them (`Declaration.Bracketed`), is there a name, and is the size
a number (`Declaration.Reading`). The reader takes the first opening bracket and
a closing bracket at the end; the grammar only says that there is no other, so
the two agree on every text, however its brackets are nested.

A name needs little to be declared (`Declaration.Declarable`). What is written
is then what is declared, down to the buffer that a program of this one line has.
-/

namespace RegisterMachine

namespace Declaration

variable {s rest name size : Text} {r : Except Cause Declaration}

/-! ### The grammar -/

/-- The line begins with the keyword, in any case, and one of the five blanks of ASCII. The rest
of it is trimmed. -/
inductive Opens : Text → Text → Prop
  | keyword {keyword tail : Text} {c : Char} : Text.lower keyword = ['d', 'b'] →
      c ∈ [' ', '\t', '\n', '\x0C', '\r'] → Opens (keyword ++ c :: tail) (Text.trim tail)

/-- The text is a name and behind it a size in square brackets, which are the only ones, but that
a closing one may stand in the name. -/
structure Bracketed (s name size : Text) : Prop where
  split : s = name ++ '[' :: (size ++ [']'])
  name : '[' ∉ name
  size : '[' ∉ size ∧ ']' ∉ size

/-- What becomes of a line: the first of the errors that applies, or a declaration. -/
inductive Reading (s : Text) : Except Cause Declaration → Prop
  | foreign : (∀ rest, ¬Opens s rest) → Reading s (.error .notADeclaration)
  | unbracketed {rest : Text} : Opens s rest → (∀ name size, ¬Bracketed rest name size) →
      Reading s (.error .malformedDeclaration)
  | sizeless {rest name size : Text} : Opens s rest → Bracketed rest name size →
      Text.trim size = [] → Reading s (.error .malformedDeclaration)
  | nameless {rest name size : Text} : Opens s rest → Bracketed rest name size →
      Text.trim size ≠ [] → Text.trim name = [] → Reading s (.error .missingName)
  | unreadable {rest name size : Text} : Opens s rest → Bracketed rest name size →
      Text.trim size ≠ [] → Text.trim name ≠ [] → Text.number? (Text.trim size) = none →
      Reading s (.error (.invalidSize (Text.trim size)))
  | declares {rest name size : Text} {w : Word} : Opens s rest → Bracketed rest name size →
      Text.trim name ≠ [] → Text.number? (Text.trim size) = some w →
      Reading s (.ok ⟨Text.trim name, w⟩)

/-! ### The parts of a line -/

theorem endsKeyword_iff {c : Char} :
    endsKeyword c = true ↔ c ∈ [' ', '\t', '\n', '\x0C', '\r'] := by
  simp [endsKeyword, or_assoc]

/-- No letter of the keyword ends it. -/
theorem endsKeyword_of_lower (h : Text.lower s = ['d', 'b']) : ∀ c ∈ s, endsKeyword c = false := by
  intro c hc
  have hletter : c.toLower ∈ ['d', 'b'] := h ▸ List.mem_map_of_mem hc
  rw [Bool.eq_false_iff]
  intro hblank
  simp only [endsKeyword_iff, List.mem_cons, List.not_mem_nil, or_false] at hblank
  rcases hblank with rfl | rfl | rfl | rfl | rfl <;> exact absurd hletter (by decide)

theorem opens_iff : Opens s rest ↔ ∃ keyword tail, Text.cut? endsKeyword s = some (keyword, tail) ∧
    Text.lower keyword = ['d', 'b'] ∧ Text.trim tail = rest := by
  constructor
  · intro h
    cases h with
    | keyword hkeyword hc =>
      exact ⟨_, _, Text.cut?_append (endsKeyword_of_lower hkeyword) (endsKeyword_iff.2 hc) _,
        hkeyword, rfl⟩
  · intro ⟨keyword, tail, hcut, hkeyword, htail⟩
    obtain ⟨c, hs, hc, -⟩ := Text.eq_append_of_cut? hcut
    rw [hs, ← htail]
    exact .keyword hkeyword (endsKeyword_iff.1 hc)

/-- The name and the size are where the brackets are, and are trimmed. -/
theorem brackets?_of_bracketed (h : Bracketed s name size) :
    brackets? s =
      if Text.trim size = [] then none else some (Text.trim name, Text.trim size) := by
  have hend : Text.stripEnd? ']' s = some (name ++ '[' :: size) := by
    rw [Text.stripEnd?_eq_some_iff, h.split]
    simp
  have hcut : Text.cut? (· == '[') (name ++ '[' :: size) = some (name, size) := by
    refine Text.cut?_append ?_ rfl size
    intro c hc
    exact beq_eq_false_iff_ne.2 fun heq => h.name (heq ▸ hc)
  have hopen : '[' ∉ Text.trim size := mt Text.mem_of_mem_trim h.size.1
  have hclose : ']' ∉ Text.trim size := mt Text.mem_of_mem_trim h.size.2
  simp [brackets?, hend, hcut, hopen, hclose]

/-- Nothing else has a name and a size. -/
theorem brackets?_eq_none (h : ∀ name size, ¬Bracketed s name size) : brackets? s = none := by
  rw [Option.eq_none_iff_forall_ne_some]
  intro parts hparts
  simp only [brackets?, Option.bind_eq_bind, Option.bind_eq_some_iff] at hparts
  obtain ⟨body, hbody, ⟨name, size⟩, hcut, hsize⟩ := hparts
  obtain ⟨c, hsplit, hc, hname⟩ := Text.eq_append_of_cut? hcut
  obtain rfl := beq_iff_eq.1 hc
  simp only [Option.ite_none_left_eq_some, not_or] at hsize
  refine h name size ⟨?_, ?_, ?_⟩
  · rw [Text.stripEnd?_eq_some_iff.1 hbody, hsplit]
    simp
  · exact fun hmem => absurd rfl (beq_eq_false_iff_ne.1 (hname '[' hmem))
  · rw [← Text.mem_trim_iff (c := '[') (by decide), ← Text.mem_trim_iff (c := ']') (by decide)]
    exact hsize.1.2

theorem ofText_of_no_brackets (h : Opens s rest) (hb : brackets? rest = none) :
    ofText s = .error .malformedDeclaration := by
  obtain ⟨keyword, tail, hcut, hkeyword, rfl⟩ := opens_iff.1 h
  simp [ofText, hcut, hkeyword, hb]

/-- Between the keyword and the brackets is the name, between the brackets the size. -/
theorem ofText_of_bracketed (h : Opens s rest) (hb : Bracketed rest name size)
    (hsize : Text.trim size ≠ []) :
    ofText s =
      if Text.trim name = [] then .error .missingName
      else (Text.number? (Text.trim size)).elim (.error (.invalidSize (Text.trim size)))
        fun w => .ok ⟨Text.trim name, w⟩ := by
  obtain ⟨keyword, tail, hcut, hkeyword, rfl⟩ := opens_iff.1 h
  have hparts := brackets?_of_bracketed hb
  rw [if_neg hsize] at hparts
  cases hn : Text.number? (Text.trim size) <;> simp [ofText, hcut, hkeyword, hparts, hn]

theorem ofText_of_not_opens (h : ∀ rest, ¬Opens s rest) : ofText s = .error .notADeclaration := by
  cases hcut : Text.cut? endsKeyword s with
  | none => simp only [ofText, hcut]
  | some parts =>
    have hkeyword : Text.lower parts.1 ≠ ['d', 'b'] :=
      fun hkeyword => h _ (opens_iff.2 ⟨_, _, hcut, hkeyword, rfl⟩)
    simp only [ofText, hcut, ne_eq, hkeyword, not_false_eq_true, if_true]

/-! ### Lines -/

/-- The reader does with a line what the grammar says of it. -/
theorem Reading.ofText_eq (h : Reading s r) : ofText s = r := by
  cases h with
  | foreign h => exact ofText_of_not_opens h
  | unbracketed ho hb => exact ofText_of_no_brackets ho (brackets?_eq_none hb)
  | sizeless ho hb hsize =>
    have hparts := brackets?_of_bracketed hb
    rw [if_pos hsize] at hparts
    exact ofText_of_no_brackets ho hparts
  | nameless ho hb hsize hname =>
    rw [ofText_of_bracketed ho hb hsize, if_pos hname]
  | unreadable ho hb hsize hname hn =>
    rw [ofText_of_bracketed ho hb hsize, if_neg hname, hn]
    rfl
  | @declares rest name size w ho hb hname hn =>
    have hsize : Text.trim size ≠ [] := by
      intro hblank
      rw [Text.number?_trim, Text.number?_eq_none_of_trim_eq_nil hblank] at hn
      cases hn
    rw [ofText_of_bracketed ho hb hsize, if_neg hname, hn]
    rfl

/-- The rules of the grammar leave no line out. -/
theorem exists_reading (s : Text) : ∃ r, Reading s r := by
  by_cases ho : ∃ rest, Opens s rest
  · obtain ⟨rest, ho⟩ := ho
    by_cases hb : ∃ name size, Bracketed rest name size
    · obtain ⟨name, size, hb⟩ := hb
      by_cases hsize : Text.trim size = []
      · exact ⟨_, .sizeless ho hb hsize⟩
      by_cases hname : Text.trim name = []
      · exact ⟨_, .nameless ho hb hsize hname⟩
      cases hn : Text.number? (Text.trim size) with
      | none => exact ⟨_, .unreadable ho hb hsize hname hn⟩
      | some w => exact ⟨_, .declares ho hb hname hn⟩
    · exact ⟨_, .unbracketed ho fun name size h => hb ⟨name, size, h⟩⟩
  · exact ⟨_, .foreign fun rest h => ho ⟨rest, h⟩⟩

theorem reading_iff : ofText s = r ↔ Reading s r := by
  refine ⟨?_, Reading.ofText_eq⟩
  rintro rfl
  obtain ⟨r, hr⟩ := exists_reading s
  exact hr.ofText_eq ▸ hr

/-! ### Names that can be declared -/

/-- The text is the name of a buffer, if it is declared: nothing is cut off from it. -/
structure Declarable (name : Text) : Prop where
  trim : Text.trim name = name
  ne_nil : name ≠ []
  plain : ∀ c ∈ name, c ≠ '[' ∧ c ≠ '\n' ∧ Line.isComment c = false

/-- The line that declares a buffer of this name and size. -/
def line (name size : Text) : Text := 'D' :: 'B' :: ' ' :: (name ++ '[' :: (size ++ [']']))

theorem not_mem_size {w : Word} (h : Text.number? size = some w) :
    ('[' ∉ size ∧ ']' ∉ size) ∧ ∀ c ∈ size, Line.isComment c = false := by
  have hnone {c : Char} (hc : c ∈ ['[', ']', ';', '#']) : c ∉ size := by
    simp only [List.mem_cons, List.not_mem_nil, or_false] at hc
    rcases hc with rfl | rfl | rfl | rfl <;>
      exact Text.not_mem_of_number? h (by decide) (by decide) (by decide)
  refine ⟨⟨hnone (by decide), hnone (by decide)⟩, ?_⟩
  intro c hc
  rw [Bool.eq_false_iff]
  intro hcomment
  rcases Line.isComment_iff.1 hcomment with rfl | rfl
  · exact hnone (by decide) hc
  · exact hnone (by decide) hc

/-- The brackets behind a name stay when it is trimmed. -/
theorem trim_bracketed (h : Declarable name) (size : Text) :
    Text.trim (name ++ '[' :: (size ++ [']'])) = name ++ '[' :: (size ++ [']']) := by
  refine Text.trim_eq_self ?_ ?_
  · obtain ⟨d, ds, rfl⟩ := List.exists_cons_of_ne_nil h.ne_nil
    exact (Text.trim_eq_self_iff.1 h.trim).1
  · have hsplit : name ++ '[' :: (size ++ [']']) = (name ++ '[' :: size) ++ [']'] := by simp
    intro c hc
    rw [hsplit, List.getLast?_concat] at hc
    cases hc
    rfl

theorem reading_line {w : Word} (h : Declarable name) (hsize : Text.number? size = some w) :
    Reading (line name size) (.ok ⟨name, w⟩) := by
  have hopens : Opens (line name size) (name ++ '[' :: (size ++ [']'])) := by
    have hkeyword : Opens (['D', 'B'] ++ ' ' :: (name ++ '[' :: (size ++ [']'])))
        (Text.trim (name ++ '[' :: (size ++ [']']))) := .keyword (by decide) (by decide)
    rwa [trim_bracketed h] at hkeyword
  have hbracketed : Bracketed (name ++ '[' :: (size ++ [']'])) name size :=
    ⟨rfl, fun hmem => (h.plain _ hmem).1 rfl, (not_mem_size hsize).1⟩
  have hname : Text.trim name ≠ [] := by
    rw [h.trim]
    exact h.ne_nil
  rw [← Text.number?_trim] at hsize
  have hread := Reading.declares hopens hbracketed hname hsize
  rwa [h.trim] at hread

theorem content_line {w : Word} (h : Declarable name) (hsize : Text.number? size = some w) :
    Line.content (line name size) = line name size := by
  refine Line.content_eq_self (Text.trim_eq_self ?_ ?_) ?_
  · intro c hc
    cases hc
    rfl
  · have hsplit : line name size = ('D' :: 'B' :: ' ' :: (name ++ '[' :: size)) ++ [']'] := by
      simp [line]
    intro c hc
    rw [hsplit, List.getLast?_concat] at hc
    cases hc
    rfl
  · intro c hc
    simp only [line, List.mem_cons, List.mem_append, List.not_mem_nil, or_false] at hc
    rcases hc with rfl | rfl | rfl | hc | rfl | hc | rfl
    · rfl
    · rfl
    · rfl
    · exact (h.plain c hc).2.2
    · rfl
    · exact (not_mem_size hsize).2 c hc
    · rfl

theorem newline_not_mem_line (h : Declarable name) (hsize : '\n' ∉ size) :
    '\n' ∉ line name size := by
  have hname : '\n' ∉ name := fun hmem => (h.plain _ hmem).2.1 rfl
  simp [line, hname, hsize]

/-! ### Statements -/

theorem ofText_of_declaration (hmarker : ∀ opened : Section, s ≠ opened.marker) :
    Statement.ofText (some .data) s = (ofText s).map .declaration := by
  unfold Statement.ofText
  rw [Section.ofMarker?_eq_none_iff.2 hmarker]
  rfl

theorem map_declaration_inj {r' : Except Cause Declaration} :
    (r.map Statement.declaration = r'.map Statement.declaration) ↔ r = r' := by
  cases r <;> cases r' <;> simp [Except.map]

theorem line_ne_marker (name size : Text) (opened : Section) : line name size ≠ opened.marker := by
  intro h
  have hhead := congrArg List.head? h
  cases opened <;> cases hhead

theorem statement_line {w : Word} (h : Declarable name) (hsize : Text.number? size = some w) :
    Statement.ofText (some .data) (line name size) = .ok (.declaration ⟨name, w⟩) := by
  rw [ofText_of_declaration (line_ne_marker name size), (reading_line h hsize).ofText_eq]
  rfl

/-- A program that is one declaration has one buffer, with the name and the size that are
written. -/
theorem layout_line {w : Word} (h : Declarable name) (hsize : Text.number? size = some w)
    (hline : '\n' ∉ size) :
    Layout.ofLines (Line.ofText (Section.data.marker ++ '\n' :: line name size)) =
      .ok ⟨0, w.toNat, [], [(name, 0)], false⟩ := by
  have hlines : Line.ofText (Section.data.marker ++ '\n' :: line name size) =
      [⟨1, Section.data.marker⟩, ⟨2, line name size⟩] := by
    have hmarker : Line.content Section.data.marker = Section.data.marker := by decide
    rw [Line.ofText, Text.pieces_append_cons, Text.pieces_of_not_mem (by decide),
      Text.pieces_of_not_mem (newline_not_mem_line h hline)]
    exact (Line.numberFrom_of_content (by decide) hmarker 1 _).trans (congrArg _
      (Line.numberFrom_of_content (List.cons_ne_nil _ _) (content_line h hsize) 2 []))
  have hdraft : Draft.ofLines [⟨1, Section.data.marker⟩, ⟨2, line name size⟩] =
      .ok ⟨some .data, false, 0, [], [(2, ⟨name, w⟩)]⟩ := by
    have hmarked := Statement.ofText_marker none .data
    have hstated := statement_line h hsize
    simp [Draft.ofLines, Draft.addLines, Draft.addLine, Draft.empty, Draft.add, Except.bind,
      hmarked, hstated]
  have hroom : 0 < Draft.addressLimit ∧ w.toNat < Draft.addressLimit :=
    ⟨by decide, w.toNat_lt⟩
  rw [hlines, Layout.ofLines, hdraft]
  simp [Except.bind, Layout.ofDraft, Layout.place, Except.map, hroom]

/-- A line of the data section that is no marker is read as the grammar says, with the error that
comes first if it is not of the grammar. Whatever can be a name is declared with any size, as it
is written, and any word can be written as a size. -/
theorem ofData_eq_iff :
    (∀ s : Text, (∀ opened : Section, s ≠ opened.marker) →
      (∀ r, Statement.ofText (some .data) s = r.map .declaration ↔ Reading s r) ∧
      ∀ d, Statement.ofText (some .data) s = .ok (.declaration d) ↔
        ∃ rest name size w, Opens s rest ∧ Bracketed rest name size ∧ Text.trim name ≠ [] ∧
          Text.number? (Text.trim size) = some w ∧ d = ⟨Text.trim name, w⟩) ∧
    ∀ (name : Text) (w : Word), Declarable name →
      (∃ size, Text.number? size = some w ∧ '\n' ∉ size) ∧
      ∀ size, Text.number? size = some w → '\n' ∉ size →
        Line.content (line name size) = line name size ∧
        Statement.ofText (some .data) (line name size) = .ok (.declaration ⟨name, w⟩) ∧
        Layout.ofLines (Line.ofText (Section.data.marker ++ '\n' :: line name size)) =
          .ok ⟨0, w.toNat, [], [(name, 0)], false⟩ := by
  refine ⟨?_, ?_⟩
  · intro s hmarker
    have hreading (r : Except Cause Declaration) :
        Statement.ofText (some .data) s = r.map .declaration ↔ Reading s r := by
      rw [ofText_of_declaration hmarker, map_declaration_inj, reading_iff]
    refine ⟨hreading, ?_⟩
    intro d
    constructor
    · intro h
      cases (hreading (.ok d)).1 h with
      | declares ho hb hname hn => exact ⟨_, _, _, _, ho, hb, hname, hn, rfl⟩
    · intro ⟨rest, name, size, w, ho, hb, hname, hn, hd⟩
      rw [hd]
      exact (hreading (.ok _)).2 (.declares ho hb hname hn)
  · intro name w h
    refine ⟨⟨_, (Word.spelled_self w).1.number?, (Word.spelled_self w).1.solid.not_mem ?_⟩, ?_⟩
    · decide
    · intro size hsize hline
      exact ⟨content_line h hsize, statement_line h hsize, layout_line h hsize hline⟩

/-- A name with blanks and a closing bracket in it. -/
def oddName : Text := "a: b]".toList

theorem ofData_eq_iff_oddName :
    Reading "db\ta: b][ -1 ]".toList (.ok ⟨oddName, 0xFFFFFFFF⟩) ∧ Declarable oddName ∧
      Layout.ofLines (Line.ofText "_data:\nDB a: b][0x10]".toList) =
        .ok ⟨0, 16, [], [(oddName, 0)], false⟩ := by
  obtain ⟨hlines, hnames⟩ := ofData_eq_iff
  have hmarker (opened : Section) : "db\ta: b][ -1 ]".toList ≠ opened.marker := by
    cases opened <;> decide
  have hread : Statement.ofText (some .data) "db\ta: b][ -1 ]".toList =
      .ok (.declaration ⟨oddName, 0xFFFFFFFF⟩) := rfl
  have hodd : Declarable oddName := ⟨by decide, by decide, by simp [oddName, Line.isComment]⟩
  obtain ⟨-, hdeclared⟩ := hnames oddName 16 hodd
  obtain ⟨-, -, hlayout⟩ := hdeclared "0x10".toList (by decide) (by decide)
  exact ⟨((hlines _ hmarker).1 _).1 hread, hodd, hlayout⟩

end Declaration

end RegisterMachine
