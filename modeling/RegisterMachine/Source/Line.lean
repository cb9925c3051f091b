import RegisterMachine.Text.Pieces

/-!
# RegisterMachine.Source.Line

The meaningful lines of a program's text. A comment starts at the first `;` or
`#` of a line and runs to its end; blanks at the two ends of what stands before
it do not count; a line of which nothing is left is no line. The others keep the
number that they have in the text, counted from one, because that is how errors
refer to them.
-/

namespace RegisterMachine

/-- A line that says something. -/
structure Line where
  /-- Its number in the text, from one. -/
  number : Nat
  /-- What stands before the comment, trimmed. -/
  text : Text
  deriving DecidableEq, Repr

namespace Line

/-- The characters that start a comment. -/
def isComment (c : Char) : Bool := c == ';' || c == '#'

/-- What a line says: the part before the comment, trimmed. -/
def content (s : Text) : Text := Text.trim (s.takeWhile fun c => !isComment c)

/-- The lines that say something, numbered from `n` on. -/
def numberFrom (n : Nat) : List Text → List Line
  | [] => []
  | s :: ss =>
    if content s = [] then numberFrom (n + 1) ss else ⟨n, content s⟩ :: numberFrom (n + 1) ss

/-- The meaningful lines of a text. -/
def ofText (source : Text) : List Line := numberFrom 1 (Text.pieces '\n' source)

/-! ### Contents -/

theorem isComment_iff {c : Char} : isComment c = true ↔ c = ';' ∨ c = '#' := by
  simp [isComment]

/-- What has no comment in it stands before the comment that comes next. -/
theorem takeWhile_append {s : Text} (hclean : ∀ c ∈ s, isComment c = false) (t : Text) :
    (s ++ t).takeWhile (fun c => !isComment c) = s ++ t.takeWhile fun c => !isComment c :=
  List.takeWhile_append_of_pos fun c hc => by rw [hclean c hc]; rfl

/-- A line says only what is in it, and nothing that starts a comment. -/
theorem mem_content {c : Char} {s : Text} (h : c ∈ content s) : c ∈ s ∧ isComment c = false := by
  have hmem := Text.mem_of_mem_trim h
  refine ⟨(List.takeWhile_sublist _).mem hmem, ?_⟩
  simpa using List.all_eq_true.1 List.all_takeWhile c hmem

/-- A trimmed text without a comment is a line as it stands. -/
theorem content_eq_self {s : Text} (htrim : Text.trim s = s)
    (hclean : ∀ c ∈ s, isComment c = false) : content s = s := by
  have hwhole := takeWhile_append hclean []
  rw [List.takeWhile_nil, List.append_nil] at hwhole
  rw [content, hwhole, htrim]

@[simp] theorem content_content (s : Text) : content (content s) = content s :=
  content_eq_self (Text.trim_trim _) fun _ hc => (mem_content hc).2

/-- What a line says is what one of the given texts says. -/
theorem exists_content {l : Line} {n : Nat} {ss : List Text} (h : l ∈ numberFrom n ss) :
    ∃ s ∈ ss, content s = l.text := by
  induction ss generalizing n with
  | nil => cases h
  | cons s ss ih =>
    have hrest (h : l ∈ numberFrom (n + 1) ss) : ∃ u ∈ s :: ss, content u = l.text := by
      obtain ⟨u, hu, hcontent⟩ := ih h
      exact ⟨u, List.mem_cons_of_mem s hu, hcontent⟩
    rw [numberFrom] at h
    split at h
    · exact hrest h
    · obtain rfl | h := List.mem_cons.1 h
      · exact ⟨s, List.mem_cons_self, rfl⟩
      · exact hrest h

/-! ### Numbers -/

theorem text_ne_nil {l : Line} {n : Nat} {ss : List Text} (h : l ∈ numberFrom n ss) :
    l.text ≠ [] := by
  induction ss generalizing n with
  | nil => cases h
  | cons s ss ih =>
    rw [numberFrom] at h
    split at h
    · exact ih h
    · rename_i hs
      rcases List.mem_cons.1 h with rfl | h
      · exact hs
      · exact ih h

theorem le_number {l : Line} {n : Nat} {ss : List Text} (h : l ∈ numberFrom n ss) :
    n ≤ l.number := by
  induction ss generalizing n with
  | nil => cases h
  | cons s ss ih =>
    rw [numberFrom] at h
    split at h
    · exact Nat.le_of_succ_le (ih h)
    · rcases List.mem_cons.1 h with rfl | h
      · exact Nat.le_refl _
      · exact Nat.le_of_succ_le (ih h)

/-- A text that is a line as it stands keeps its number. -/
theorem numberFrom_of_content {s : Text} (hne : s ≠ []) (h : content s = s) (n : Nat)
    (ss : List Text) : numberFrom n (s :: ss) = ⟨n, s⟩ :: numberFrom (n + 1) ss := by
  rw [numberFrom, h, if_neg hne]

theorem numberFrom_append (n : Nat) (ss ts : List Text) :
    numberFrom n (ss ++ ts) = numberFrom n ss ++ numberFrom (n + ss.length) ts := by
  induction ss generalizing n with
  | nil => rfl
  | cons s ss ih =>
    rw [List.cons_append, numberFrom, numberFrom, ih, List.length_cons,
      Nat.add_right_comm n 1 ss.length, Nat.add_assoc n ss.length 1]
    split <;> rfl

/-- The number of a line is its place in the text. -/
theorem content_at_number {l : Line} {n : Nat} {ss : List Text} (h : l ∈ numberFrom n ss) :
    (ss[l.number - n]?).map content = some l.text := by
  induction ss generalizing n with
  | nil => cases h
  | cons s ss ih =>
    have hrest (h : l ∈ numberFrom (n + 1) ss) :
        ((s :: ss)[l.number - n]?).map content = some l.text := by
      have hle : n + 1 ≤ l.number := le_number h
      rw [show l.number - n = l.number - (n + 1) + 1 by omega, List.getElem?_cons_succ]
      exact ih h
    rw [numberFrom] at h
    split at h
    · exact hrest h
    · rcases List.mem_cons.1 h with rfl | h
      · simp
      · exact hrest h

/-- The numbers grow from line to line. -/
theorem pairwise_numberFrom (n : Nat) (ss : List Text) :
    (numberFrom n ss).Pairwise fun a b => a.number < b.number := by
  induction ss generalizing n with
  | nil => exact List.Pairwise.nil
  | cons s ss ih =>
    rw [numberFrom]
    split
    · exact ih (n + 1)
    · exact List.pairwise_cons.2 ⟨fun l hl => le_number hl, ih (n + 1)⟩

end Line

end RegisterMachine
