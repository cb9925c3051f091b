import Mathlib.Data.List.Sort
import RegisterMachine.Proofs.Assembly.Spacing

/-!
# RegisterMachine.Proofs.Assembly.MeaningfulLines

Which lines of a text are read, and under which numbers. A line of the text is
what stands between two ends of lines, and its number is one more than the ends
of lines before it (`Text.HasLine`). It is read if there is anything but blanks in
front of its first comment marker, and read as what is there (`Line.Meant`). The
lines that are read are all of these, in the order of their numbers and no other
(`Line.ofText_iff`), so the numbers count the lines that are left out as well.

The relations say where a line stands in the text by what is in front of it and
behind it; the reader cuts the text into pieces. They meet in
`Text.hasLine_iff`, by induction on the number of the line.
-/

namespace RegisterMachine

/-! ### Lines of a text -/

namespace Text

variable {source s t rest : Text} {n : Nat}

/-- The line of the text that has the number `n`, from one, is `s`. -/
inductive HasLine : Text → Nat → Text → Prop
  | mk {front s back : Text} : BeforeLine front → '\n' ∉ s →
      (back = [] ∨ ∃ rest, back = '\n' :: rest) →
      HasLine (front ++ (s ++ back)) (1 + front.count '\n') s

/-- `t` is the text without the blanks at its two ends. -/
structure Trims (s t : Text) : Prop where
  split : ∃ before after, s = before ++ (t ++ after) ∧ (∀ c ∈ before, isBlank c = true) ∧
    ∀ c ∈ after, isBlank c = true
  head : ∀ c ∈ t.head?, isBlank c = false
  last : ∀ c ∈ t.getLast?, isBlank c = false

theorem trims_iff : Trims s t ↔ trim s = t := by
  constructor
  · intro ⟨⟨before, after, hs, hbefore, hafter⟩, hhead, hlast⟩
    rw [hs]
    exact trim_append_blanks hbefore hafter (trim_eq_self hhead hlast)
  · rintro rfl
    exact ⟨⟨_, _, (around_self s).symm, fun _ => isBlank_of_mem_blanksBefore,
      fun _ => isBlank_of_mem_blanksAfter⟩, isBlank_head_trim s, isBlank_getLast_trim s⟩

theorem trim_ne_nil_iff : trim s ≠ [] ↔ ∃ c ∈ s, isBlank c = false := by
  simp [trim_eq_nil_iff]

/-- The first piece ends where the text does, or at a separator, with the other pieces behind. -/
theorem exists_of_pieces_eq_cons {sep : Char} {p : Text} {ps : List Text}
    (h : pieces sep s = p :: ps) :
    sep ∉ p ∧ (s = p ∧ ps = [] ∨ ∃ rest, s = p ++ sep :: rest ∧ pieces sep rest = ps) := by
  have hclean : ∀ t ∈ p :: ps, sep ∉ t := by
    intro t ht
    rw [← h] at ht
    exact not_mem_of_mem_pieces ht
  have hjoin := intercalate_pieces sep s
  rw [h] at hjoin
  refine ⟨hclean p List.mem_cons_self, ?_⟩
  cases ps with
  | nil => exact Or.inl ⟨by simpa using hjoin.symm, rfl⟩
  | cons q qs =>
    refine Or.inr ⟨[sep].intercalate (q :: qs), ?_, ?_⟩
    · rw [← hjoin, List.intercalate_cons_cons, List.append_assoc]
      rfl
    · exact pieces_intercalate fun t ht => hclean t (List.mem_cons_of_mem p ht)

theorem HasLine.pieces (h : HasLine source n s) :
    ∃ i, n = i + 1 ∧ (pieces '\n' source)[i]? = some s := by
  cases h with
  | @mk front _ back hfront hs hback =>
    obtain ⟨ss, hlength, hpieces⟩ := pieces_of_beforeLine hfront
    refine ⟨front.count '\n', by omega, ?_⟩
    rw [hpieces, ← hlength, List.getElem?_append_right (by omega), Nat.sub_self]
    rcases hback with rfl | ⟨rest, rfl⟩
    · simp [pieces_of_not_mem hs]
    · simp [pieces_append_cons, pieces_of_not_mem hs]

/-- A line in front of the text moves the others by one. -/
theorem HasLine.behind (h : HasLine rest n s) (hs : '\n' ∉ t) :
    HasLine (t ++ '\n' :: rest) (n + 1) s := by
  cases h with
  | @mk front _ back hfront hs' hback =>
    have hbegin : BeforeLine (t ++ '\n' :: front) := by
      refine Or.inr ?_
      rcases hfront with rfl | hlast
      · simp
      · simp [List.getLast?_append, List.getLast?_cons, hlast]
    have hcount : (t ++ '\n' :: front).count '\n' = front.count '\n' + 1 := by
      simp [List.count_eq_zero_of_not_mem hs]
    have hline := HasLine.mk hbegin hs' hback
    rw [hcount] at hline
    simpa [Nat.add_assoc, Nat.add_comm] using hline

/-- The lines of a text are its pieces, in order. -/
theorem hasLine_iff :
    HasLine source n s ↔ ∃ i, n = i + 1 ∧ (pieces '\n' source)[i]? = some s := by
  refine ⟨HasLine.pieces, ?_⟩
  rintro ⟨i, rfl, hi⟩
  have hbegin : BeforeLine [] := Or.inl rfl
  induction i generalizing source with
  | zero =>
    obtain ⟨p, ps, hpieces⟩ := List.exists_cons_of_ne_nil (pieces_ne_nil '\n' source)
    obtain ⟨hp, hsource⟩ := exists_of_pieces_eq_cons hpieces
    obtain rfl : p = s := by simpa [hpieces] using hi
    rcases hsource with ⟨rfl, -⟩ | ⟨rest, rfl, -⟩
    · simpa using HasLine.mk hbegin hp (Or.inl rfl)
    · exact HasLine.mk hbegin hp (Or.inr ⟨rest, rfl⟩)
  | succ i ih =>
    obtain ⟨p, ps, hpieces⟩ := List.exists_cons_of_ne_nil (pieces_ne_nil '\n' source)
    obtain ⟨hp, hsource⟩ := exists_of_pieces_eq_cons hpieces
    rw [hpieces, List.getElem?_cons_succ] at hi
    rcases hsource with ⟨-, rfl⟩ | ⟨rest, rfl, rfl⟩
    · cases hi
    · exact (ih hi).behind hp

end Text

/-! ### What a line says -/

namespace Line

variable {source s code : Text} {l : Line} {ls : List Line} {n : Nat}

/-- `code` is what stands in the line before the first comment marker. -/
inductive HasCode : Text → Text → Prop
  | whole {s : Text} : (∀ c ∈ s, c ≠ ';' ∧ c ≠ '#') → HasCode s s
  | commented {code comment : Text} {c : Char} : (∀ d ∈ code, d ≠ ';' ∧ d ≠ '#') →
      c = ';' ∨ c = '#' → HasCode (code ++ c :: comment) code

/-- The line is one of the text, under its own number, and says what is left of it without its
comment and the blanks at its ends, which is something. -/
inductive Meant (source : Text) (l : Line) : Prop
  | mk {s code : Text} : source.HasLine l.number s → HasCode s code →
      (∃ c ∈ code, Text.isBlank c = false) → code.Trims l.text → Meant source l

/-- These are the lines of the text that say something, in order. -/
structure ListsAll (source : Text) (ls : List Line) : Prop where
  mem_iff : ∀ l, l ∈ ls ↔ Meant source l
  ordered : ls.Pairwise fun a b => a.number < b.number

theorem isComment_eq_false_iff {c : Char} : isComment c = false ↔ c ≠ ';' ∧ c ≠ '#' := by
  rw [← Bool.not_eq_true, isComment_iff, not_or]

theorem hasCode_iff : HasCode s code ↔ s.takeWhile (fun c => !isComment c) = code := by
  constructor
  · intro h
    cases h with
    | whole hs =>
      simpa using takeWhile_append (fun c hc => isComment_eq_false_iff.2 (hs c hc)) []
    | commented hcode hc =>
      rw [takeWhile_append fun c hc => isComment_eq_false_iff.2 (hcode c hc)]
      simp [isComment_iff.2 hc]
  · rintro rfl
    have hcode : ∀ c ∈ s.takeWhile (fun c => !isComment c), c ≠ ';' ∧ c ≠ '#' := by
      intro c hc
      exact isComment_eq_false_iff.1 (by simpa using List.all_eq_true.1 List.all_takeWhile c hc)
    have hsplit := List.takeWhile_append_dropWhile (p := fun c => !isComment c) (l := s)
    have hnext := List.head?_dropWhile_not (fun c => !isComment c) s
    generalize s.takeWhile (fun c => !isComment c) = code at hcode hsplit ⊢
    generalize s.dropWhile (fun c => !isComment c) = comment at hsplit hnext
    rw [← hsplit]
    cases comment with
    | nil => simpa using HasCode.whole hcode
    | cons c comment => exact .commented hcode (isComment_iff.1 (by simpa using hnext))

theorem meant_iff :
    Meant source l ↔ ∃ s, source.HasLine l.number s ∧ content s ≠ [] ∧ l.text = content s := by
  constructor
  · intro h
    cases h with
    | @mk s code hline hcode hsome htrim =>
      rw [← Text.trim_ne_nil_iff] at hsome
      rw [hasCode_iff] at hcode
      rw [Text.trims_iff] at htrim
      subst hcode
      exact ⟨s, hline, hsome, htrim.symm⟩
  · intro ⟨s, hline, hne, htext⟩
    exact .mk hline (hasCode_iff.2 rfl) (Text.trim_ne_nil_iff.1 hne) (Text.trims_iff.2 htext.symm)

/-- Each of the texts that says something is a line, under the number of its place. -/
theorem mem_numberFrom_iff {ss : List Text} : l ∈ numberFrom n ss ↔
    ∃ i s, l.number = n + i ∧ ss[i]? = some s ∧ content s ≠ [] ∧ l.text = content s := by
  constructor
  · intro h
    obtain ⟨s, hs, htext⟩ := Option.map_eq_some_iff.1 (content_at_number h)
    have hle := le_number h
    have hne := text_ne_nil h
    rw [← htext] at hne
    exact ⟨l.number - n, s, by omega, hs, hne, htext.symm⟩
  · intro ⟨i, s, hnumber, hs, hne, htext⟩
    induction ss generalizing n i with
    | nil => cases hs
    | cons t ss ih =>
      rw [numberFrom]
      cases i with
      | zero =>
        obtain rfl : t = s := by simpa using hs
        have hl : l = ⟨n, content t⟩ := by
          rw [← htext, ← Nat.add_zero n, ← hnumber]
        simp [hne, hl]
      | succ i =>
        have hrest := ih (n := n + 1) i (by omega) (by simpa using hs)
        split
        · exact hrest
        · exact List.mem_cons_of_mem _ hrest

theorem mem_ofText_iff : l ∈ ofText source ↔ Meant source l := by
  simp only [ofText, mem_numberFrom_iff, meant_iff, Text.hasLine_iff]
  constructor
  · intro h
    rcases h with ⟨i, s, hnumber, hs, hne, htext⟩
    exact ⟨s, ⟨i, by omega, hs⟩, hne, htext⟩
  · intro h
    rcases h with ⟨s, ⟨i, hnumber, hs⟩, hne, htext⟩
    exact ⟨i, s, by omega, hs, hne, htext⟩

/-! ### All the lines of a text -/

theorem listsAll_ofText (source : Text) : ListsAll source (ofText source) where
  mem_iff _ := mem_ofText_iff
  ordered := pairwise_numberFrom 1 _

/-- There is only one list of the lines, because their numbers tell their order. -/
theorem ListsAll.unique {ms : List Line} (hl : ListsAll source ls) (hm : ListsAll source ms) :
    ls = ms := by
  have hasymm : Std.Antisymm fun a b : Line => a.number < b.number :=
    ⟨fun _ _ hab hba => absurd hab (Nat.lt_asymm hba)⟩
  have hirrefl : Std.Irrefl fun a b : Line => a.number < b.number :=
    ⟨fun a => Nat.lt_irrefl a.number⟩
  exact hl.ordered.eq_of_mem_iff hm.ordered fun l => (hl.mem_iff l).trans (hm.mem_iff l).symm

theorem mem_text_ofText (h : l ∈ ofText source) :
    ∀ c ∈ l.text, isComment c = false ∧ c ≠ '\n' := by
  intro c hc
  obtain ⟨s, hs, htext⟩ := exists_content h
  rw [← htext] at hc
  obtain ⟨hmem, hcomment⟩ := mem_content hc
  refine ⟨hcomment, ?_⟩
  rintro rfl
  exact Text.not_mem_of_mem_pieces hs hmem

theorem content_text_ofText (h : l ∈ ofText source) : content l.text = l.text := by
  obtain ⟨s, -, htext⟩ := exists_content h
  rw [← htext, content_content]

/-- Texts that are lines as they stand keep their order. -/
theorem map_text_numberFrom_of_content {ss : List Text}
    (h : ∀ s ∈ ss, s ≠ [] ∧ content s = s) (n : Nat) : (numberFrom n ss).map text = ss := by
  induction ss generalizing n with
  | nil => rfl
  | cons s ss ih =>
    obtain ⟨hne, hcontent⟩ := h s List.mem_cons_self
    rw [numberFrom_of_content hne hcontent, List.map_cons,
      ih fun t ht => h t (List.mem_cons_of_mem s ht)]

/-- What is read is read again as it was. -/
theorem map_text_ofText_intercalate (source : Text) :
    (ofText (['\n'].intercalate ((ofText source).map text))).map text =
      (ofText source).map text := by
  have hlines : ∀ s ∈ (ofText source).map text, '\n' ∉ s ∧ s ≠ [] ∧ content s = s := by
    intro s hs
    obtain ⟨l, hl, rfl⟩ := List.mem_map.1 hs
    exact ⟨fun hmem => (mem_text_ofText hl _ hmem).2 rfl, text_ne_nil hl, content_text_ofText hl⟩
  cases htexts : (ofText source).map text with
  | nil => rfl
  | cons s ss =>
    rw [htexts] at hlines
    rw [ofText, Text.pieces_intercalate fun t ht => (hlines t ht).1]
    exact map_text_numberFrom_of_content (fun t ht => (hlines t ht).2) 1

/-- The lines that are read of a text are those that say something, each once and in the order
of their numbers, and nothing else is a list of them. None is empty, none has a comment marker or
the end of a line in it, and if they are put together again, they are read as they are. -/
theorem ofText_iff (source : Text) :
    (∀ ls, ListsAll source ls ↔ ls = ofText source) ∧
    (∀ l ∈ ofText source, l.text ≠ [] ∧ ∀ c ∈ l.text, c ≠ ';' ∧ c ≠ '#' ∧ c ≠ '\n') ∧
    (ofText (['\n'].intercalate ((ofText source).map text))).map text =
      (ofText source).map text := by
  refine ⟨?_, ?_, map_text_ofText_intercalate source⟩
  · intro ls
    refine ⟨fun h => h.unique (listsAll_ofText source), ?_⟩
    rintro rfl
    exact listsAll_ofText source
  · intro l hl
    refine ⟨text_ne_nil hl, ?_⟩
    intro c hc
    obtain ⟨hcomment, hnewline⟩ := mem_text_ofText hl c hc
    obtain ⟨hsemicolon, hsharp⟩ := isComment_eq_false_iff.1 hcomment
    exact ⟨hsemicolon, hsharp, hnewline⟩

/-- A text with comments, lines that say nothing, carriage returns, and no end of the last line. -/
def commentedText : Text := "# first\r\n_main:\r\n\n\tmov r1, 2 ; one # two\r\n ;\nnop#".toList

theorem ofText_iff_commentedText :
    ListsAll commentedText
        [⟨2, "_main:".toList⟩, ⟨4, "mov r1, 2".toList⟩, ⟨6, "nop".toList⟩] ∧
      ∀ c ∈ "mov r1, 2".toList, c ≠ ';' ∧ c ≠ '#' ∧ c ≠ '\n' := by
  obtain ⟨hlists, hclean, -⟩ := ofText_iff commentedText
  have hlines : [⟨2, "_main:".toList⟩, ⟨4, "mov r1, 2".toList⟩, ⟨6, "nop".toList⟩] =
      ofText commentedText := by decide
  have hmem : ⟨4, "mov r1, 2".toList⟩ ∈ ofText commentedText := by
    rw [← hlines]
    simp
  exact ⟨(hlists _).2 hlines, (hclean _ hmem).2⟩

end Line

end RegisterMachine
