import RegisterMachine.Proofs.Assembly.Renumbering
import RegisterMachine.Proofs.Text.Identifier

/-!
# RegisterMachine.Proofs.Assembly.Spacing

The layout of a program's text does not change the program. Lines may be added that
say nothing, blanks at the two ends of a line, comments behind it, and the lines
may end with a carriage return; any number of such edits (`Text.Edits`) leaves the
image as it is, and an error is the same at the new number of its line
(`assemble_edited`).

An edit of a line puts something into it that says nothing (`Line.Silent`), and
the pieces of an edited text are those of the text but for the one in which the
edit was made.
-/

namespace RegisterMachine

/-! ### Edits -/

namespace Text

/-- The text is blank and does not end a line. -/
def IsSpace (s : Text) : Prop := ∀ c ∈ s, isBlank c = true ∧ c ≠ '\n'

/-- The text is a comment, and does not end a line. -/
def IsComment (s : Text) : Prop := (∃ c ∈ s.head?, Line.isComment c = true) ∧ '\n' ∉ s

/-- The text is blank or a comment, which blanks may precede, and does not end a line. -/
def IsIdle (s : Text) : Prop :=
  ∃ space comment, s = space ++ comment ∧ IsSpace space ∧ (comment = [] ∨ IsComment comment)

/-- A line begins behind the text. -/
def BeforeLine (front : Text) : Prop := front = [] ∨ front.getLast? = some '\n'

/-- A line ends before the text. -/
def BehindLine (back : Text) : Prop :=
  back = [] ∨ ∃ rest, back = '\n' :: rest ∨ back = '\r' :: '\n' :: rest

/-- The text with a carriage return at the end of each line. -/
def crlf (s : Text) : Text := s.flatMap fun c => if c = '\n' then ['\r', '\n'] else [c]

/-- The number of a line when another one was put behind the first `count` lines. -/
def makeRoom (count line : Nat) : Nat := if line ≤ count then line else line + 1

/-- An edit of a text, with the new numbers of its lines. -/
inductive Edit : Text → Text → (Nat → Nat) → Prop
  | line (front idle back : Text) : BeforeLine front → IsIdle idle →
      Edit (front ++ back) (front ++ (idle ++ '\n' :: back)) (makeRoom (front.count '\n'))
  | lastLine (text idle : Text) : IsIdle idle → Edit text (text ++ '\n' :: idle) id
  | spaceBefore (front space back : Text) : BeforeLine front → IsSpace space →
      Edit (front ++ back) (front ++ (space ++ back)) id
  | spaceBehind (front space back : Text) : BehindLine back → IsSpace space →
      Edit (front ++ back) (front ++ (space ++ back)) id
  | comment (front comment back : Text) : BehindLine back → IsComment comment →
      Edit (front ++ back) (front ++ (comment ++ back)) id
  | crlf (text : Text) : Edit text text.crlf id

/-- Any number of edits, one after the other. -/
inductive Edits : Text → Text → (Nat → Nat) → Prop
  | none (text : Text) : Edits text text id
  | step {text edited last : Text} {place next : Nat → Nat} :
      Edits text edited place → Edit edited last next → Edits text last (next ∘ place)

end Text

/-! ### What says nothing -/

namespace Line

/-- What stands before the first comment is blank. -/
def Silent (s : Text) : Prop := ∀ c ∈ s.takeWhile fun c => !isComment c, Text.isBlank c = true

variable {s t : Text}

theorem isComment_of_isBlank {c : Char} (h : Text.isBlank c = true) : isComment c = false := by
  rw [Bool.eq_false_iff]
  intro hc
  obtain rfl | rfl := isComment_iff.1 hc
  · cases h
  · cases h

theorem takeWhile_blank_append (hs : ∀ c ∈ s, Text.isBlank c = true) (t : Text) :
    (s ++ t).takeWhile (fun c => !isComment c) = s ++ t.takeWhile fun c => !isComment c :=
  takeWhile_append (fun c hc => isComment_of_isBlank (hs c hc)) t

theorem silent_nil : Silent [] := List.forall_mem_nil _

theorem Silent.blank_append (ht : Silent t) (hs : ∀ c ∈ s, Text.isBlank c = true) :
    Silent (s ++ t) := by
  intro c hc
  rw [takeWhile_blank_append hs] at hc
  exact (List.mem_append.1 hc).elim (hs c) (ht c)

theorem silent_of_blank (hs : ∀ c ∈ s, Text.isBlank c = true) : Silent s := by
  have h := silent_nil.blank_append hs
  rwa [List.append_nil] at h

/-- A comment is silent, whatever stands behind it. -/
theorem silent_of_comment (hs : Text.IsComment s) (t : Text) : Silent (s ++ t) := by
  obtain ⟨⟨c, hc, hcomment⟩, -⟩ := hs
  obtain ⟨rest, rfl⟩ := List.head?_eq_some_iff.1 hc
  intro d hd
  rw [List.cons_append, List.takeWhile_cons, hcomment] at hd
  cases hd

/-- What is silent does not add to a line. -/
theorem content_append (s : Text) (ht : Silent t) : content (s ++ t) = content s := by
  rw [content, content, List.takeWhile_append]
  split
  · rename_i hlength
    have hs : s.takeWhile (fun c => !isComment c) = s :=
      (List.takeWhile_prefix _).eq_of_length hlength
    rw [hs, ← List.nil_append (s ++ _)]
    exact Text.trim_blanks (List.forall_mem_nil _) ht
  · rfl

theorem content_of_silent (ht : Silent t) : content t = [] := content_append [] ht

/-- Blanks at the beginning of a line do not count. -/
theorem content_blank_append (hs : ∀ c ∈ s, Text.isBlank c = true) (t : Text) :
    content (s ++ t) = content t := by
  rw [content, takeWhile_blank_append hs, ← List.append_nil (t.takeWhile _)]
  exact Text.trim_blanks hs (List.forall_mem_nil _)

end Line

/-! ### The pieces of an edited text -/

/-- Only the contents of some lines matter, and their order. -/
theorem Line.numberFrom_congr {ss ts : List Text} (h : ss.map content = ts.map content) (n : Nat) :
    numberFrom n ss = numberFrom n ts := by
  induction ss generalizing n ts with
  | nil =>
    rw [List.map_eq_nil_iff.1 h.symm]
  | cons s ss ih =>
    cases ts with
    | nil => cases h
    | cons t ts =>
      obtain ⟨hfirst, hrest⟩ := List.cons.inj h
      rw [numberFrom, numberFrom, hfirst, ih hrest]

namespace Text

variable {s front back : Text}

theorem IsSpace.blank (h : IsSpace s) : ∀ c ∈ s, isBlank c = true := fun c hc => (h c hc).1

theorem IsSpace.not_mem (h : IsSpace s) : '\n' ∉ s := fun hmem => (h '\n' hmem).2 rfl

theorem IsIdle.not_mem (h : IsIdle s) : '\n' ∉ s := by
  obtain ⟨space, comment, rfl, hspace, rfl | hcomment⟩ := h
  · rw [List.append_nil]
    exact hspace.not_mem
  · exact fun hmem => (List.mem_append.1 hmem).elim hspace.not_mem hcomment.2

theorem IsIdle.content (h : IsIdle s) : Line.content s = [] := by
  obtain ⟨space, comment, rfl, hspace, hcomment⟩ := h
  refine Line.content_of_silent (Line.Silent.blank_append ?_ hspace.blank)
  obtain rfl | hcomment := hcomment
  · exact Line.silent_nil
  · have hsilent := Line.silent_of_comment hcomment []
    rwa [List.append_nil] at hsilent

theorem pieces_of_beforeLine (h : BeforeLine front) :
    ∃ ss, ss.length = front.count '\n' ∧
      ∀ back, pieces '\n' (front ++ back) = ss ++ pieces '\n' back := by
  obtain rfl | hlast := h
  · exact ⟨[], rfl, fun back => rfl⟩
  · obtain ⟨s, rfl⟩ := List.getLast?_eq_some_iff.1 hlast
    refine ⟨pieces '\n' s, ?_, ?_⟩
    · rw [length_pieces, List.count_append, List.count_singleton_self]
    · intro back
      rw [List.append_assoc, List.singleton_append, pieces_append_cons]

/-- There is nothing of a line before the line begins. -/
theorem eq_nil_of_beforeLine (h : BeforeLine front) {ss : List Text} {a : Text}
    (hfront : pieces '\n' front = ss ++ [a]) : a = [] := by
  obtain ⟨ts, -, hpieces⟩ := pieces_of_beforeLine h
  have hlast : ss ++ [a] = ts ++ [[]] := by
    rw [← hfront, ← List.append_nil front, hpieces]
    rfl
  exact List.head_eq_of_cons_eq (List.append_inj_right' hlast rfl)

/-- What is left of a line before which a line ends is nothing, or a carriage return. -/
theorem pieces_of_behindLine (h : BehindLine back) :
    ∃ t ts, pieces '\n' back = t :: ts ∧ ∀ c ∈ t, isBlank c = true := by
  obtain rfl | ⟨rest, rfl | rfl⟩ := h
  · exact ⟨[], [], rfl, nofun⟩
  · exact ⟨[], pieces '\n' rest, rfl, nofun⟩
  · refine ⟨['\r'], pieces '\n' rest, rfl, ?_⟩
    intro c hc
    obtain rfl := List.mem_singleton.1 hc
    rfl

/-- Text that is put into a line changes no other line. -/
theorem pieces_insert (hs : '\n' ∉ s) (front back : Text) :
    ∃ ss a b ts, pieces '\n' front = ss ++ [a] ∧ pieces '\n' back = b :: ts ∧
      pieces '\n' (front ++ back) = ss ++ (a ++ b) :: ts ∧
      pieces '\n' (front ++ (s ++ back)) = ss ++ (a ++ (s ++ b)) :: ts := by
  obtain ⟨b, ts, hback⟩ := List.exists_cons_of_ne_nil (pieces_ne_nil '\n' back)
  obtain ⟨ss, a, hfront⟩ : ∃ ss a, pieces '\n' front = ss ++ [a] :=
    ⟨_, _, (List.dropLast_concat_getLast (pieces_ne_nil '\n' front)).symm⟩
  have hline : pieces '\n' s = [] ++ [s] := pieces_of_not_mem hs
  exact ⟨ss, a, b, ts, hfront, hback, pieces_append hfront hback,
    pieces_append hfront (pieces_append hline hback)⟩

theorem crlf_append (s t : Text) : crlf (s ++ t) = crlf s ++ crlf t := List.flatMap_append

theorem crlf_of_not_mem (h : '\n' ∉ s) : crlf s = s := by
  induction s with
  | nil => rfl
  | cons c cs ih =>
    rw [List.mem_cons, not_or] at h
    rw [crlf, List.flatMap_cons, if_neg (Ne.symm h.1), ← crlf, ih h.2]
    rfl

/-- A carriage return at the end of a line is no part of what the line says. -/
theorem content_append_return (line : Text) :
    Line.content (line ++ ['\r']) = Line.content line := by
  refine Line.content_append line (Line.silent_of_blank ?_)
  intro c hc
  obtain rfl := List.mem_singleton.1 hc
  rfl

theorem map_content_crlf_intercalate {line : Text} {lines : List Text}
    (h : ∀ t ∈ line :: lines, '\n' ∉ t) :
    (pieces '\n' (crlf (['\n'].intercalate (line :: lines)))).map Line.content =
      (line :: lines).map Line.content := by
  induction lines generalizing line with
  | nil =>
    have hline : '\n' ∉ line := h line List.mem_cons_self
    rw [List.intercalate_singleton, crlf_of_not_mem hline, pieces_of_not_mem hline]
  | cons next lines ih =>
    have hline : '\n' ∉ line := h line List.mem_cons_self
    have hreturn : '\n' ∉ line ++ ['\r'] := by simpa using hline
    have hrest := ih fun t ht => h t (List.mem_cons_of_mem line ht)
    have hcrlf : crlf (['\n'].intercalate (line :: next :: lines)) =
        (line ++ ['\r']) ++ '\n' :: crlf (['\n'].intercalate (next :: lines)) := by
      rw [List.intercalate_cons_cons, crlf_append, crlf_append, crlf_of_not_mem hline]
      simp [crlf]
    rw [hcrlf, pieces_append_cons, pieces_of_not_mem hreturn, List.singleton_append,
      List.map_cons, List.map_cons, hrest, content_append_return]

theorem map_content_crlf (s : Text) :
    (pieces '\n' (crlf s)).map Line.content = (pieces '\n' s).map Line.content := by
  obtain ⟨line, lines, hs⟩ := List.exists_cons_of_ne_nil (pieces_ne_nil '\n' s)
  have hclean : ∀ t ∈ line :: lines, '\n' ∉ t := by
    intro t ht
    rw [← hs] at ht
    exact not_mem_of_mem_pieces ht
  have hmap := map_content_crlf_intercalate hclean
  rwa [← hs, intercalate_pieces] at hmap

end Text

/-! ### The lines of an edited text -/

namespace Line

open Text

variable {place : Nat → Nat}

theorem numberFrom_succ (n : Nat) (ss : List Text) :
    numberFrom (n + 1) ss = (numberFrom n ss).map (renumber (· + 1)) := by
  induction ss generalizing n with
  | nil => rfl
  | cons s ss ih =>
    rw [numberFrom, numberFrom, ih (n + 1)]
    split <;> rfl

theorem number_lt {l : Line} {n : Nat} {ss : List Text} (h : l ∈ numberFrom n ss) :
    l.number < n + ss.length := by
  have hat := content_at_number h
  obtain ⟨s, hs, -⟩ := Option.map_eq_some_iff.1 hat
  obtain ⟨hlt, -⟩ := List.getElem?_eq_some_iff.1 hs
  omega

/-- A line that says nothing moves those behind it. -/
theorem numberFrom_insert {idle : Text} (h : content idle = []) (ss ts : List Text) :
    numberFrom 1 (ss ++ idle :: ts) =
      (numberFrom 1 (ss ++ ts)).map (renumber (makeRoom ss.length)) := by
  have hidle (n : Nat) : numberFrom n (idle :: ts) = numberFrom (n + 1) ts := if_pos h
  have hbefore : (numberFrom 1 ss).map (renumber (makeRoom ss.length)) = numberFrom 1 ss := by
    refine (List.map_congr_left fun l hl => ?_).trans (List.map_id _)
    have hnumber : l.number ≤ ss.length := by
      have hlt := number_lt hl
      omega
    show (⟨makeRoom ss.length l.number, l.text⟩ : Line) = l
    rw [makeRoom, if_pos hnumber]
  have hbehind : (numberFrom (1 + ss.length) ts).map (renumber (makeRoom ss.length)) =
      numberFrom (1 + ss.length + 1) ts := by
    rw [numberFrom_succ]
    refine List.map_congr_left fun l hl => ?_
    have hnumber : ¬l.number ≤ ss.length := by
      have hle := le_number hl
      omega
    show (⟨makeRoom ss.length l.number, l.text⟩ : Line) = ⟨l.number + 1, l.text⟩
    rw [makeRoom, if_neg hnumber]
  rw [numberFrom_append, numberFrom_append, List.map_append, hbefore, hbehind, hidle]

/-- What is put into a line does not matter if it is not part of what the line says. -/
theorem ofText_insert {s front back : Text} (hs : '\n' ∉ s)
    (h : ∀ ss a b ts, pieces '\n' front = ss ++ [a] → pieces '\n' back = b :: ts →
      content (a ++ (s ++ b)) = content (a ++ b)) :
    ofText (front ++ (s ++ back)) = ofText (front ++ back) := by
  obtain ⟨ss, a, b, ts, hfront, hback, hplain, hedited⟩ := pieces_insert hs front back
  refine numberFrom_congr ?_ 1
  rw [hplain, hedited]
  simp [h ss a b ts hfront hback]

theorem ofText_insert_behind {s front back : Text} (hs : '\n' ∉ s) (hback : BehindLine back)
    (h : ∀ t, (∀ c ∈ t, isBlank c = true) → Silent (s ++ t)) :
    ofText (front ++ (s ++ back)) = ofText (front ++ back) := by
  refine ofText_insert hs fun ss a b ts _ hb => ?_
  obtain ⟨t, ts', ht, hblank⟩ := pieces_of_behindLine hback
  obtain ⟨rfl, -⟩ := List.cons.inj (hb.symm.trans ht)
  rw [content_append a (h b hblank), content_append a (silent_of_blank hblank)]

/-- The lines of an edited text are those of the text, in their new places. -/
theorem ofText_of_edit {text edited : Text} (h : Edit text edited place) :
    ofText edited = (ofText text).map (renumber place) := by
  -- an edit that leaves all lines where they are
  have hstay {s t : Text} (hsame : ofText s = ofText t) :
      ofText s = (ofText t).map (renumber id) := by
    rw [hsame]
    exact (List.map_id _).symm
  cases h with
  | line front idle back hfront hidle =>
    obtain ⟨ss, hlength, hpieces⟩ := pieces_of_beforeLine hfront
    rw [ofText, ofText, hpieces, hpieces, pieces_append_cons, pieces_of_not_mem hidle.not_mem,
      ← hlength]
    exact numberFrom_insert hidle.content ss _
  | lastLine _ idle hidle =>
    refine hstay ?_
    rw [ofText, pieces_append_cons, pieces_of_not_mem hidle.not_mem, numberFrom_append, numberFrom,
      if_pos hidle.content]
    exact List.append_nil _
  | spaceBefore front space back hfront hspace =>
    refine hstay (ofText_insert hspace.not_mem fun ss a b ts ha _ => ?_)
    obtain rfl := eq_nil_of_beforeLine hfront ha
    exact content_blank_append hspace.blank b
  | spaceBehind front space back hback hspace =>
    refine hstay (ofText_insert_behind hspace.not_mem hback fun t ht => ?_)
    exact (silent_of_blank ht).blank_append hspace.blank
  | comment front comment back hback hcomment =>
    exact hstay (ofText_insert_behind hcomment.2 hback fun t _ => silent_of_comment hcomment t)
  | crlf => exact hstay (numberFrom_congr (map_content_crlf text) 1)

theorem ofText_of_edits {text edited : Text} (h : Edits text edited place) :
    ofText edited = (ofText text).map (renumber place) := by
  induction h with
  | none => exact (List.map_id _).symm
  | step _ hedit ih =>
    rw [ofText_of_edit hedit, ih, List.map_map]
    rfl

end Line

/-! ### Programs -/

/-- The layout of a text does not change the program. After any number of edits that add only
lines and ends of lines that say nothing, the program has the same image, or the same error at
the new number of its line; and all lines that say something still say it in their new places. -/
theorem assemble_edited {source edited : String} {place : Nat → Nat}
    (h : Text.Edits source.toList edited.toList place) :
    assemble edited = (assemble source).mapError (fun e => ⟨place e.line, e.cause⟩) ∧
      Line.ofText edited.toList =
        (Line.ofText source.toList).map fun l => ⟨place l.number, l.text⟩ := by
  have hlines := Line.ofText_of_edits h
  refine ⟨?_, hlines⟩
  rw [assemble, hlines]
  exact assembleLines_renumber place (Line.ofText source.toList)

/-- A line in front, a tabulator and a comment around the last line, and then other ends of lines.
The wrong line is the third one after that. -/
theorem assemble_edited_halt :
    assemble "_main:\nhalt" = .error ⟨2, .unknownOpcode "halt".toList⟩ ∧
      assemble "# go\r\n_main:\r\n\thalt; now" = .error ⟨3, .unknownOpcode "halt".toList⟩ := by
  have hcomment {c : Char} {s : Text} (hc : Line.isComment c = true) (hs : '\n' ∉ c :: s) :
      Text.IsComment (c :: s) := ⟨⟨c, rfl, hc⟩, hs⟩
  have hline : Text.Edit "_main:\nhalt".toList "# go\n_main:\nhalt".toList (Text.makeRoom 0) :=
    .line [] "# go".toList "_main:\nhalt".toList (Or.inl rfl)
      ⟨[], _, rfl, nofun, Or.inr (hcomment rfl (by decide))⟩
  have hspace : Text.Edit "# go\n_main:\nhalt".toList "# go\n_main:\n\thalt".toList id :=
    .spaceBefore "# go\n_main:\n".toList "\t".toList "halt".toList (Or.inr rfl) (by
      intro c hc
      obtain rfl := List.mem_singleton.1 hc
      decide)
  have hbehind : Text.Edit "# go\n_main:\n\thalt".toList "# go\n_main:\n\thalt; now".toList id :=
    .comment "# go\n_main:\n\thalt".toList "; now".toList [] (Or.inl rfl)
      (hcomment rfl (by decide))
  have hedits : Text.Edits "_main:\nhalt".toList
      "# go\r\n_main:\r\n\thalt; now".toList (id ∘ id ∘ id ∘ Text.makeRoom 0 ∘ id) :=
    .step (.step (.step (.step (.none _) hline) hspace) hbehind) (.crlf _)
  have herror : assemble "_main:\nhalt" = .error ⟨2, .unknownOpcode "halt".toList⟩ := rfl
  refine ⟨herror, ?_⟩
  rw [(assemble_edited hedits).1, herror]
  rfl

end RegisterMachine
