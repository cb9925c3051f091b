/-!
# RegisterMachine.Text.Blank

Text is a list of characters, so that everything that reads it is a recursion
on its shape. This module fixes what counts as **blank** and how blanks are
removed from the two ends of a text.

Blank is the Unicode property `White_Space`: twenty-five code points, of which
only six are ASCII. The table is closed, so membership is a computation on the
code point and never a question about a locale.

* `Text.trimStart`, `Text.trimEnd`, `Text.trim` remove blanks at the ends;
* `Text.trim_trim` and `Text.trim_eq_self_iff` say that a trimmed text is
  exactly one whose first and last characters are not blank.
-/

namespace RegisterMachine

/-- A text, as the list of its characters. -/
abbrev Text := List Char

namespace Text

/-- The ranges of code points that have the property `White_Space`, in order. -/
def blankRanges : List (Nat × Nat) :=
  [(0x09, 0x0D), (0x20, 0x20), (0x85, 0x85), (0xA0, 0xA0), (0x1680, 0x1680),
    (0x2000, 0x200A), (0x2028, 0x2029), (0x202F, 0x202F), (0x205F, 0x205F),
    (0x3000, 0x3000)]

/-- Is the character white space, in the sense of Unicode? -/
def isBlank (c : Char) : Bool :=
  blankRanges.any fun range => range.1 ≤ c.toNat && c.toNat ≤ range.2

/-- The text from its first character that is not blank. -/
def trimStart (s : Text) : Text := s.dropWhile isBlank

/-- The text up to its last character that is not blank. -/
def trimEnd (s : Text) : Text := (s.reverse.dropWhile isBlank).reverse

/-- The text without the blanks at its two ends. -/
def trim (s : Text) : Text := trimEnd (trimStart s)

/-- The letters `A` to `Z` in lower case, everything else as it is. -/
def lower (s : Text) : Text := s.map Char.toLower

/-! ### Trimming -/

@[simp] theorem trim_nil : trim [] = [] := rfl

theorem trimStart_eq_self {s : Text} (h : ∀ c ∈ s.head?, isBlank c = false) :
    trimStart s = s := by
  cases s with
  | nil => rfl
  | cons c cs => simp [trimStart, h c (by simp)]

theorem isBlank_head_trimStart (s : Text) : ∀ c ∈ (trimStart s).head?, isBlank c = false := by
  intro c hc
  have h := List.head?_dropWhile_not isBlank s
  rw [show s.dropWhile isBlank = trimStart s from rfl, hc] at h
  simpa using h

theorem trimEnd_eq_self {s : Text} (h : ∀ c ∈ s.getLast?, isBlank c = false) :
    trimEnd s = s := by
  have h' : ∀ c ∈ s.reverse.head?, isBlank c = false := by simpa using h
  show (trimStart s.reverse).reverse = s
  rw [trimStart_eq_self h', List.reverse_reverse]

theorem isBlank_getLast_trimEnd (s : Text) :
    ∀ c ∈ (trimEnd s).getLast?, isBlank c = false := by
  intro c hc
  refine isBlank_head_trimStart s.reverse c ?_
  simpa [trimEnd, trimStart] using hc

/-- The text that is left is an initial part of the text that was given. -/
theorem trimEnd_append_blanks (s : Text) :
    ∃ t, s = trimEnd s ++ t ∧ ∀ c ∈ t, isBlank c = true := by
  refine ⟨(s.reverse.takeWhile isBlank).reverse, ?_, ?_⟩
  · rw [trimEnd, ← List.reverse_append, List.takeWhile_append_dropWhile, List.reverse_reverse]
  · intro c hc
    exact List.all_eq_true.1 List.all_takeWhile c (List.mem_reverse.1 hc)

theorem isBlank_head_trimEnd {s : Text} (h : ∀ c ∈ s.head?, isBlank c = false) :
    ∀ c ∈ (trimEnd s).head?, isBlank c = false := by
  intro c hc
  obtain ⟨t, hs, -⟩ := trimEnd_append_blanks s
  refine h c ?_
  rw [hs, List.head?_append]
  cases ht : (trimEnd s).head? with
  | none => simp [ht] at hc
  | some d => rw [ht] at hc; simpa using hc

theorem isBlank_head_trim (s : Text) : ∀ c ∈ (trim s).head?, isBlank c = false :=
  isBlank_head_trimEnd (isBlank_head_trimStart s)

theorem isBlank_getLast_trim (s : Text) : ∀ c ∈ (trim s).getLast?, isBlank c = false :=
  isBlank_getLast_trimEnd (trimStart s)

theorem trim_eq_self {s : Text} (hhead : ∀ c ∈ s.head?, isBlank c = false)
    (hlast : ∀ c ∈ s.getLast?, isBlank c = false) : trim s = s := by
  rw [trim, trimStart_eq_self hhead, trimEnd_eq_self hlast]

theorem trim_eq_self_iff {s : Text} :
    trim s = s ↔
      (∀ c ∈ s.head?, isBlank c = false) ∧ (∀ c ∈ s.getLast?, isBlank c = false) := by
  refine ⟨fun h => ?_, fun h => trim_eq_self h.1 h.2⟩
  rw [← h]
  exact ⟨isBlank_head_trim s, isBlank_getLast_trim s⟩

/-- Trimming a second time changes nothing. -/
@[simp] theorem trim_trim (s : Text) : trim (trim s) = trim s :=
  trim_eq_self (isBlank_head_trim s) (isBlank_getLast_trim s)

theorem mem_of_mem_trim {c : Char} {s : Text} (h : c ∈ trim s) : c ∈ s := by
  have hstart (u : Text) (hc : c ∈ u.dropWhile isBlank) : c ∈ u :=
    (List.dropWhile_sublist isBlank).mem hc
  exact hstart s (List.mem_reverse.1 (hstart _ (List.mem_reverse.1 h)))

end Text

end RegisterMachine
