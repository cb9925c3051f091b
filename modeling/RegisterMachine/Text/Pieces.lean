import RegisterMachine.Text.Blank

/-!
# RegisterMachine.Text.Pieces

Taking a text apart at separators.

* `Text.pieces sep s` is everything that stands between the separators, so a
  text with `n` separators has `n + 1` pieces, empty ones included;
* `Text.cut? p s` splits once, at the first character that satisfies `p`, and
  drops that character;
* `Text.stripEnd? c s` takes the character `c` off the end, if it is there.

Each is pinned down by the equation that puts the text together again.
-/

namespace RegisterMachine.Text

/-- The texts between the occurrences of `sep`. There is always at least one. -/
def pieces (sep : Char) : Text → List Text
  | [] => [[]]
  | c :: cs => if c = sep then [] :: pieces sep cs else (pieces sep cs).modifyHead (c :: ·)

/-- What stands before and after the first character that satisfies `p`. -/
def cut? (p : Char → Bool) : Text → Option (Text × Text)
  | [] => none
  | c :: cs =>
    if p c then some ([], cs) else (cut? p cs).map fun parts => (c :: parts.1, parts.2)

/-- The text without a final `c`, if it ends in `c`. -/
def stripEnd? (c : Char) (s : Text) : Option Text :=
  if s.getLast? = some c then some s.dropLast else none

/-! ### Pieces -/

@[simp] theorem pieces_nil (sep : Char) : pieces sep [] = [[]] := rfl

theorem pieces_ne_nil (sep : Char) (s : Text) : pieces sep s ≠ [] := by
  cases s with
  | nil => simp
  | cons c cs =>
    rw [pieces]
    split
    · simp
    · cases h : pieces sep cs with
      | nil => exact absurd h (pieces_ne_nil sep cs)
      | cons p ps => simp

/-- No piece contains the separator. -/
theorem not_mem_of_mem_pieces {sep : Char} {s p : Text} (h : p ∈ pieces sep s) : sep ∉ p := by
  induction s generalizing p with
  | nil =>
    obtain rfl : p = [] := by simpa using h
    simp
  | cons c cs ih =>
    rw [pieces] at h
    split at h
    · rcases List.mem_cons.1 h with rfl | h
      · simp
      · exact ih h
    · rename_i hc
      cases hp : pieces sep cs with
      | nil => exact absurd hp (pieces_ne_nil sep cs)
      | cons q qs =>
        rw [hp, List.modifyHead_cons] at h
        rcases List.mem_cons.1 h with rfl | h
        · have := ih (p := q) (by simp [hp])
          simp [this, Ne.symm hc]
        · exact ih (by simp [hp, h])

/-- The pieces, with the separator between them, are the text. -/
theorem intercalate_pieces (sep : Char) (s : Text) : [sep].intercalate (pieces sep s) = s := by
  induction s with
  | nil => rfl
  | cons c cs ih =>
    cases hp : pieces sep cs with
    | nil => exact absurd hp (pieces_ne_nil sep cs)
    | cons q qs =>
      rw [hp] at ih
      rw [pieces, hp]
      split
      · rename_i h
        rw [List.intercalate_cons_cons, ih, h]
        rfl
      · cases qs with
        | nil => simpa [List.intercalate] using ih
        | cons r rs =>
          rw [List.intercalate_cons_cons] at ih
          rw [List.modifyHead_cons, List.intercalate_cons_cons, ← ih]
          rfl

/-- A separator ends a piece, whatever stands behind it. -/
theorem pieces_append_cons (sep : Char) (s t : Text) :
    pieces sep (s ++ sep :: t) = pieces sep s ++ pieces sep t := by
  induction s with
  | nil => simp [pieces]
  | cons c cs ih =>
    rw [List.cons_append, pieces, pieces, ih]
    split
    · rfl
    · cases h : pieces sep cs with
      | nil => exact absurd h (pieces_ne_nil sep cs)
      | cons p ps => simp

/-- A text without the separator is one piece. -/
theorem pieces_of_not_mem {sep : Char} {s : Text} (h : sep ∉ s) : pieces sep s = [s] := by
  induction s with
  | nil => rfl
  | cons c cs ih =>
    rw [List.mem_cons, not_or] at h
    rw [pieces, if_neg (Ne.symm h.1), ih h.2]
    rfl

/-- Pieces that are put together are the pieces again. -/
theorem pieces_intercalate {sep : Char} {s : Text} {ss : List Text}
    (h : ∀ t ∈ s :: ss, sep ∉ t) : pieces sep ([sep].intercalate (s :: ss)) = s :: ss := by
  induction ss generalizing s with
  | nil =>
    rw [List.intercalate_singleton]
    exact pieces_of_not_mem (h s List.mem_cons_self)
  | cons t ss ih =>
    have hs : sep ∉ s := h s List.mem_cons_self
    rw [List.intercalate_cons_cons, List.append_assoc, List.singleton_append, pieces_append_cons,
      pieces_of_not_mem hs, ih fun u hu => h u (List.mem_cons_of_mem s hu)]
    rfl

/-- Where two texts are put together, the last piece of the one and the first piece of the other
become one. -/
theorem pieces_append {sep : Char} {s t a b : Text} {ss ts : List Text}
    (hs : pieces sep s = ss ++ [a]) (ht : pieces sep t = b :: ts) :
    pieces sep (s ++ t) = ss ++ (a ++ b) :: ts := by
  induction s generalizing ss a with
  | nil =>
    obtain ⟨rfl, rfl⟩ : ss = [] ∧ a = [] := by cases ss <;> simp_all
    exact ht
  | cons c cs ih =>
    rw [pieces] at hs
    rw [List.cons_append, pieces]
    split
    · rename_i hc
      rw [if_pos hc] at hs
      cases ss with
      | nil => exact absurd (List.cons.inj hs).2 (pieces_ne_nil sep cs)
      | cons p ss =>
        obtain ⟨rfl, hcs⟩ := List.cons.inj hs
        rw [ih hcs]
        rfl
    · rename_i hc
      rw [if_neg hc] at hs
      obtain ⟨q, qs, hcs⟩ := List.exists_cons_of_ne_nil (pieces_ne_nil sep cs)
      rw [hcs, List.modifyHead_cons] at hs
      -- the piece that `c` is put in front of may be the last one
      cases ss with
      | nil =>
        obtain ⟨rfl, rfl⟩ := List.cons.inj hs
        have hlast : pieces sep cs = [] ++ [q] := hcs
        rw [ih hlast]
        rfl
      | cons p ss =>
        obtain ⟨rfl, rfl⟩ := List.cons.inj hs
        have hearlier : pieces sep cs = (q :: ss) ++ [a] := hcs
        rw [ih hearlier]
        rfl

theorem length_pieces (sep : Char) (s : Text) : (pieces sep s).length = s.count sep + 1 := by
  induction s with
  | nil => rfl
  | cons c cs ih =>
    rw [pieces]
    split
    · rename_i hc
      rw [List.length_cons, ih, hc, List.count_cons_self]
    · rename_i hc
      rw [List.length_modifyHead, ih, List.count_cons_of_ne hc]

/-! ### A single cut -/

theorem eq_append_of_cut? {p : Char → Bool} {s a b : Text} (h : cut? p s = some (a, b)) :
    ∃ c, s = a ++ c :: b ∧ p c = true ∧ ∀ d ∈ a, p d = false := by
  induction s generalizing a with
  | nil => simp [cut?] at h
  | cons c cs ih =>
    rw [cut?] at h
    split at h
    · rename_i hc
      obtain ⟨rfl, rfl⟩ : [] = a ∧ cs = b := by simpa using h
      exact ⟨c, rfl, hc, by simp⟩
    · rename_i hc
      obtain ⟨⟨a', b'⟩, hcut, hab⟩ := Option.map_eq_some_iff.1 h
      obtain ⟨rfl, rfl⟩ : c :: a' = a ∧ b' = b := by simpa using hab
      obtain ⟨d, hs, hd, ha⟩ := ih hcut
      refine ⟨d, by rw [hs]; rfl, hd, ?_⟩
      intro e he
      rcases List.mem_cons.1 he with rfl | he
      · simpa using hc
      · exact ha e he

theorem cut?_append {p : Char → Bool} {a : Text} (ha : ∀ d ∈ a, p d = false) {c : Char}
    (hc : p c = true) (b : Text) : cut? p (a ++ c :: b) = some (a, b) := by
  induction a with
  | nil => simp [cut?, hc]
  | cons d ds ih =>
    have hd : p d = false := ha d (by simp)
    simp [cut?, hd, ih fun e he => ha e (by simp [he])]

theorem cut?_eq_none_iff {p : Char → Bool} {s : Text} :
    cut? p s = none ↔ ∀ c ∈ s, p c = false := by
  induction s with
  | nil => simp [cut?]
  | cons c cs ih =>
    rw [cut?]
    by_cases hc : p c = true
    · simp [hc]
    · simp only [hc, Bool.false_eq_true, if_false, Option.map_eq_none_iff, ih, List.mem_cons,
        forall_eq_or_imp]
      simp

/-! ### A final character -/

theorem stripEnd?_eq_some_iff {c : Char} {s t : Text} : stripEnd? c s = some t ↔ s = t ++ [c] := by
  unfold stripEnd?
  constructor
  · intro h
    split at h
    · rename_i hlast
      obtain ⟨u, rfl⟩ := List.getLast?_eq_some_iff.1 hlast
      obtain rfl : u = t := by simpa using h
      rfl
    · cases h
  · rintro rfl
    simp

theorem stripEnd?_eq_none_iff {c : Char} {s : Text} :
    stripEnd? c s = none ↔ s.getLast? ≠ some c := by
  unfold stripEnd?
  split <;> simp_all

end RegisterMachine.Text
