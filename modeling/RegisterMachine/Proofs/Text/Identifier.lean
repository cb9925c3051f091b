import RegisterMachine.Isa.Register
import RegisterMachine.Proofs.Text.Spelling
import RegisterMachine.Text.Pieces

/-!
# RegisterMachine.Proofs.Text.Identifier

The names that nothing else in a program is read as: identifiers that are neither
a register's name nor the name of a section. A map of them is applied to a text
by `Text.respell`, which leaves every other text alone.

Putting one word in the place of another changes no character at which a text is
cut, trimmed or given a meaning of its own. That is the relation
`Text.Respelled`: the two texts consist of the same characters, but for words in
the same places.
-/

namespace RegisterMachine

namespace Text

/-! ### Words -/

/-- The characters of a word: letters and digits of ASCII, and the underscore. -/
def isWordChar (c : Char) : Bool := c.isAlphanum || c == '_'

/-- Is the text a word that does not begin with a digit? -/
def isIdentifier : Text → Bool
  | [] => false
  | c :: cs => (c.isAlpha || c == '_') && cs.all isWordChar

/-- Is the text an identifier that neither a register nor a section has for its name? -/
def isPlain (s : Text) : Bool :=
  isIdentifier s && (Register.ofName? s).isNone && s != ['_', 'm', 'a', 'i', 'n'] &&
    s != ['_', 'd', 'a', 't', 'a']

/-- The text has characters, and all of them are those of a word. -/
structure IsWord (s : Text) : Prop where
  ne_nil : s ≠ []
  chars : ∀ c ∈ s, isWordChar c = true

variable {s t u v : Text} {c : Char}

theorem isWordChar_of_isAlpha (h : (c.isAlpha || c == '_') = true) : isWordChar c = true := by
  rw [Bool.or_eq_true] at h
  rw [isWordChar, Char.isAlphanum, Bool.or_eq_true, Bool.or_eq_true]
  exact h.imp Or.inl id

theorem isWord_of_isIdentifier (h : isIdentifier s = true) : IsWord s := by
  cases s with
  | nil => cases h
  | cons c cs =>
    rw [isIdentifier, Bool.and_eq_true] at h
    refine ⟨List.cons_ne_nil c cs, ?_⟩
    intro d hd
    obtain rfl | hd := List.mem_cons.1 hd
    · exact isWordChar_of_isAlpha h.1
    · exact List.all_eq_true.1 h.2 d hd

theorem toNat_lt_of_isWordChar (h : isWordChar c = true) : c.toNat < 123 := by
  have hranges : isWordChar c = (decide (c.val ≥ 'A'.val ∧ c.val ≤ 'Z'.val) ||
      (decide (c.val ≥ 'a'.val) && decide (c.val ≤ 'z'.val)) ||
      (decide (c.val ≥ '0'.val) && decide (c.val ≤ '9'.val)) || c == '_') := rfl
  simp only [hranges, Bool.or_eq_true, Bool.and_eq_true, decide_eq_true_eq, beq_iff_eq] at h
  have hle : c ≤ 'z' := by
    obtain ((h | h) | h) | rfl := h
    · exact Char.le_trans h.2 (by decide)
    · exact h.2
    · exact Char.le_trans h.2 (by decide)
    · decide
  exact Nat.lt_succ_of_le hle

/-- No word is cut or trimmed. -/
theorem isSolid_of_isWordChar (h : isWordChar c = true) : isSolid c = true :=
  forall_of_toNat_lt (p := fun c => isWordChar c = true → isSolid c = true) (by decide)
    (toNat_lt_of_isWordChar h) h

theorem IsWord.solid (h : IsWord s) : Solid s :=
  ⟨h.ne_nil, fun c hc => isSolid_of_isWordChar (h.chars c hc)⟩

theorem IsWord.not_mem (h : IsWord s) (hc : isWordChar c = false) : c ∉ s := by
  intro hmem
  rw [h.chars c hmem] at hc
  cases hc

end Text

/-! ### Identifiers -/

/-- A name that nothing else is read as. -/
structure Identifier where
  text : Text
  plain : text.isPlain = true
  deriving DecidableEq

namespace Identifier

theorem ext_text {x y : Identifier} (h : x.text = y.text) : x = y := by
  cases x
  cases y
  cases h
  rfl

theorem isIdentifier (x : Identifier) : x.text.isIdentifier = true := by
  have h := x.plain
  simp only [Text.isPlain, Bool.and_eq_true] at h
  exact h.1.1.1

theorem isWord (x : Identifier) : x.text.IsWord := Text.isWord_of_isIdentifier x.isIdentifier

theorem ofName? (x : Identifier) : Register.ofName? x.text = none := by
  have h := x.plain
  simp only [Text.isPlain, Bool.and_eq_true, Option.isNone_iff_eq_none] at h
  exact h.1.1.2

theorem exists_cons (x : Identifier) :
    ∃ c cs, x.text = c :: cs ∧ (c.isAlpha || c == '_') = true := by
  have h := x.isIdentifier
  cases hx : x.text with
  | nil =>
    rw [hx] at h
    cases h
  | cons c cs =>
    rw [hx, Text.isIdentifier, Bool.and_eq_true] at h
    exact ⟨c, cs, rfl, h.1⟩

/-- No identifier is a number. -/
theorem number? (x : Identifier) : Text.number? x.text = none := by
  obtain ⟨c, cs, hx, hc⟩ := x.exists_cons
  have hhead : Text.digit? 10 c = none ∧ c ≠ '0' ∧ c ≠ '-' ∧ c ≠ '+' :=
    Text.forall_of_toNat_lt
      (p := fun c => (c.isAlpha || c == '_') = true →
        Text.digit? 10 c = none ∧ c ≠ '0' ∧ c ≠ '-' ∧ c ≠ '+')
      (by decide) (Text.toNat_lt_of_isWordChar (Text.isWordChar_of_isAlpha hc)) hc
  obtain ⟨hdigit, hzero, hminus, hplus⟩ := hhead
  rw [Text.number?, x.isWord.solid.trim, hx]
  simp [Text.decimal?, Text.nat?, Text.natFrom?, hdigit, hzero, hminus, hplus]

end Identifier

/-! ### Words in the place of words -/

namespace Text

/-- The texts consist of the same characters, but for words in the same places. -/
inductive Respelled : Text → Text → Prop
  | nil : Respelled [] []
  | keep {s t : Text} (c : Char) : Respelled s t → Respelled (c :: s) (c :: t)
  | word {s t u v : Text} : IsWord u → IsWord v → Respelled s t → Respelled (u ++ s) (v ++ t)

namespace Respelled

variable {s t u v : Text} {c : Char}

theorem refl (s : Text) : Respelled s s := by
  induction s with
  | nil => exact .nil
  | cons c s ih => exact .keep c ih

theorem symm (h : Respelled s t) : Respelled t s := by
  induction h with
  | nil => exact .nil
  | keep c _ ih => exact .keep c ih
  | word hu hv _ ih => exact .word hv hu ih

theorem append (h : Respelled s t) (h' : Respelled u v) : Respelled (s ++ u) (t ++ v) := by
  induction h with
  | nil => exact h'
  | keep c _ ih => exact .keep c ih
  | word hu hv _ ih =>
    rw [List.append_assoc, List.append_assoc]
    exact .word hu hv ih

theorem of_isWord (hs : IsWord s) (ht : IsWord t) : Respelled s t := by
  rw [← List.append_nil s, ← List.append_nil t]
  exact .word hs ht .nil

theorem reverse (h : Respelled s t) : Respelled s.reverse t.reverse := by
  have hreverse {u : Text} (hu : IsWord u) : IsWord u.reverse :=
    ⟨by simpa using hu.ne_nil, fun c hc => hu.chars c (List.mem_reverse.1 hc)⟩
  induction h with
  | nil => exact .nil
  | keep c _ ih =>
    rw [List.reverse_cons, List.reverse_cons]
    exact ih.append (refl [c])
  | word hu hv _ ih =>
    rw [List.reverse_append, List.reverse_append]
    exact ih.append (of_isWord (hreverse hu) (hreverse hv))

/-- A character that no word has is the first one of both texts or of none. -/
theorem head? (h : Respelled s t) (hc : isWordChar c = false) :
    s.head? = some c ↔ t.head? = some c := by
  have hword {u v : Text} (hu : IsWord u) : (u ++ v).head? ≠ some c := by
    obtain ⟨d, ds, rfl⟩ := List.exists_cons_of_ne_nil hu.ne_nil
    intro hhead
    cases hhead
    exact hu.not_mem hc List.mem_cons_self
  cases h with
  | nil => exact Iff.rfl
  | keep d _ => exact Iff.rfl
  | word hu hv _ => exact iff_of_false (hword hu) (hword hv)

theorem getLast? (h : Respelled s t) (hc : isWordChar c = false) :
    s.getLast? = some c ↔ t.getLast? = some c := by
  rw [← List.head?_reverse, ← List.head?_reverse]
  exact h.reverse.head? hc

theorem mem_iff (h : Respelled s t) (hc : isWordChar c = false) : c ∈ s ↔ c ∈ t := by
  induction h with
  | nil => exact Iff.rfl
  | keep d _ ih => rw [List.mem_cons, List.mem_cons, ih]
  | word hu hv _ ih =>
    rw [List.mem_append, List.mem_append, ih, iff_false_intro (hu.not_mem hc),
      iff_false_intro (hv.not_mem hc)]

theorem eq_nil_iff (h : Respelled s t) : s = [] ↔ t = [] := by
  cases h with
  | nil => exact Iff.rfl
  | keep c _ => exact iff_of_false (List.cons_ne_nil _ _) (List.cons_ne_nil _ _)
  | word hu hv _ =>
    exact iff_of_false (List.append_ne_nil_of_left_ne_nil hu.ne_nil _)
      (List.append_ne_nil_of_left_ne_nil hv.ne_nil _)

theorem stripEnd?_eq_none (h : Respelled s t) (hc : isWordChar c = false)
    (hs : stripEnd? c s = none) : stripEnd? c t = none :=
  stripEnd?_eq_none_iff.2 ((not_congr (h.getLast? hc)).1 (stripEnd?_eq_none_iff.1 hs))

/-- What is trimmed stays trimmed. -/
theorem trim_eq_self (h : Respelled s t) (hs : trim s = s) : trim t = t := by
  have hblank {d : Char} (hd : isBlank d = true) : isWordChar d = false := by
    rw [Bool.eq_false_iff]
    intro hword
    rw [isBlank_of_isSolid (isSolid_of_isWordChar hword)] at hd
    cases hd
  obtain ⟨hhead, hlast⟩ := trim_eq_self_iff.1 hs
  refine Text.trim_eq_self ?_ ?_
  · intro d hd
    rw [Bool.eq_false_iff]
    intro hb
    exact absurd hb (Bool.eq_false_iff.1 (hhead d ((h.head? (hblank hb)).2 hd)))
  · intro d hd
    rw [Bool.eq_false_iff]
    intro hb
    exact absurd hb (Bool.eq_false_iff.1 (hlast d ((h.getLast? (hblank hb)).2 hd)))

end Respelled

/-! ### Changing names -/

/-- The text with its name changed, if it is one that can be. -/
def respell (ρ : Identifier → Identifier) (s : Text) : Text :=
  if h : s.isPlain = true then (ρ ⟨s, h⟩).text else s

variable {ρ : Identifier → Identifier} {s : Text}

@[simp] theorem respell_text (ρ : Identifier → Identifier) (x : Identifier) :
    x.text.respell ρ = (ρ x).text := dif_pos x.plain

theorem respell_of_not_plain (h : s.isPlain = false) : s.respell ρ = s :=
  dif_neg (by rw [h]; exact Bool.false_ne_true)

/-- A text is an identifier, or it is left alone. -/
theorem respell_cases (ρ : Identifier → Identifier) (s : Text) :
    (∃ x : Identifier, s = x.text) ∨ s.isPlain = false ∧ s.respell ρ = s := by
  cases h : s.isPlain with
  | true => exact Or.inl ⟨⟨s, h⟩, rfl⟩
  | false => exact Or.inr ⟨rfl, respell_of_not_plain h⟩

theorem respelled_respell (ρ : Identifier → Identifier) (s : Text) :
    Respelled s (s.respell ρ) := by
  obtain ⟨x, rfl⟩ | ⟨-, h⟩ := respell_cases ρ s
  · rw [respell_text]
    exact .of_isWord x.isWord (ρ x).isWord
  · rw [h]
    exact .refl s

@[simp] theorem number?_respell (ρ : Identifier → Identifier) (s : Text) :
    number? (s.respell ρ) = number? s := by
  obtain ⟨x, rfl⟩ | ⟨-, h⟩ := respell_cases ρ s
  · rw [respell_text, x.number?, (ρ x).number?]
  · rw [h]

@[simp] theorem ofName?_respell (ρ : Identifier → Identifier) (s : Text) :
    Register.ofName? (s.respell ρ) = Register.ofName? s := by
  obtain ⟨x, rfl⟩ | ⟨-, h⟩ := respell_cases ρ s
  · rw [respell_text, x.ofName?, (ρ x).ofName?]
  · rw [h]

/-- Texts are told apart by their new spellings, if the identifiers among them are. -/
theorem respell_inj {t : Text}
    (h : ∀ x y : Identifier, x.text = s → y.text = t → ρ x = ρ y → x = y) :
    s.respell ρ = t.respell ρ ↔ s = t := by
  refine ⟨?_, fun heq => heq ▸ rfl⟩
  intro heq
  obtain ⟨x, rfl⟩ | ⟨hs, hself⟩ := respell_cases ρ s
  · obtain ⟨y, rfl⟩ | ⟨ht, hself⟩ := respell_cases ρ t
    · rw [respell_text, respell_text] at heq
      rw [h x y rfl rfl (Identifier.ext_text heq)]
    · rw [respell_text, hself] at heq
      rw [← heq, (ρ x).plain] at ht
      cases ht
  · obtain ⟨y, rfl⟩ | ⟨ht, hself'⟩ := respell_cases ρ t
    · rw [respell_text, hself] at heq
      rw [heq, (ρ y).plain] at hs
      cases hs
    · rwa [hself, hself'] at heq

/-! ### Blanks around a name -/

/-- The blanks before a text. -/
def blanksBefore (s : Text) : Text := s.takeWhile isBlank

/-- The blanks behind a text. -/
def blanksAfter (s : Text) : Text := ((trimStart s).reverse.takeWhile isBlank).reverse

/-- The text with what stands between the blanks changed. -/
def around (g : Text → Text) (s : Text) : Text := blanksBefore s ++ (g (trim s) ++ blanksAfter s)

theorem around_self (s : Text) : blanksBefore s ++ (trim s ++ blanksAfter s) = s := by
  have hend : trim s ++ blanksAfter s = trimStart s := by
    rw [trim, trimEnd, blanksAfter, ← List.reverse_append, List.takeWhile_append_dropWhile,
      List.reverse_reverse]
  rw [hend]
  exact List.takeWhile_append_dropWhile

theorem around_of_eq {g : Text → Text} (h : g (trim s) = trim s) : around g s = s := by
  rw [around, h, around_self]

/-- Blanks at the ends are taken off. -/
theorem trim_append_blanks {before after : Text} (hb : ∀ c ∈ before, isBlank c = true)
    (ha : ∀ c ∈ after, isBlank c = true) (hs : trim s = s) :
    trim (before ++ (s ++ after)) = s := by
  have hstart : trimStart (before ++ (s ++ after)) = trimStart (s ++ after) :=
    List.dropWhile_append_of_pos hb
  have hend : trimEnd (s ++ after) = trimEnd s := by
    rw [trimEnd, trimEnd, List.reverse_append,
      List.dropWhile_append_of_pos fun c hc => ha c (List.mem_reverse.1 hc)]
  obtain ⟨hhead, hlast⟩ := trim_eq_self_iff.1 hs
  rw [trim, hstart]
  cases s with
  | nil =>
    -- there is nothing but blanks
    have hblank : trimStart (after ++ []) = trimStart [] := List.dropWhile_append_of_pos ha
    rw [List.nil_append, ← List.append_nil after, hblank]
    rfl
  | cons c cs =>
    have hsolid : trimStart (c :: cs ++ after) = c :: cs ++ after := trimStart_eq_self hhead
    rw [hsolid, hend, trimEnd_eq_self hlast]

theorem isBlank_of_mem_blanksBefore {c : Char} {s : Text} (h : c ∈ blanksBefore s) :
    isBlank c = true :=
  List.all_eq_true.1 List.all_takeWhile c h

theorem isBlank_of_mem_blanksAfter {c : Char} {s : Text} (h : c ∈ blanksAfter s) :
    isBlank c = true :=
  List.all_eq_true.1 List.all_takeWhile c (List.mem_reverse.1 h)

/-- Blanks at the ends of a text do not count, whatever else it begins or ends with. -/
theorem trim_blanks {before s after : Text} (hb : ∀ c ∈ before, isBlank c = true)
    (ha : ∀ c ∈ after, isBlank c = true) : trim (before ++ (s ++ after)) = trim s := by
  have hall {u v : Text} (hu : ∀ c ∈ u, isBlank c = true) (hv : ∀ c ∈ v, isBlank c = true) :
      ∀ c ∈ u ++ v, isBlank c = true := by
    intro c hc
    exact (List.mem_append.1 hc).elim (hu c) (hv c)
  calc trim (before ++ (s ++ after))
      = trim (before ++ ((blanksBefore s ++ (trim s ++ blanksAfter s)) ++ after)) := by
        rw [around_self]
    _ = trim ((before ++ blanksBefore s) ++ (trim s ++ (blanksAfter s ++ after))) := by
        simp only [List.append_assoc]
    _ = trim s :=
        trim_append_blanks (hall hb fun _ => isBlank_of_mem_blanksBefore)
          (hall (fun _ => isBlank_of_mem_blanksAfter) ha) (trim_trim s)

/-- Trimming takes blanks off and nothing else. -/
theorem mem_trim_iff {s : Text} {c : Char} (hc : isBlank c = false) : c ∈ trim s ↔ c ∈ s := by
  refine ⟨mem_of_mem_trim, ?_⟩
  intro h
  rw [← around_self s, List.mem_append, List.mem_append] at h
  rcases h with h | h | h
  · simp [isBlank_of_mem_blanksBefore h] at hc
  · exact h
  · simp [isBlank_of_mem_blanksAfter h] at hc

/-- Nothing is left exactly if all of the text is blank. -/
theorem trim_eq_nil_iff {s : Text} : trim s = [] ↔ ∀ c ∈ s, isBlank c = true := by
  constructor
  · intro h c hc
    rw [← Bool.not_eq_false]
    intro hblank
    exact absurd ((mem_trim_iff hblank).2 hc) (by simp [h])
  · intro h
    have hall : trim (s ++ ([] ++ [])) = [] :=
      trim_append_blanks h (List.forall_mem_nil _) trim_nil
    simpa using hall

theorem trim_around {g : Text → Text} (h : trim (g (trim s)) = g (trim s)) :
    trim (around g s) = g (trim s) :=
  trim_append_blanks (fun _ => isBlank_of_mem_blanksBefore)
    (fun _ => isBlank_of_mem_blanksAfter) h

theorem Respelled.around {g : Text → Text} (h : Respelled (trim s) (g (trim s))) :
    Respelled s (Text.around g s) := by
  have happend := (Respelled.refl (blanksBefore s)).append (h.append (.refl (blanksAfter s)))
  rwa [around_self] at happend

/-- The text with what stands behind the first character that satisfies `p` changed, but for the
blanks around it. -/
def afterFirst (p : Char → Bool) (g : Text → Text) : Text → Text
  | [] => []
  | c :: cs => if p c then c :: around g cs else c :: afterFirst p g cs

theorem cut?_afterFirst (p : Char → Bool) (g : Text → Text) (s : Text) :
    cut? p (afterFirst p g s) = (cut? p s).map fun parts => (parts.1, around g parts.2) := by
  induction s with
  | nil => rfl
  | cons c cs ih =>
    by_cases hc : p c = true
    · simp [afterFirst, cut?, hc]
    · rw [afterFirst, if_neg hc, cut?, if_neg hc, ih, cut?, if_neg hc]
      cases cut? p cs <;> rfl

theorem afterFirst_of_cut?_eq_none {p : Char → Bool} {g : Text → Text} {s : Text}
    (h : cut? p s = none) : afterFirst p g s = s := by
  induction s with
  | nil => rfl
  | cons c cs ih =>
    have hnone := cut?_eq_none_iff.1 h
    have hc : ¬p c = true := Bool.eq_false_iff.1 (hnone c List.mem_cons_self)
    have hrest : cut? p cs = none :=
      cut?_eq_none_iff.2 fun d hd => hnone d (List.mem_cons_of_mem c hd)
    rw [afterFirst, if_neg hc, ih hrest]

theorem Respelled.afterFirst {p : Char → Bool} {g : Text → Text} (hg : ∀ t, Respelled t (g t))
    (s : Text) : Respelled s (Text.afterFirst p g s) := by
  induction s with
  | nil => exact .nil
  | cons c cs ih =>
    rw [Text.afterFirst]
    split
    · exact .keep c (.around (hg _))
    · exact .keep c ih

/-- What is changed in each of some texts is changed in the texts joined. -/
theorem Respelled.intercalate {g : Text → Text} (sep : Text) {ss : List Text}
    (h : ∀ s ∈ ss, Respelled s (g s)) :
    Respelled (sep.intercalate ss) (sep.intercalate (ss.map g)) := by
  induction ss with
  | nil => exact .refl _
  | cons s ss ih =>
    have hs := h s List.mem_cons_self
    have hss := ih fun t ht => h t (List.mem_cons_of_mem s ht)
    cases ss with
    | nil => simpa using hs
    | cons t ss =>
      rw [List.map_cons] at hss ⊢
      rw [List.map_cons, List.intercalate_cons_cons, List.intercalate_cons_cons]
      exact (hs.append (.refl sep)).append hss

end Text

end RegisterMachine
