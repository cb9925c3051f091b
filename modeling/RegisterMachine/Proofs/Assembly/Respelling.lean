import RegisterMachine.Proofs.Assembly.Renaming

/-!
# RegisterMachine.Proofs.Assembly.Respelling

Names matter only up to renaming. A program is renamed as a text: every label,
every name of a buffer and every symbol among the operands, bare or in brackets,
is changed where it stands, and all else stays as it is, down to blanks and
comments (`renamed`). What is assembled from the new text is the same, and an
error is the same but for the name in it (`assemble_renamed`).

For each part of a line, two things are shown: that the part is only
`Text.Respelled`, so that it is cut and trimmed where it was before, and that it
is read as before with its names changed. The second is what `RenamedLines` asks
for of each line.
-/

namespace RegisterMachine

variable {ρ : Identifier → Identifier}

/-! ### Operands -/

/-- What stands between square brackets, if that is all of the text. -/
def Text.bracketed? : Text → Option Text
  | '[' :: rest => stripEnd? ']' rest
  | _ => none

theorem Text.bracketed?_eq_some_iff {s t : Text} :
    bracketed? s = some t ↔ s = '[' :: (t ++ [']']) := by
  constructor
  · intro h
    unfold bracketed? at h
    split at h
    · rw [stripEnd?_eq_some_iff.1 h]
    · cases h
  · rintro rfl
    exact stripEnd?_eq_some_iff.2 rfl

/-- No name is in brackets. -/
theorem Text.bracketed?_respell {s : Text} (h : bracketed? s = none) :
    bracketed? (s.respell ρ) = none := by
  obtain ⟨x, rfl⟩ | ⟨-, hself⟩ := respell_cases ρ s
  · rw [respell_text, Option.eq_none_iff_forall_ne_some]
    intro t ht
    have hmem : '[' ∈ (ρ x).text := by
      rw [bracketed?_eq_some_iff.1 ht]
      exact List.mem_cons_self
    exact (ρ x).isWord.not_mem (by decide) hmem
  · rw [hself, h]

theorem Text.Respelled.around_respell (ρ : Identifier → Identifier) (s : Text) :
    Respelled s (Text.around (Text.respell ρ) s) :=
  .around (respelled_respell ρ _)

@[simp] theorem Text.trim_around_respell (ρ : Identifier → Identifier) (s : Text) :
    trim (around (respell ρ) s) = (trim s).respell ρ :=
  trim_around ((respelled_respell ρ _).trim_eq_self (trim_trim s))

/-- No text is given a name that is not plain, unless it has it already. -/
theorem Text.around_respell_eq_iff {s t : Text} (hplain : t.isPlain = false) (htrim : trim t = t) :
    around (respell ρ) s = t ↔ s = t := by
  constructor
  · intro h
    have hname : (trim s).respell ρ = t := by rw [← trim_around_respell, h, htrim]
    obtain ⟨x, hx⟩ | ⟨-, hself⟩ := respell_cases ρ (trim s)
    · rw [hx, respell_text] at hname
      rw [← hname, (ρ x).plain] at hplain
      cases hplain
    · rwa [around_of_eq hself] at h
  · rintro rfl
    exact around_of_eq (by rw [htrim, respell_of_not_plain hplain])

namespace Operand

/-- A trimmed operand with the name in it changed. -/
def respell (ρ : Identifier → Identifier) (s : Text) : Text :=
  match Text.bracketed? s with
  | some inner => '[' :: (Text.around (Text.respell ρ) inner ++ [']'])
  | none => s.respell ρ

theorem respelled_respell (ρ : Identifier → Identifier) (s : Text) :
    s.Respelled (respell ρ s) := by
  unfold respell
  split
  · rename_i inner h
    rw [Text.bracketed?_eq_some_iff.1 h]
    exact .keep '[' ((Text.Respelled.around_respell ρ inner).append (.refl [']']))
  · exact Text.respelled_respell ρ s

theorem ofText_eq (s : Text) :
    ofText s =
      match Register.ofName? (Text.trim s) with
      | some r => .register r
      | none =>
        match Text.bracketed? (Text.trim s) with
        | some address => .memory (Text.trim address)
        | none => .immediate (Text.trim s) := by
  unfold ofText
  dsimp only
  cases Register.ofName? (Text.trim s) with
  | some r => rfl
  | none =>
    dsimp only
    generalize Text.trim s = t
    cases hbracketed : Text.bracketed? t with
    | some address =>
      have hend : Text.stripEnd? ']' (address ++ [']']) = some address :=
        Text.stripEnd?_eq_some_iff.2 rfl
      rw [Text.bracketed?_eq_some_iff.1 hbracketed]
      simp only [hend]
    | none =>
      split
      · rename_i rest
        have hend : Text.stripEnd? ']' rest = none := hbracketed
        simp only [hend]
      · rfl

/-- The operand is read with its name changed. -/
theorem ofText_respell (ρ : Identifier → Identifier) (s : Text) :
    ofText (Text.around (respell ρ) s) = (ofText s).map (Text.respell ρ) := by
  have htrim : Text.trim (Text.trim s) = Text.trim s := Text.trim_trim s
  have hrespell : Text.trim (respell ρ (Text.trim s)) = respell ρ (Text.trim s) :=
    (respelled_respell ρ _).trim_eq_self htrim
  rw [ofText_eq, ofText_eq, Text.trim_around hrespell]
  generalize Text.trim s = t at htrim hrespell
  -- nothing in brackets is a register
  have hbracket {u : Text} (hu : Text.trim ('[' :: u) = '[' :: u) :
      Register.ofName? ('[' :: u) = none :=
    Register.ofName?_eq_none hu (by decide) (by decide)
  unfold respell at hrespell ⊢
  cases hinner : Text.bracketed? t with
  | some inner =>
    rw [hinner] at hrespell
    rw [Text.bracketed?_eq_some_iff.1 hinner] at htrim ⊢
    dsimp only at hrespell ⊢
    rw [hbracket hrespell, hbracket htrim, Text.bracketed?_eq_some_iff.2 rfl]
    dsimp only
    rw [Text.trim_around_respell]
    rfl
  | none =>
    dsimp only
    rw [Text.ofName?_respell, Text.bracketed?_respell hinner]
    cases Register.ofName? t <;> rfl

/-! ### Lists of operands -/

/-- Operands between commas with the names in them changed. -/
def respellEach (ρ : Identifier → Identifier) (s : Text) : Text :=
  [','].intercalate ((Text.pieces ',' s).map (Text.around (respell ρ)))

/-- A list of operands, maybe with a comma at its end, with the names in them changed. -/
def respellList (ρ : Identifier → Identifier) (s : Text) : Text :=
  match Text.stripEnd? ',' s with
  | some listed => respellEach ρ listed ++ [',']
  | none => respellEach ρ s

theorem respelled_respellEach (ρ : Identifier → Identifier) (s : Text) :
    s.Respelled (respellEach ρ s) := by
  have hpieces : ∀ t ∈ Text.pieces ',' s, t.Respelled (Text.around (respell ρ) t) :=
    fun t _ => .around (respelled_respell ρ (Text.trim t))
  have hjoined := Text.Respelled.intercalate [','] hpieces
  rwa [Text.intercalate_pieces] at hjoined

theorem pieces_respellEach (ρ : Identifier → Identifier) (s : Text) :
    Text.pieces ',' (respellEach ρ s) =
      (Text.pieces ',' s).map (Text.around (respell ρ)) := by
  obtain ⟨t, ts, hts⟩ := List.exists_cons_of_ne_nil (Text.pieces_ne_nil ',' s)
  have hcomma : ∀ u ∈ (t :: ts).map (Text.around (respell ρ)), ',' ∉ u := by
    intro u hu hmem
    obtain ⟨v, hv, rfl⟩ := List.mem_map.1 hu
    have hrespelled := Text.Respelled.around (respelled_respell ρ (Text.trim v))
    refine Text.not_mem_of_mem_pieces (hts ▸ hv) ?_
    exact (hrespelled.mem_iff (by decide)).2 hmem
  rw [respellEach, hts]
  exact Text.pieces_intercalate hcomma

theorem respelled_respellList (ρ : Identifier → Identifier) (s : Text) :
    s.Respelled (respellList ρ s) := by
  unfold respellList
  split
  · rename_i listed h
    rw [Text.stripEnd?_eq_some_iff.1 h]
    exact (respelled_respellEach ρ listed).append (.refl [','])
  · exact respelled_respellEach ρ s

theorem getD_stripEnd?_respellList (ρ : Identifier → Identifier) (s : Text) :
    (Text.stripEnd? ',' (respellList ρ s)).getD (respellList ρ s) =
      respellEach ρ ((Text.stripEnd? ',' s).getD s) := by
  unfold respellList
  cases h : Text.stripEnd? ',' s with
  | some listed =>
    dsimp only
    rw [Text.stripEnd?_eq_some_iff.2 rfl]
    rfl
  | none =>
    dsimp only
    rw [(respelled_respellEach ρ s).stripEnd?_eq_none (by decide) h]
    rfl

/-- The operands are read with their names changed. -/
theorem listOfText_respellList (ρ : Identifier → Identifier) (s : Text) :
    listOfText (respellList ρ s) = (listOfText s).map (Operand.map (Text.respell ρ)) := by
  have hrespelled := respelled_respellList ρ s
  by_cases hs : s = []
  · rw [listOfText, listOfText, if_pos hs, if_pos (hrespelled.eq_nil_iff.1 hs)]
    rfl
  · rw [listOfText, listOfText, if_neg hs, if_neg (mt hrespelled.eq_nil_iff.2 hs),
      getD_stripEnd?_respellList, pieces_respellEach, List.map_map, List.map_map]
    refine List.map_congr_left ?_
    intro t _
    exact ofText_respell ρ t

end Operand

/-! ### Lines of the main section -/

namespace Instruction

/-- A line with the names among its operands changed. -/
def respell (ρ : Identifier → Identifier) (s : Text) : Text :=
  Text.afterFirst endsMnemonic (Operand.respellList ρ) s

theorem respelled_respell (ρ : Identifier → Identifier) (s : Text) :
    s.Respelled (respell ρ s) :=
  .afterFirst (Operand.respelled_respellList ρ) s

theorem splitMnemonic_respell (ρ : Identifier → Identifier) (s : Text) :
    splitMnemonic (respell ρ s) =
      ((splitMnemonic s).1, Operand.respellList ρ (splitMnemonic s).2) := by
  unfold splitMnemonic respell
  rw [Text.cut?_afterFirst]
  cases hcut : Text.cut? endsMnemonic s with
  | none =>
    rw [Text.afterFirst_of_cut?_eq_none hcut]
    rfl
  | some parts =>
    have hrespelled := Operand.respelled_respellList ρ (Text.trim parts.2)
    show (parts.1, Text.trim (Text.around (Operand.respellList ρ) parts.2)) = _
    rw [Text.trim_around (hrespelled.trim_eq_self (Text.trim_trim parts.2))]

/-- None of the causes has a name in it. -/
theorem rename_of_ofOperands {α : Type} (ρ : Identifier → Identifier) {op : Opcode}
    {os : List (Operand α)} {cause : Cause} (h : ofOperands op os = .error cause) :
    cause.rename ρ = cause := by
  unfold ofOperands at h
  split at h
  · cases h
  · cases h
  · split at h
    · cases h
    · cases h
      rfl
  · cases h
  · cases h
    rfl
  · cases h
  · split at h
    · cases h
    · cases h
      rfl
  · cases h
    rfl
  · cases h
  · cases h
    rfl
  · cases h
    rfl

/-- The instruction is read with its names changed. -/
theorem ofText_respell (ρ : Identifier → Identifier) (s : Text) :
    ofText (respell ρ s) =
      ((ofText s).map (Instruction.map (Text.respell ρ))).mapError (Cause.rename ρ) := by
  unfold ofText
  rw [splitMnemonic_respell]
  dsimp only
  cases hop : Opcode.ofMnemonic? (splitMnemonic s).1 with
  | none => rfl
  | some op =>
    dsimp only
    rw [Operand.listOfText_respellList, ofOperands_map]
    cases hos : ofOperands op (Operand.listOfText (splitMnemonic s).2) with
    | ok i => rfl
    | error cause => exact congrArg Except.error (rename_of_ofOperands ρ hos).symm

end Instruction

/-! ### Lines of the data section -/

namespace Declaration

/-- What follows a keyword, trimmed, with the name before the first bracket changed. -/
def respellDeclared (ρ : Identifier → Identifier) (s : Text) : Text :=
  match Text.stripEnd? ']' s with
  | none => s
  | some body =>
    match Text.cut? (· == '[') body with
    | none => s
    | some (name, size) => Text.around (Text.respell ρ) name ++ '[' :: (size ++ [']'])

/-- A line with the name that it declares changed. -/
def respell (ρ : Identifier → Identifier) (s : Text) : Text :=
  Text.afterFirst endsKeyword (respellDeclared ρ) s

theorem eq_of_cut_bracket {s name size : Text} (h : Text.cut? (· == '[') s = some (name, size)) :
    s = name ++ '[' :: size ∧ '[' ∉ name := by
  obtain ⟨c, hs, hc, hname⟩ := Text.eq_append_of_cut? h
  obtain rfl := beq_iff_eq.1 hc
  refine ⟨hs, ?_⟩
  intro hmem
  exact absurd rfl (beq_eq_false_iff_ne.1 (hname '[' hmem))

theorem respelled_respellDeclared (ρ : Identifier → Identifier) (s : Text) :
    s.Respelled (respellDeclared ρ s) := by
  unfold respellDeclared
  split
  · exact .refl s
  · rename_i body hbody
    split
    · exact .refl s
    · rename_i name size hcut
      rw [Text.stripEnd?_eq_some_iff.1 hbody, (eq_of_cut_bracket hcut).1, List.append_assoc]
      exact (Text.Respelled.around_respell ρ name).append (.refl _)

/-- The name and the size are read with the name changed. -/
theorem brackets?_respellDeclared (ρ : Identifier → Identifier) (s : Text) :
    brackets? (respellDeclared ρ s) =
      (brackets? s).map fun declared => (declared.1.respell ρ, declared.2) := by
  unfold respellDeclared
  cases hbody : Text.stripEnd? ']' s with
  | none => simp [brackets?, hbody]
  | some body =>
    dsimp only
    cases hcut : Text.cut? (· == '[') body with
    | none => simp [brackets?, hbody, hcut]
    | some parts =>
      obtain ⟨name, size⟩ := parts
      dsimp only
      have hbody' : Text.stripEnd? ']'
          (Text.around (Text.respell ρ) name ++ '[' :: (size ++ [']'])) =
            some (Text.around (Text.respell ρ) name ++ '[' :: size) :=
        Text.stripEnd?_eq_some_iff.2 (by simp)
      have hname : '[' ∉ Text.around (Text.respell ρ) name :=
        mt ((Text.Respelled.around_respell ρ name).mem_iff (by decide)).2 (eq_of_cut_bracket hcut).2
      have hcut' : Text.cut? (· == '[') (Text.around (Text.respell ρ) name ++ '[' :: size) =
          some (Text.around (Text.respell ρ) name, size) := by
        refine Text.cut?_append ?_ rfl size
        intro c hc
        exact beq_eq_false_iff_ne.2 fun h => hname (h ▸ hc)
      simp only [brackets?, hbody, hcut, hbody', hcut', Option.bind_eq_bind, Option.bind_some,
        Text.trim_around_respell]
      split <;> rfl

theorem respelled_respell (ρ : Identifier → Identifier) (s : Text) :
    s.Respelled (respell ρ s) :=
  .afterFirst (respelled_respellDeclared ρ) s

/-- The declaration is read with its name changed. -/
theorem ofText_respell (ρ : Identifier → Identifier) (s : Text) :
    ofText (respell ρ s) = ((ofText s).map (rename ρ)).mapError (Cause.rename ρ) := by
  unfold ofText respell
  rw [Text.cut?_afterFirst]
  cases Text.cut? endsKeyword s with
  | none => rfl
  | some parts =>
    obtain ⟨keyword, rest⟩ := parts
    have hrespelled := respelled_respellDeclared ρ (Text.trim rest)
    dsimp only [Option.map_some]
    rw [Text.trim_around (hrespelled.trim_eq_self (Text.trim_trim rest)),
      brackets?_respellDeclared]
    split
    · rfl
    · cases hdeclared : brackets? (Text.trim rest) with
      | none => rfl
      | some declared =>
        obtain ⟨name, size⟩ := declared
        have hnil := (Text.respelled_respell ρ name).eq_nil_iff
        dsimp only [Option.map_some]
        by_cases hname : name = []
        · rw [if_pos hname, if_pos (hnil.1 hname)]
          rfl
        · rw [if_neg hname, if_neg (mt hnil.2 hname)]
          cases Text.number? size <;> rfl

end Declaration

/-! ### Lines -/

namespace Statement

/-- A line of the main section with its names changed. -/
def respellMain (ρ : Identifier → Identifier) (s : Text) : Text :=
  match Text.stripEnd? ':' s with
  | some before => Text.around (Text.respell ρ) before ++ [':']
  | none => Instruction.respell ρ s

theorem respelled_respellMain (ρ : Identifier → Identifier) (s : Text) :
    s.Respelled (respellMain ρ s) := by
  unfold respellMain
  split
  · rename_i before h
    rw [Text.stripEnd?_eq_some_iff.1 h]
    exact (Text.Respelled.around_respell ρ before).append (.refl [':'])
  · exact Instruction.respelled_respell ρ s

theorem ofMain_respellMain (ρ : Identifier → Identifier) (s : Text) :
    ofMain (respellMain ρ s) = ((ofMain s).map (rename ρ)).mapError (Cause.rename ρ) := by
  unfold ofMain respellMain
  cases h : Text.stripEnd? ':' s with
  | some before =>
    have hnil := (Text.respelled_respell ρ (Text.trim before)).eq_nil_iff
    dsimp only
    rw [Text.stripEnd?_eq_some_iff.2 rfl]
    dsimp only
    rw [Text.trim_around_respell]
    by_cases hname : Text.trim before = []
    · rw [if_pos hname, if_pos (hnil.1 hname)]
      rfl
    · rw [if_neg hname, if_neg (mt hnil.2 hname)]
      rfl
  | none =>
    dsimp only
    rw [(Instruction.respelled_respell ρ s).stripEnd?_eq_none (by decide) h]
    dsimp only
    rw [Instruction.ofText_respell]
    cases Instruction.ofText s <;> rfl

/-- A line that stands in `current` with its names changed. -/
def respell (ρ : Identifier → Identifier) (current : Option Section) (s : Text) : Text :=
  match Section.ofMarker? s, current with
  | none, some .main => respellMain ρ s
  | none, some .data => Declaration.respell ρ s
  | _, _ => s

theorem respelled_respell (ρ : Identifier → Identifier) (current : Option Section) (s : Text) :
    s.Respelled (respell ρ current s) := by
  unfold respell
  split
  · exact respelled_respellMain ρ s
  · exact Declaration.respelled_respell ρ s
  · exact .refl s

/-- No label becomes the marker of a section. -/
theorem eq_marker_of_around {before : Text} {opened : Section}
    (h : Text.around (Text.respell ρ) before ++ [':'] = opened.marker) :
    before ++ [':'] = opened.marker := by
  have hword (word : Text) (hplain : word.isPlain = false) (htrim : Text.trim word = word)
      (h : Text.around (Text.respell ρ) before ++ [':'] = word ++ [':']) :
      before ++ [':'] = word ++ [':'] := by
    rw [(Text.around_respell_eq_iff hplain htrim).1 (List.append_cancel_right h)]
  cases opened with
  | main => exact hword ['_', 'm', 'a', 'i', 'n'] rfl rfl h
  | data => exact hword ['_', 'd', 'a', 't', 'a'] rfl rfl h

theorem eq_marker_of_respellMain {s : Text} {opened : Section}
    (h : respellMain ρ s = opened.marker) : s = opened.marker := by
  unfold respellMain at h
  cases hcolon : Text.stripEnd? ':' s with
  | some before =>
    rw [hcolon] at h
    rw [Text.stripEnd?_eq_some_iff.1 hcolon]
    exact eq_marker_of_around h
  | none =>
    -- a marker ends in a colon
    have hend := (Instruction.respelled_respell ρ s).stripEnd?_eq_none (by decide) hcolon
    rw [hcolon] at h
    rw [show Instruction.respell ρ s = opened.marker from h] at hend
    cases opened <;> cases hend

theorem eq_marker_of_respell_declaration {s : Text} {opened : Section}
    (h : Declaration.respell ρ s = opened.marker) : s = opened.marker := by
  -- a marker has no blank, and with nothing behind a keyword there is nothing to change
  have hcut : Text.cut? Declaration.endsKeyword (Declaration.respell ρ s) = none := by
    rw [h]
    cases opened <;> rfl
  rw [Declaration.respell, Text.cut?_afterFirst, Option.map_eq_none_iff] at hcut
  rwa [Declaration.respell, Text.afterFirst_of_cut?_eq_none hcut] at h

/-- The new names open no section, and the old ones do not close one. -/
theorem ofMarker?_respell (ρ : Identifier → Identifier) (current : Option Section) (s : Text) :
    Section.ofMarker? (respell ρ current s) = Section.ofMarker? s := by
  unfold respell
  split
  · rename_i hm
    rw [hm, Section.ofMarker?_eq_none_iff]
    exact fun opened heq => Section.ofMarker?_eq_none_iff.1 hm opened (eq_marker_of_respellMain heq)
  · rename_i hm
    rw [hm, Section.ofMarker?_eq_none_iff]
    exact fun opened heq =>
      Section.ofMarker?_eq_none_iff.1 hm opened (eq_marker_of_respell_declaration heq)
  · rfl

/-- What a line states is stated with its names changed. -/
theorem ofText_respell (ρ : Identifier → Identifier) (current : Option Section) (s : Text) :
    ofText current (respell ρ current s) =
      ((ofText current s).map (rename ρ)).mapError (Cause.rename ρ) := by
  unfold ofText
  rw [ofMarker?_respell]
  cases hm : Section.ofMarker? s with
  | some opened => rfl
  | none =>
    unfold respell
    rw [hm]
    match current with
    | none => rfl
    | some .main => exact ofMain_respellMain ρ s
    | some .data =>
      dsimp only
      rw [ofData, ofData, Declaration.ofText_respell]
      cases Declaration.ofText s <;> rfl

end Statement

/-! ### Programs -/

namespace Line

/-- A line of a program's text with its names changed, its comment kept. -/
def respell (ρ : Identifier → Identifier) (current : Option Section) (s : Text) : Text :=
  Text.around (Statement.respell ρ current) (s.takeWhile fun c => !isComment c) ++
    s.dropWhile fun c => !isComment c

/-- Some lines of a program's text, of which the first stands in `current`, with their names
changed. -/
def respellAll (ρ : Identifier → Identifier) (current : Option Section) : List Text → List Text
  | [] => []
  | s :: ss =>
    respell ρ current s :: respellAll ρ ((Section.ofMarker? (content s)).or current) ss

theorem respelled_respell (ρ : Identifier → Identifier) (current : Option Section) (s : Text) :
    s.Respelled (respell ρ current s) := by
  have hsaid := Text.Respelled.around (s := s.takeWhile fun c => !isComment c)
    (Statement.respelled_respell ρ current _)
  have hline := hsaid.append (.refl (s.dropWhile fun c => !isComment c))
  rwa [List.takeWhile_append_dropWhile] at hline

theorem content_respell (ρ : Identifier → Identifier) (current : Option Section) (s : Text) :
    content (respell ρ current s) = Statement.respell ρ current (content s) := by
  have hrespelled := Statement.respelled_respell ρ current (content s)
  have hclean : ∀ c ∈ Text.around (Statement.respell ρ current) (s.takeWhile fun c => !isComment c),
      (!isComment c) = true := by
    intro c hc
    rw [Bool.not_eq_true', Bool.eq_false_iff]
    intro hcomment
    have hword : Text.isWordChar c = false := by
      obtain rfl | rfl := isComment_iff.1 hcomment <;> decide
    have hmem := ((Text.Respelled.around hrespelled).mem_iff hword).2 hc
    have hkept := List.all_eq_true.1 List.all_takeWhile c hmem
    rw [hcomment] at hkept
    cases hkept
  have hcomment : (s.dropWhile fun c => !isComment c).takeWhile (fun c => !isComment c) = [] := by
    cases hs : s.dropWhile fun c => !isComment c with
    | nil => rfl
    | cons c cs =>
      have hhead := List.head?_dropWhile_not (fun c => !isComment c) s
      rw [hs] at hhead
      exact List.takeWhile_cons_of_neg (by simpa using hhead)
  rw [content, respell, List.takeWhile_append_of_pos hclean, hcomment, List.append_nil]
  exact Text.trim_around (hrespelled.trim_eq_self (Text.trim_trim _))

theorem not_mem_of_mem_respellAll {ss : List Text} {c : Char} (hc : Text.isWordChar c = false)
    (h : ∀ s ∈ ss, c ∉ s) {current : Option Section} {t : Text}
    (ht : t ∈ respellAll ρ current ss) : c ∉ t := by
  induction ss generalizing current with
  | nil => cases ht
  | cons s ss ih =>
    rw [respellAll] at ht
    obtain rfl | ht := List.mem_cons.1 ht
    · exact mt ((respelled_respell ρ current s).mem_iff hc).2 (h s List.mem_cons_self)
    · exact ih (fun u hu => h u (List.mem_cons_of_mem s hu)) ht

/-- Each line states what it stated, with its names changed. -/
theorem renamedLines_respellAll (ρ : Identifier → Identifier) (current : Option Section)
    (n : Nat) (ss : List Text) :
    RenamedLines ρ current (numberFrom n ss) (numberFrom n (respellAll ρ current ss)) := by
  induction ss generalizing current n with
  | nil => exact .nil
  | cons s ss ih =>
    have hnil := (Statement.respelled_respell ρ current (content s)).eq_nil_iff
    rw [respellAll, numberFrom, numberFrom, content_respell]
    by_cases hs : content s = []
    · rw [if_pos hs, if_pos (hnil.1 hs), hs]
      exact ih current (n + 1)
    · rw [if_neg hs, if_neg (mt hnil.2 hs)]
      exact .cons ⟨rfl, Statement.ofText_respell ρ current (content s)⟩ (ih _ (n + 1))

/-- The names that the lines state. -/
def names (ls : List Line) : List Text := (statements none ls).flatMap fun entry => entry.2.names

end Line

/-- The program with its names changed. -/
def renamed (ρ : Identifier → Identifier) (source : String) : String :=
  String.ofList (['\n'].intercalate (Line.respellAll ρ none (Text.pieces '\n' source.toList)))

theorem renamedLines_renamed (ρ : Identifier → Identifier) (source : String) :
    RenamedLines ρ none (Line.ofText source.toList) (Line.ofText (renamed ρ source).toList) := by
  have hrenamed := Line.renamedLines_respellAll ρ none 1 (Text.pieces '\n' source.toList)
  obtain ⟨s, ss, hss⟩ := List.exists_cons_of_ne_nil (Text.pieces_ne_nil '\n' source.toList)
  have hnewline : ∀ t ∈ Line.respellAll ρ none (s :: ss), '\n' ∉ t := fun t ht =>
    Line.not_mem_of_mem_respellAll (by decide)
      (fun u hu => Text.not_mem_of_mem_pieces (hss ▸ hu)) ht
  rw [Line.ofText, Line.ofText, renamed, String.toList_ofList]
  rw [hss] at hrenamed ⊢
  rwa [Line.respellAll, Text.pieces_intercalate hnewline]

/-- Names matter only up to renaming: if different names of the program stay different, it has
the same image under the new ones, or the same error but for the name in it. -/
theorem assemble_renamed (ρ : Identifier → Identifier) (source : String)
    (h : Distinguishes ρ (· ∈ Line.names (Line.ofText source.toList))) :
    RenamedLines ρ none (Line.ofText source.toList) (Line.ofText (renamed ρ source).toList) ∧
      assemble (renamed ρ source) = (assemble source).mapError (AssemblyError.rename ρ) := by
  have hlines := renamedLines_renamed ρ source
  refine ⟨hlines, assembleLines_rename h hlines ?_⟩
  intro entry hentry name hname
  exact List.mem_flatMap.2 ⟨entry, hentry, hname⟩

/-- The map that takes two names for each other. -/
def Identifier.swap (x y z : Identifier) : Identifier :=
  if z = x then y else if z = y then x else z

theorem Identifier.swap_injective {x y z w : Identifier} (h : swap x y z = swap x y w) : z = w := by
  unfold swap at h
  grind

/-- A program with a label and a buffer, which is used in brackets and bare. -/
def looping : String :=
  "_main:\n loop : ; loop\n mov r1, [ buf ]\n mov\tr2,buf,\n jmp loop#loop\n_data:\ndb buf [4]"

/-- The two names of the program taken for each other. -/
theorem assemble_renamed_looping :
    let ρ := Identifier.swap ⟨['l', 'o', 'o', 'p'], rfl⟩ ⟨['b', 'u', 'f'], rfl⟩
    renamed ρ looping =
        "_main:\n buf : ; loop\n mov r1, [ loop ]\n mov\tr2,loop,\n jmp buf#loop\n_data:\n" ++
          "db loop [4]" ∧
      Distinguishes ρ (· ∈ Line.names (Line.ofText looping.toList)) ∧
      assemble (renamed ρ looping) =
        .ok ⟨0, [0x01, 0x13, 0x00, 20, 0, 0, 0, 0x01, 0x12, 0x01, 20, 0, 0, 0, 0x06, 0x02,
          0, 0, 0, 0], [0, 0, 0, 0]⟩ := by
  intro ρ
  have hdistinct : Distinguishes ρ (· ∈ Line.names (Line.ofText looping.toList)) :=
    fun _ _ _ _ h => Identifier.swap_injective h
  refine ⟨by rfl, hdistinct, ?_⟩
  rw [(assemble_renamed ρ looping hdistinct).2]
  rfl

end RegisterMachine
