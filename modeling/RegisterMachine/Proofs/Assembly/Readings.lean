import RegisterMachine.Proofs.Assembly.Statements

/-!
# RegisterMachine.Proofs.Assembly.Readings

The two readings of a program agree. Each walks over the lines with a section of
its own, the first adding up sizes and the second writing bytes, and neither
looks at the other's count; that they stay together is an induction over the
lines, with one case for each kind of statement.

The first reading is described by `Draft.Covers` and the second by
`Emission.Covers`, both in terms of what the lines state. From the two
descriptions follow that at every line the first has counted as many bytes as
the second has written, that a label is bound to the place where the next
instruction is written, and that only an unknown symbol can stop the second
reading when the first has come to the end.
-/

namespace RegisterMachine

theorem lookup_eq_none_iff_not_mem {entries : List (Text × Nat)} {s : Text} :
    entries.lookup s = none ↔ s ∉ entries.map Prod.fst := by
  rw [List.lookup_eq_none_iff]
  constructor
  · intro h hmem
    obtain ⟨p, hp, rfl⟩ := List.mem_map.1 hmem
    simpa using h p hp
  · intro h p hp
    have hne : s ≠ p.1 := by
      rintro rfl
      exact h (List.mem_map_of_mem hp)
    simpa using hne

/-! ### The first reading -/

namespace Draft

/-- The draft is what the first reading makes of these lines. -/
structure Covers (draft : Draft) (ls : List Line) : Prop where
  current : draft.current = Section.after none ls
  codeSize : draft.codeSize = codeSizeOf (Line.instructions none ls)
  codeSize_lt : draft.codeSize < addressLimit
  labels : ∀ name, name ∈ draft.labels.map Prod.fst ↔ Stated ls (.label name)
  declarations : ∀ name, name ∈ draft.declarations.map (fun entry => entry.2.name) ↔
    ∃ d, Stated ls (.declaration d) ∧ d.name = name

theorem covers_empty : Covers empty [] where
  current := rfl
  codeSize := rfl
  codeSize_lt := by decide
  labels name := by simp [empty]
  declarations name := by simp [empty]

/-- A line is read only if it states something that the draft can take. -/
theorem exists_of_addLine {draft next : Draft} {l : Line} (h : draft.addLine l = .ok next) :
    ∃ s, Statement.ofText draft.current l.text = .ok s ∧ draft.add l.number s = .ok next := by
  unfold addLine at h
  cases hb : (Statement.ofText draft.current l.text).bind (draft.add l.number) with
  | error cause => rw [hb] at h; cases h
  | ok d =>
    rw [hb] at h
    cases h
    exact exists_of_bind_eq_ok hb

/-- The draft with one more statement, whether it can take it or not. -/
def extend (draft : Draft) (line : Nat) (s : Statement) : Draft where
  current := s.opens draft.current
  hasMain := draft.hasMain || s.opensMain
  codeSize := draft.codeSize + codeSizeOf (s.instructions line)
  labels := draft.labels ++ s.labels draft.codeSize
  declarations := draft.declarations ++ s.declarations line

/-- The draft can take the statement: its name is new, or its bytes have addresses. -/
def Admits (draft : Draft) : Statement → Prop
  | .marker _ => True
  | .label name => name ∉ draft.labels.map Prod.fst
  | .instruction i => draft.codeSize + i.size < addressLimit
  | .declaration d => d.name ∉ draft.declarations.map fun entry => entry.2.name

/-- What the first reading does with a statement, in one equation for all kinds of them. -/
theorem add_eq_ok_iff {draft next : Draft} {line : Nat} {s : Statement} :
    draft.add line s = .ok next ↔ draft.Admits s ∧ next = draft.extend line s := by
  cases s with
  | marker opened =>
    simp [add, Admits, extend, Statement.opens, Statement.opensMain, Statement.labels,
      Statement.declarations, eq_comm]
  | label name =>
    by_cases hname : name ∈ draft.labels.map Prod.fst
    · simp only [add, hname, if_true, Admits, not_true_eq_false, false_and, reduceCtorEq]
    · simp [add, hname, Admits, extend, Statement.opens, Statement.opensMain,
        Statement.labels, Statement.declarations, eq_comm]
  | instruction i =>
    by_cases hlt : draft.codeSize + i.size < addressLimit
    · simp [add, hlt, Admits, extend, Statement.opens, Statement.opensMain,
        Statement.labels, Statement.declarations, eq_comm]
    · simp [add, hlt, Admits]
  | declaration d =>
    by_cases hname : d.name ∈ draft.declarations.map fun entry => entry.2.name
    · simp only [add, hname, if_true, Admits, not_true_eq_false, false_and, reduceCtorEq]
    · simp [add, hname, Admits, extend, Statement.opens, Statement.opensMain,
        Statement.labels, Statement.declarations, eq_comm]

theorem Covers.extend {draft : Draft} {before : List Line} {l : Line} {s : Statement}
    (hd : draft.Covers before) (hs : States before l s) (ha : draft.Admits s) :
    (draft.extend l.number s).Covers (before ++ [l]) where
  current := by rw [hs.after_concat, ← hd.current]; rfl
  codeSize := by rw [hs.instructions_concat, codeSizeOf_append, ← hd.codeSize]; rfl
  codeSize_lt := by
    cases s with
    | instruction i => exact ha
    | _ => exact hd.codeSize_lt
  labels name := by
    rw [Draft.extend, List.map_append, List.mem_append, hd.labels, stated_concat]
    refine or_congr_right ?_
    rw [← Statement.mem_labels_iff]
    exact ⟨fun h => h ▸ hs, hs.unique⟩
  declarations name := by
    rw [Draft.extend, List.map_append, List.mem_append, hd.declarations]
    simp only [stated_concat, or_and_right, exists_or]
    refine or_congr_right ?_
    rw [← Statement.mem_declarations_iff]
    constructor
    · rintro ⟨d, rfl, hname⟩
      exact ⟨d, hs, hname⟩
    · intro ⟨d, hd', hname⟩
      exact ⟨d, hs.unique hd', hname⟩

theorem Covers.addLine {draft next : Draft} {before : List Line} {l : Line}
    (hd : draft.Covers before) (h : draft.addLine l = .ok next) :
    next.Covers (before ++ [l]) := by
  obtain ⟨s, hs, hadd⟩ := exists_of_addLine h
  rw [hd.current] at hs
  obtain ⟨ha, rfl⟩ := add_eq_ok_iff.1 hadd
  exact hd.extend hs ha

theorem Covers.addLines {draft next : Draft} {before ls : List Line}
    (hd : draft.Covers before) (h : draft.addLines ls = .ok next) :
    next.Covers (before ++ ls) := by
  induction ls generalizing draft before with
  | nil =>
    cases h
    simpa using hd
  | cons l ls ih =>
    obtain ⟨d, hl, hls⟩ := exists_of_bind_eq_ok h
    simpa using ih (hd.addLine hl) hls

theorem covers_of_ofLines {draft : Draft} {ls : List Line} (h : ofLines ls = .ok draft) :
    draft.Covers ls := by
  simpa using covers_empty.addLines h

theorem exists_of_addLines_append {draft next : Draft} {ls ms : List Line}
    (h : draft.addLines (ls ++ ms) = .ok next) :
    ∃ d, draft.addLines ls = .ok d ∧ d.addLines ms = .ok next := by
  rw [addLines_append] at h
  exact exists_of_bind_eq_ok h

/-! ### Labels -/

theorem labels_prefix_of_addLine {draft next : Draft} {l : Line}
    (h : draft.addLine l = .ok next) : draft.labels <+: next.labels := by
  obtain ⟨s, -, hadd⟩ := exists_of_addLine h
  obtain ⟨-, rfl⟩ := add_eq_ok_iff.1 hadd
  exact List.prefix_append _ _

/-- What is bound stays bound, because nothing is put in front of it. -/
theorem labels_prefix_of_addLines {draft next : Draft} {ls : List Line}
    (h : draft.addLines ls = .ok next) : draft.labels <+: next.labels := by
  induction ls generalizing draft with
  | nil =>
    cases h
    exact List.prefix_refl _
  | cons l ls ih =>
    obtain ⟨d, hl, hls⟩ := exists_of_bind_eq_ok h
    exact (labels_prefix_of_addLine hl).trans (ih hls)

/-- A label that is read is bound to the number of bytes before it. -/
theorem lookup_of_add_label {draft next : Draft} {line : Nat} {name : Text}
    (h : draft.add line (.label name) = .ok next) :
    next.labels.lookup name = some draft.codeSize := by
  obtain ⟨hnew, rfl⟩ := add_eq_ok_iff.1 h
  have hnone : draft.labels.lookup name = none := lookup_eq_none_iff_not_mem.2 hnew
  show (draft.labels ++ [(name, draft.codeSize)]).lookup name = _
  rw [List.lookup_append, hnone, Option.none_or, List.lookup_cons_self]

theorem lookup_label {before after : List Line} {l : Line} {name : Text} {draft : Draft}
    (h : ofLines (before ++ l :: after) = .ok draft) (hl : States before l (.label name)) :
    draft.labels.lookup name = some (codeSizeOf (Line.instructions none before)) := by
  obtain ⟨d, hbefore, hrest⟩ := exists_of_addLines_append h
  obtain ⟨next, hline, hafter⟩ := exists_of_bind_eq_ok hrest
  have hd : d.Covers before := covers_of_ofLines hbefore
  obtain ⟨s, hs, hadd⟩ := exists_of_addLine hline
  unfold States at hl
  rw [hd.current, hl] at hs
  cases hs
  -- a later label cannot hide this one, since `lookup` finds the first
  obtain ⟨more, hmore⟩ := labels_prefix_of_addLines hafter
  rw [← hmore, List.lookup_append, lookup_of_add_label hadd, hd.codeSize]
  rfl

end Draft

/-! ### The second reading -/

namespace Layout

/-- The bytes are those of the instructions, one after the other. -/
inductive Writes (layout : Layout) : List (Nat × Instruction Text) → List Byte → Prop
  | nil : Writes layout [] []
  | cons {line : Nat} {i : Instruction Text} {i' : Instruction Word}
      {is : List (Nat × Instruction Text)} {bs : List Byte} :
      i.resolve layout.value = .ok i' → Writes layout is bs →
      Writes layout ((line, i) :: is) (i'.encode ++ bs)

variable {layout : Layout}

theorem Writes.append {is js : List (Nat × Instruction Text)} {bs cs : List Byte}
    (hi : layout.Writes is bs) (hj : layout.Writes js cs) :
    layout.Writes (is ++ js) (bs ++ cs) := by
  induction hi with
  | nil => exact hj
  | cons hr _ ih =>
    rw [List.cons_append, List.append_assoc]
    exact .cons hr ih

theorem Writes.length_eq {is : List (Nat × Instruction Text)} {bs : List Byte}
    (h : layout.Writes is bs) : bs.length = Draft.codeSizeOf is := by
  induction h with
  | nil => rfl
  | cons hr _ ih =>
    rw [List.length_append, Instruction.length_encode, Instruction.size_resolve hr, ih,
      Draft.codeSizeOf]

/-- The bytes of an instruction stand where those of the instructions before it end. -/
theorem Writes.split {is js : List (Nat × Instruction Text)} {line : Nat}
    {i : Instruction Text} {bs : List Byte} (h : layout.Writes (is ++ (line, i) :: js) bs) :
    ∃ pre i' post, i.resolve layout.value = .ok i' ∧ bs = pre ++ (i'.encode ++ post) ∧
      pre.length = Draft.codeSizeOf is := by
  induction is generalizing bs with
  | nil =>
    cases h with
    | cons hr hrest => exact ⟨[], _, _, hr, rfl, rfl⟩
  | cons entry is ih =>
    cases h with
    | cons hr hrest =>
      obtain ⟨pre, i', post, hi, rfl, hlen⟩ := ih hrest
      refine ⟨_ ++ pre, i', post, hi, (List.append_assoc _ _ _).symm, ?_⟩
      rw [List.length_append, Instruction.length_encode, Instruction.size_resolve hr, hlen,
        Draft.codeSizeOf]

theorem Writes.resolve_of_mem {is : List (Nat × Instruction Text)} {bs : List Byte}
    (h : layout.Writes is bs) {line : Nat} {i : Instruction Text} (hmem : (line, i) ∈ is) :
    ∃ i', i.resolve layout.value = .ok i' := by
  obtain ⟨is₁, is₂, rfl⟩ := List.append_of_mem hmem
  obtain ⟨-, i', -, hi, -, -⟩ := h.split
  exact ⟨i', hi⟩

/-- A text has no value exactly if it is neither a number nor the name of a label or a buffer. -/
def Unknown (layout : Layout) (s : Text) : Prop :=
  Text.number? s = none ∧ s ∉ layout.labels.map Prod.fst ∧ s ∉ layout.buffers.map Prod.fst

theorem resolve_eq_none_iff {s : Text} : layout.resolve s = none ↔ layout.Unknown s := by
  unfold resolve Unknown
  rw [← lookup_eq_none_iff_not_mem, ← lookup_eq_none_iff_not_mem]
  cases Text.number? s with
  | some n => simp
  | none => cases layout.labels.lookup s <;> simp

theorem value_eq_error_iff {s t : Text} :
    layout.value s = .error t ↔ t = s ∧ layout.Unknown s := by
  rw [← resolve_eq_none_iff]
  unfold value
  cases layout.resolve s <;> simp [eq_comm]

/-- An instruction cannot be written exactly if one of its values is unknown. -/
theorem resolve_error_iff {i : Instruction Text} :
    (∃ t, i.resolve layout.value = .error t) ↔ ∃ t ∈ i.values, layout.Unknown t := by
  rcases i.resolve_cases layout.value with ⟨i', hi, hv⟩ | ⟨t, ht, e, he, hi⟩
  · constructor
    · intro ⟨t, ht⟩
      rw [hi] at ht
      cases ht
    · intro ⟨t, ht, hunknown⟩
      obtain ⟨w, hw⟩ := hv t ht
      rw [value_eq_error_iff.2 ⟨rfl, hunknown⟩] at hw
      cases hw
  · exact ⟨fun _ => ⟨t, ht, (value_eq_error_iff.1 he).2⟩, fun _ => ⟨e, hi⟩⟩

end Layout

namespace Emission

variable {layout : Layout}

/-- The emission is what the second reading makes of these lines. -/
structure Covers (layout : Layout) (e : Emission) (ls : List Line) : Prop where
  current : e.current = Section.after none ls
  code : layout.Writes (Line.instructions none ls) e.code.toList

theorem covers_empty : Covers layout empty [] := ⟨rfl, .nil⟩

theorem Covers.size_code {e : Emission} {ls : List Line} (h : e.Covers layout ls) :
    e.code.size = Draft.codeSizeOf (Line.instructions none ls) := by
  rw [← h.code.length_eq, Array.length_toList]

theorem exists_of_addLine {e next : Emission} {l : Line} (h : e.addLine layout l = .ok next) :
    ∃ s, Statement.ofText e.current l.text = .ok s ∧ e.add layout s = .ok next := by
  unfold addLine at h
  cases hb : (Statement.ofText e.current l.text).bind (e.add layout) with
  | error cause => rw [hb] at h; cases h
  | ok next =>
    rw [hb] at h
    cases h
    exact exists_of_bind_eq_ok hb

theorem Covers.addLine {e next : Emission} {before : List Line} {l : Line}
    (he : e.Covers layout before) (h : e.addLine layout l = .ok next) :
    next.Covers layout (before ++ [l]) := by
  obtain ⟨s, hs, hadd⟩ := exists_of_addLine h
  rw [he.current] at hs
  have hsec : Section.after none (before ++ [l]) = s.opens e.current := by
    rw [he.current]
    exact States.after_concat hs
  have hins : Line.instructions none (before ++ [l]) =
      Line.instructions none before ++ s.instructions l.number := States.instructions_concat hs
  -- only an instruction adds to the code, and only then is there one more to account for
  cases s with
  | marker opened =>
    cases hadd
    exact ⟨hsec.symm, by rw [hins]; simpa using he.code⟩
  | label name =>
    cases hadd
    exact ⟨hsec.symm, by rw [hins]; simpa using he.code⟩
  | instruction i =>
    rw [add] at hadd
    split at hadd
    · rename_i i' hi
      cases hadd
      refine ⟨hsec.symm, ?_⟩
      rw [hins, Array.appendList_eq_append, Array.toList_appendList]
      exact he.code.append (by simpa using Layout.Writes.cons hi .nil)
    · cases hadd
  | declaration d =>
    cases hadd
    exact ⟨hsec.symm, by rw [hins]; simpa using he.code⟩

theorem Covers.addLines {e next : Emission} {before ls : List Line}
    (he : e.Covers layout before) (h : e.addLines layout ls = .ok next) :
    next.Covers layout (before ++ ls) := by
  induction ls generalizing e before with
  | nil =>
    cases h
    simpa using he
  | cons l ls ih =>
    obtain ⟨e', hl, hls⟩ := exists_of_bind_eq_ok h
    simpa using ih (he.addLine hl) hls

theorem covers_of_ofLines {e : Emission} {ls : List Line} (h : ofLines layout ls = .ok e) :
    e.Covers layout ls := by
  simpa using covers_empty.addLines h

end Emission

end RegisterMachine
