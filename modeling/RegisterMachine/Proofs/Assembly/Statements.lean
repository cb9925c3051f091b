import RegisterMachine.Assembly.Emission

/-!
# RegisterMachine.Proofs.Assembly.Statements

What the lines of a program state, said without either reading of it: the
section of a line is the one that the last marker before it has opened, and its
statement is what its text says in that section. The two readings keep track of
the section on their own, and both are measured against this.

* `Line.instructions` lists the instructions that some lines state;
* `Draft.codeSizeOf (Line.instructions none before)` is the address of an
  instruction that follows the lines `before`;
* `Instruction.values` lists the texts of an instruction that have to stand for
  a value, and `Instruction.resolve` fails exactly at one of them.
-/

namespace RegisterMachine

namespace Section

/-- The section of the lines that follow `l`, if `l` stands in `current`. -/
def next (current : Option Section) (l : Line) : Option Section :=
  (ofMarker? l.text).or current

/-- The section of what follows some lines, of which the first stands in `current`. -/
def after (current : Option Section) : List Line → Option Section
  | [] => current
  | l :: ls => after (next current l) ls

theorem after_append (current : Option Section) (ls ms : List Line) :
    after current (ls ++ ms) = after (after current ls) ms := by
  induction ls generalizing current with
  | nil => rfl
  | cons l ls ih => exact ih (next current l)

end Section

namespace Statement

/-- The section of the lines that follow a line with this statement in `current`. -/
def opens (current : Option Section) : Statement → Option Section
  | .marker s => some s
  | .label _ => current
  | .instruction _ => current
  | .declaration _ => current

/-- Whether the statement begins a main section. -/
def opensMain : Statement → Bool
  | .marker s => s == .main
  | _ => false

/-- The section that the statement belongs to, unless it is a marker. -/
def home? : Statement → Option Section
  | .marker _ => none
  | .label _ => some .main
  | .instruction _ => some .main
  | .declaration _ => some .data

theorem ofText_of_marker {current : Option Section} {t : Text} {opened : Section}
    (h : Section.ofMarker? t = some opened) : ofText current t = .ok (.marker opened) := by
  simp [ofText, h]

/-- A text that is no marker has to stand in a section, and states something that belongs there. -/
theorem home?_of_ofText {current : Option Section} {t : Text} {s : Statement}
    (hm : Section.ofMarker? t = none) (h : ofText current t = .ok s) :
    s.home? = current ∧ current ≠ none := by
  unfold ofText at h
  rw [hm] at h
  cases current with
  | none => cases h
  | some section_ =>
    refine ⟨?_, Option.some_ne_none section_⟩
    cases section_ with
    | main =>
      change ofMain t = .ok s at h
      unfold ofMain at h
      split at h
      · dsimp only at h
        split at h
        · cases h
        · cases h
          rfl
      · obtain ⟨i, -, rfl⟩ := exists_of_map_eq_ok h
        rfl
    | data =>
      change ofData t = .ok s at h
      obtain ⟨d, -, rfl⟩ := exists_of_map_eq_ok h
      rfl

/-- Only a marker opens a section, wherever it stands. -/
theorem next_of_ofText {current : Option Section} {l : Line} {s : Statement}
    (h : ofText current l.text = .ok s) : Section.next current l = s.opens current := by
  unfold Section.next
  cases hm : Section.ofMarker? l.text with
  | some opened =>
    rw [ofText_of_marker hm] at h
    cases h
    rfl
  | none =>
    obtain ⟨hhome, hcurrent⟩ := home?_of_ofText hm h
    rw [Option.none_or]
    cases s with
    | marker opened => exact absurd hhome.symm hcurrent
    | _ => rfl

/-- The instruction of a statement on the given line, if it is one. -/
def instructions (line : Nat) : Statement → List (Nat × Instruction Text)
  | .marker _ => []
  | .label _ => []
  | .instruction i => [(line, i)]
  | .declaration _ => []

@[simp] theorem instructions_marker (line : Nat) (s : Section) :
    (marker s).instructions line = [] := rfl

@[simp] theorem instructions_label (line : Nat) (name : Text) :
    (label name).instructions line = [] := rfl

@[simp] theorem instructions_instruction (line : Nat) (i : Instruction Text) :
    (instruction i).instructions line = [(line, i)] := rfl

@[simp] theorem instructions_declaration (line : Nat) (d : Declaration) :
    (declaration d).instructions line = [] := rfl

/-- The label of a statement that is one, bound to the given address. -/
def labels (address : Nat) : Statement → List (Text × Nat)
  | .marker _ => []
  | .label name => [(name, address)]
  | .instruction _ => []
  | .declaration _ => []

/-- The declaration of a statement on the given line, if it is one. -/
def declarations (line : Nat) : Statement → List (Nat × Declaration)
  | .marker _ => []
  | .label _ => []
  | .instruction _ => []
  | .declaration d => [(line, d)]

theorem mem_labels_iff {s : Statement} {address : Nat} {name : Text} :
    s = .label name ↔ name ∈ (s.labels address).map Prod.fst := by
  cases s <;> simp [labels, eq_comm]

theorem mem_declarations_iff {s : Statement} {line : Nat} {name : Text} :
    (∃ d, s = .declaration d ∧ d.name = name) ↔
      name ∈ (s.declarations line).map fun entry => entry.2.name := by
  cases s <;> simp [declarations, eq_comm]

end Statement

namespace Line

/-- The instructions that some lines state, with the numbers of their lines. -/
def instructions (current : Option Section) : List Line → List (Nat × Instruction Text)
  | [] => []
  | l :: ls =>
    match Statement.ofText current l.text with
    | .ok s => s.instructions l.number ++ instructions (Section.next current l) ls
    | .error _ => instructions (Section.next current l) ls

theorem instructions_append (current : Option Section) (ls ms : List Line) :
    instructions current (ls ++ ms) =
      instructions current ls ++ instructions (Section.after current ls) ms := by
  induction ls generalizing current with
  | nil => rfl
  | cons l ls ih =>
    rw [List.cons_append, instructions, instructions, Section.after]
    cases Statement.ofText current l.text with
    | error cause => exact ih _
    | ok s =>
      dsimp only
      rw [ih, List.append_assoc]

end Line

/-- After the lines `before`, the line `l` states `s`. -/
def States (before : List Line) (l : Line) (s : Statement) : Prop :=
  Statement.ofText (Section.after none before) l.text = .ok s

/-- One of the lines states `s`. -/
def Stated (lines : List Line) (s : Statement) : Prop :=
  ∃ before l after, lines = before ++ l :: after ∧ States before l s

@[simp] theorem not_stated_nil (s : Statement) : ¬Stated [] s := by
  intro ⟨before, l, after, hlines, _⟩
  exact absurd hlines.symm (by simp)

theorem stated_concat {before : List Line} {l : Line} {s : Statement} :
    Stated (before ++ [l]) s ↔ Stated before s ∨ States before l s := by
  constructor
  · intro ⟨before', l', after, hlines, hl⟩
    rcases List.eq_nil_or_concat after with rfl | ⟨after', last, rfl⟩
    · obtain ⟨rfl, hlast⟩ := List.append_inj' hlines rfl
      cases hlast
      exact Or.inr hl
    · refine Or.inl ⟨before', l', after', ?_, hl⟩
      have hsplit : before ++ [l] = (before' ++ l' :: after') ++ [last] := by
        simpa using hlines
      exact (List.append_inj' hsplit rfl).1
  · rintro (⟨before', l', after, rfl, hl⟩ | hl)
    · exact ⟨before', l', after ++ [l], by simp, hl⟩
    · exact ⟨before, l, [], rfl, hl⟩

namespace States

variable {before : List Line} {l : Line} {s : Statement}

/-- A line states nothing else than what it states. -/
theorem unique {t : Statement} (hs : States before l s) (ht : States before l t) : s = t :=
  Except.ok.inj (hs.symm.trans ht)

theorem after_concat (h : States before l s) :
    Section.after none (before ++ [l]) = s.opens (Section.after none before) := by
  rw [Section.after_append, Section.after, Section.after, Statement.next_of_ofText h]

theorem instructions_concat (h : States before l s) :
    Line.instructions none (before ++ [l]) =
      Line.instructions none before ++ s.instructions l.number := by
  unfold States at h
  rw [Line.instructions_append, Line.instructions, h, Line.instructions]
  exact congrArg _ (List.append_nil _)

/-- The instructions of some lines, taken apart at one of the lines. -/
theorem instructions_split {after : List Line} (h : States before l s) :
    Line.instructions none (before ++ l :: after) =
      Line.instructions none before ++ (s.instructions l.number ++
        Line.instructions (Section.after none (before ++ [l])) after) := by
  rw [List.append_cons, Line.instructions_append, h.instructions_concat, List.append_assoc]

end States

/-! ### The size of some instructions -/

@[simp] theorem Draft.codeSizeOf_nil : codeSizeOf [] = 0 := rfl

@[simp] theorem Draft.codeSizeOf_cons (line : Nat) (i : Instruction Text)
    (is : List (Nat × Instruction Text)) :
    codeSizeOf ((line, i) :: is) = i.size + codeSizeOf is := rfl

theorem Draft.codeSizeOf_append (is js : List (Nat × Instruction Text)) :
    codeSizeOf (is ++ js) = codeSizeOf is + codeSizeOf js := by
  induction is with
  | nil => simp
  | cons entry is ih =>
    obtain ⟨line, i⟩ := entry
    rw [List.cons_append, codeSizeOf_cons, codeSizeOf_cons, ih]
    omega

/-! ### The values that an instruction asks for -/

variable {α β ε : Type}

/-- The value of an operand that is not a register. -/
def Operand.given? : Operand α → Option α
  | .register _ => none
  | .immediate v => some v
  | .memory a => some a

/-- The values that stand in an instruction, in order. -/
def Instruction.values (i : Instruction α) : List α := i.operands.filterMap Operand.given?

namespace Operand

@[simp] theorem given?_register (r : Register) : (register r : Operand α).given? = none := rfl

@[simp] theorem given?_immediate (v : α) : (immediate v).given? = some v := rfl

@[simp] theorem given?_memory (a : α) : (memory a).given? = some a := rfl

/-- Finding the value of an operand succeeds exactly if the value is found. -/
theorem resolve_cases (f : α → Except ε β) (o : Operand α) :
    (∃ o', o.resolve f = .ok o' ∧ ∀ v ∈ o.given?, ∃ w, f v = .ok w) ∨
      ∃ v ∈ o.given?, ∃ e, f v = .error e ∧ o.resolve f = .error e := by
  cases o with
  | register r => exact Or.inl ⟨_, rfl, by simp⟩
  | immediate v =>
    cases hv : f v with
    | ok w => exact Or.inl ⟨_, by rw [resolve, hv]; rfl, by simp [hv]⟩
    | error e => exact Or.inr ⟨v, rfl, e, hv, by rw [resolve, hv]; rfl⟩
  | memory a =>
    cases ha : f a with
    | ok w => exact Or.inl ⟨_, by rw [resolve, ha]; rfl, by simp [ha]⟩
    | error e => exact Or.inr ⟨a, rfl, e, ha, by rw [resolve, ha]; rfl⟩

end Operand

theorem Direct.toOperand_resolve (f : α → Except ε β) (d : Direct α) :
    (d.resolve f).map Direct.toOperand = d.toOperand.resolve f := by
  cases d with
  | register r => rfl
  | immediate v =>
    rw [resolve, toOperand, Operand.resolve]
    cases f v <;> rfl

theorem Direct.resolve_cases (f : α → Except ε β) (d : Direct α) :
    (∃ d', d.resolve f = .ok d' ∧ ∀ v ∈ d.toOperand.given?, ∃ w, f v = .ok w) ∨
      ∃ v ∈ d.toOperand.given?, ∃ e, f v = .error e ∧ d.resolve f = .error e := by
  have hd := toOperand_resolve f d
  rcases Operand.resolve_cases f d.toOperand with ⟨o', ho, hv⟩ | ⟨v, hv, e, he, ho⟩
  · rw [ho] at hd
    obtain ⟨d', hd', -⟩ := exists_of_map_eq_ok hd
    exact Or.inl ⟨d', hd', hv⟩
  · rw [ho] at hd
    refine Or.inr ⟨v, hv, e, he, ?_⟩
    cases hr : d.resolve f with
    | ok d' => rw [hr] at hd; cases hd
    | error e' => rw [hr] at hd; cases hd; rfl

namespace Instruction

theorem mem_values {i : Instruction α} {v : α} :
    v ∈ i.values ↔ ∃ o ∈ i.operands, v ∈ o.given? := by
  simp [values]

/-- Finding the values of an instruction either succeeds, and then each of them is found, or it
fails with the error of one that is not. -/
theorem resolve_cases (f : α → Except ε β) (i : Instruction α) :
    (∃ i', i.resolve f = .ok i' ∧ ∀ v ∈ i.values, ∃ w, f v = .ok w) ∨
      ∃ v ∈ i.values, ∃ e, f v = .error e ∧ i.resolve f = .error e := by
  cases i with
  | nop => exact Or.inl ⟨_, rfl, by simp [values, operands]⟩
  | syscall => exact Or.inl ⟨_, rfl, by simp [values, operands]⟩
  | move dst src =>
    rcases src.resolve_cases f with ⟨s, hs, hv⟩ | ⟨v, hv, e, he, hs⟩
    · exact Or.inl ⟨_, by rw [resolve, hs]; rfl, by simpa [mem_values, operands]⟩
    · exact Or.inr ⟨v, by simpa [mem_values, operands], e, he, by
        rw [resolve, hs]; rfl⟩
  | store address src =>
    cases ha : f address with
    | error e =>
      exact Or.inr ⟨address, by simp [mem_values, operands], e, ha, by
        rw [resolve, ha]; rfl⟩
    | ok a =>
      rcases src.resolve_cases f with ⟨s, hs, hv⟩ | ⟨v, hv, e, he, hs⟩
      · refine Or.inl ⟨_, by rw [resolve, ha, Except.bind, hs]; rfl, ?_⟩
        intro v hmem
        have hmem' : address = v ∨ v ∈ src.toOperand.given? := by
          simpa [mem_values, operands] using hmem
        rcases hmem' with rfl | hmem'
        · exact ⟨a, ha⟩
        · exact hv v hmem'
      · exact Or.inr ⟨v, by simpa [mem_values, operands] using Or.inr hv, e, he, by
          rw [resolve, ha, Except.bind, hs]; rfl⟩
  | arith op dst src =>
    rcases src.resolve_cases f with ⟨s, hs, hv⟩ | ⟨v, hv, e, he, hs⟩
    · exact Or.inl ⟨_, by rw [resolve, hs]; rfl, by simpa [mem_values, operands]⟩
    · exact Or.inr ⟨v, by simpa [mem_values, operands], e, he, by
        rw [resolve, hs]; rfl⟩
  | cmp left right =>
    rcases right.resolve_cases f with ⟨s, hs, hv⟩ | ⟨v, hv, e, he, hs⟩
    · exact Or.inl ⟨_, by rw [resolve, hs]; rfl, by simpa [mem_values, operands]⟩
    · exact Or.inr ⟨v, by simpa [mem_values, operands], e, he, by
        rw [resolve, hs]; rfl⟩
  | branch c target =>
    rcases target.resolve_cases f with ⟨t, ht, hv⟩ | ⟨v, hv, e, he, ht⟩
    · exact Or.inl ⟨_, by rw [resolve, ht]; rfl, by simpa [mem_values, operands]⟩
    · exact Or.inr ⟨v, by simpa [mem_values, operands], e, he, by rw [resolve, ht]; rfl⟩

end Instruction

end RegisterMachine
