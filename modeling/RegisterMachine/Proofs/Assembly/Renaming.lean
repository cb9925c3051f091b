import RegisterMachine.Proofs.Assembly.FirstError
import RegisterMachine.Proofs.Text.Identifier

/-!
# RegisterMachine.Proofs.Assembly.Renaming

The two readings of a program whose names have been changed. Names are kept in
tables and compared, and they stand in some of the errors; nothing else is done
with them. So each reading of the renamed program is the reading of the program
with the names changed in its result, be it a table or an error, as long as
different names stay different (`Distinguishes`).

The names that matter are those that the lines state, `Statement.names`. What the
texts of a renamed program look like is not said here: all that is needed is that
each line states the same with its names changed (`RenamedLines`).
-/

namespace RegisterMachine

variable {α β γ ε δ : Type}

/-! ### Changing the values of an instruction -/

/-- The operand with its value changed by `f`. -/
def Operand.map (f : α → β) : Operand α → Operand β
  | register r => .register r
  | immediate v => .immediate (f v)
  | memory a => .memory (f a)

/-- The operand with its value changed by `f`. -/
def Direct.map (f : α → β) : Direct α → Direct β
  | register r => .register r
  | immediate v => .immediate (f v)

namespace Instruction

/-- The instruction with its values changed by `f`. -/
def map (f : α → β) : Instruction α → Instruction β
  | nop => .nop
  | syscall => .syscall
  | move dst src => .move dst (src.map f)
  | store address src => .store (f address) (src.map f)
  | arith op dst src => .arith op dst (src.map f)
  | cmp left right => .cmp left (right.map f)
  | branch c target => .branch c (target.map f)

end Instruction

@[simp] theorem Operand.size_map (f : α → β) (o : Operand α) : (o.map f).size = o.size := by
  cases o <;> rfl

@[simp] theorem Direct.size_map (f : α → β) (d : Direct α) :
    (d.map f).toOperand.size = d.toOperand.size := by
  cases d <;> rfl

@[simp] theorem Instruction.size_map (f : α → β) (i : Instruction α) : (i.map f).size = i.size := by
  cases i <;> simp [map, size]

/-- Which operands are legal does not depend on their values. -/
theorem Instruction.ofOperands_map (f : α → β) (op : Opcode) (os : List (Operand α)) :
    ofOperands op (os.map (Operand.map f)) = (ofOperands op os).map (Instruction.map f) := by
  match os with
  | [] => cases op <;> rfl
  | [a] => cases op <;> cases a <;> rfl
  | [a, b] =>
    cases op with
    | mov => cases a <;> cases b <;> rfl
    | cmp => cases a <;> rfl
    | arith op => cases a <;> rfl
    | _ => rfl
  | a :: b :: c :: os => cases op <;> simp [ofOperands, Except.map]

section

variable {f : α → β} {v : α → Except ε γ} {w : β → Except δ γ} {h : ε → δ}

theorem Operand.resolve_map {o : Operand α} (hv : ∀ t ∈ o.given?, w (f t) = (v t).mapError h) :
    (o.map f).resolve w = (o.resolve v).mapError h := by
  cases o with
  | register r => rfl
  | immediate t =>
    rw [map, resolve, resolve, hv t rfl]
    cases v t <;> rfl
  | memory a =>
    rw [map, resolve, resolve, hv a rfl]
    cases v a <;> rfl

theorem Direct.resolve_map {d : Direct α}
    (hv : ∀ t ∈ d.toOperand.given?, w (f t) = (v t).mapError h) :
    (d.map f).resolve w = (d.resolve v).mapError h := by
  cases d with
  | register r => rfl
  | immediate t =>
    rw [map, resolve, resolve, hv t rfl]
    cases v t <;> rfl

/-- The values of the changed instruction are found where those of the instruction are. -/
theorem Instruction.resolve_map {i : Instruction α}
    (hv : ∀ t ∈ i.values, w (f t) = (v t).mapError h) :
    (i.map f).resolve w = (i.resolve v).mapError h := by
  have hoperand {o : Operand α} (ho : o ∈ i.operands) :
      ∀ t ∈ o.given?, w (f t) = (v t).mapError h :=
    fun t ht => hv t (mem_values.2 ⟨o, ho, ht⟩)
  cases i with
  | nop => rfl
  | syscall => rfl
  | move dst src =>
    rw [map, resolve, resolve, Operand.resolve_map (hoperand (by simp [operands]))]
    cases src.resolve v <;> rfl
  | store address src =>
    have haddress : w (f address) = (v address).mapError h :=
      hoperand (o := .memory address) (by simp [operands]) address rfl
    rw [map, resolve, resolve, haddress]
    cases v address with
    | error e => rfl
    | ok a =>
      show ((src.map f).resolve w).map _ = ((src.resolve v).map _).mapError h
      rw [Direct.resolve_map (hoperand (by simp [operands]))]
      cases src.resolve v <;> rfl
  | arith op dst src =>
    rw [map, resolve, resolve, Operand.resolve_map (hoperand (by simp [operands]))]
    cases src.resolve v <;> rfl
  | cmp left right =>
    rw [map, resolve, resolve, Operand.resolve_map (hoperand (by simp [operands]))]
    cases right.resolve v <;> rfl
  | branch c target =>
    rw [map, resolve, resolve, Direct.resolve_map (hoperand (by simp [operands]))]
    cases target.resolve v <;> rfl

end

/-! ### Changing the names of a program -/

section

variable (ρ : Identifier → Identifier)

/-- The declaration under its new name. -/
def Declaration.rename (d : Declaration) : Declaration := ⟨d.name.respell ρ, d.size⟩

/-- The statement with its names changed. -/
def Statement.rename : Statement → Statement
  | .marker s => .marker s
  | .label name => .label (name.respell ρ)
  | .instruction i => .instruction (i.map (Text.respell ρ))
  | .declaration d => .declaration (d.rename ρ)

/-- The cause with the name in it changed, if there is one. The other texts that a cause may have
are those of a mnemonic and of a size. -/
def Cause.rename : Cause → Cause
  | .duplicateLabel label => .duplicateLabel (label.respell ρ)
  | .duplicateBuffer name => .duplicateBuffer (name.respell ρ)
  | .unknownSymbol symbol => .unknownSymbol (symbol.respell ρ)
  | cause => cause

/-- The error with the name in it changed. -/
def AssemblyError.rename (e : AssemblyError) : AssemblyError := ⟨e.line, e.cause.rename ρ⟩

/-- The table with its names changed. -/
def Text.renameKeys (entries : List (Text × α)) : List (Text × α) :=
  entries.map fun entry => (entry.1.respell ρ, entry.2)

/-- The draft with its names changed. -/
def Draft.rename (draft : Draft) : Draft where
  current := draft.current
  hasMain := draft.hasMain
  codeSize := draft.codeSize
  labels := Text.renameKeys ρ draft.labels
  declarations := draft.declarations.map fun entry => (entry.1, entry.2.rename ρ)

/-- The layout with its names changed. -/
def Layout.rename (layout : Layout) : Layout where
  codeSize := layout.codeSize
  dataSize := layout.dataSize
  labels := Text.renameKeys ρ layout.labels
  buffers := Text.renameKeys ρ layout.buffers
  hasMain := layout.hasMain

end

/-- The names that a statement gives, and the texts in it that have to stand for a value. -/
def Statement.names : Statement → List Text
  | .marker _ => []
  | .label name => [name]
  | .instruction i => i.values
  | .declaration d => [d.name]

/-- Different names that are in `S` stay different. -/
def Distinguishes (ρ : Identifier → Identifier) (S : Text → Prop) : Prop :=
  ∀ x y : Identifier, S x.text → S y.text → ρ x = ρ y → x = y

/-! ### Tables of names -/

section

variable {ρ : Identifier → Identifier} {S : Text → Prop} {s t : Text} {entries : List (Text × Nat)}

theorem Distinguishes.respell_inj (h : Distinguishes ρ S) (hs : S s) (ht : S t) :
    s.respell ρ = t.respell ρ ↔ s = t := by
  refine Text.respell_inj ?_
  rintro x y rfl rfl
  exact h x y hs ht

theorem Distinguishes.mem_map_iff (h : Distinguishes ρ S) {names : List Text} (hs : S s)
    (hnames : ∀ t ∈ names, S t) : s.respell ρ ∈ names.map (Text.respell ρ) ↔ s ∈ names := by
  rw [List.mem_map]
  constructor
  · rintro ⟨t, ht, heq⟩
    rwa [(h.respell_inj (hnames t ht) hs).1 heq] at ht
  · intro hmem
    exact ⟨s, hmem, rfl⟩

theorem Distinguishes.lookup (h : Distinguishes ρ S) (hs : S s)
    (hnames : ∀ entry ∈ entries, S entry.1) :
    (Text.renameKeys ρ entries).lookup (s.respell ρ) = entries.lookup s := by
  induction entries with
  | nil => rfl
  | cons entry entries ih =>
    have hrest := ih fun e he => hnames e (List.mem_cons_of_mem entry he)
    have hfirst : (s.respell ρ == entry.1.respell ρ) = (s == entry.1) := by
      rw [Bool.eq_iff_iff, beq_iff_eq, beq_iff_eq]
      exact h.respell_inj hs (hnames entry List.mem_cons_self)
    rw [Text.renameKeys, List.map_cons, List.lookup_cons, List.lookup_cons, hfirst,
      ← Text.renameKeys, hrest]

end

/-! ### Programs that are renamed line by line -/

/-- The line `m` states the same as `l` with its names changed, if both stand in `current`. -/
structure Line.Renames (ρ : Identifier → Identifier) (current : Option Section) (l m : Line) :
    Prop where
  number : m.number = l.number
  statement : Statement.ofText current m.text =
    ((Statement.ofText current l.text).map (Statement.rename ρ)).mapError (Cause.rename ρ)

/-- Each line of the second program states the same as the one of the first in its place, with
its names changed. -/
inductive RenamedLines (ρ : Identifier → Identifier) :
    Option Section → List Line → List Line → Prop
  | nil {current : Option Section} : RenamedLines ρ current [] []
  | cons {current : Option Section} {l m : Line} {ls ms : List Line} :
      l.Renames ρ current m → RenamedLines ρ (Section.next current l) ls ms →
      RenamedLines ρ current (l :: ls) (m :: ms)

/-- All names that the lines state are in `S`. -/
def Line.NamesIn (S : Text → Prop) (current : Option Section) (ls : List Line) : Prop :=
  ∀ entry ∈ statements current ls, ∀ name ∈ entry.2.names, S name

section

variable {ρ : Identifier → Identifier} {S : Text → Prop}

theorem Line.NamesIn.cons {current : Option Section} {l : Line} {ls : List Line}
    (h : NamesIn S current (l :: ls)) :
    (∀ s, Statement.ofText current l.text = .ok s → ∀ name ∈ s.names, S name) ∧
      NamesIn S (Section.next current l) ls := by
  unfold NamesIn at h
  rw [statements] at h
  cases hs : Statement.ofText current l.text with
  | error cause =>
    rw [hs] at h
    refine ⟨?_, h⟩
    intro s hs
    cases hs
  | ok s =>
    rw [hs] at h
    refine ⟨?_, fun entry he => h entry (List.mem_cons_of_mem _ he)⟩
    rintro s' hs'
    cases hs'
    exact h (l.number, s) List.mem_cons_self

/-! ### The first reading -/

namespace Draft

variable {draft next : Draft}

/-- The names in the tables of the draft are in `S`. -/
structure NamesIn (S : Text → Prop) (draft : Draft) : Prop where
  labels : ∀ entry ∈ draft.labels, S entry.1
  declarations : ∀ entry ∈ draft.declarations, S entry.2.name

theorem namesIn_empty : NamesIn S empty := ⟨nofun, nofun⟩

theorem NamesIn.add {line : Nat} {s : Statement} (h : draft.NamesIn S)
    (hs : ∀ name ∈ s.names, S name) (hadd : draft.add line s = .ok next) : next.NamesIn S := by
  obtain ⟨-, rfl⟩ := add_eq_ok_iff.1 hadd
  constructor
  · intro entry he
    obtain he | he := List.mem_append.1 he
    · exact h.labels entry he
    · cases s with
      | label name =>
        cases List.mem_singleton.1 he
        exact hs name (List.mem_singleton_self name)
      | _ => cases he
  · intro entry he
    obtain he | he := List.mem_append.1 he
    · exact h.declarations entry he
    · cases s with
      | declaration d =>
        cases List.mem_singleton.1 he
        exact hs d.name (List.mem_singleton_self d.name)
      | _ => cases he

theorem current_of_add {line : Nat} {s : Statement} (hadd : draft.add line s = .ok next) :
    next.current = s.opens draft.current := by
  obtain ⟨-, rfl⟩ := add_eq_ok_iff.1 hadd
  rfl

theorem NamesIn.addLines {ls : List Line} (h : draft.NamesIn S)
    (hs : Line.NamesIn S draft.current ls) (hok : draft.addLines ls = .ok next) :
    next.NamesIn S := by
  induction ls generalizing draft with
  | nil =>
    cases hok
    exact h
  | cons l ls ih =>
    obtain ⟨hfirst, hrest⟩ := hs.cons
    obtain ⟨d, hd, hls⟩ := exists_of_bind_eq_ok hok
    obtain ⟨s, hstates, hadd⟩ := exists_of_addLine hd
    rw [Statement.next_of_ofText hstates, ← current_of_add hadd] at hrest
    exact ih (h.add (hfirst s hstates) hadd) hrest hls

/-- A statement is added under its new names. -/
theorem add_rename (h : Distinguishes ρ S) (hd : draft.NamesIn S) (line : Nat) {s : Statement}
    (hs : ∀ name ∈ s.names, S name) :
    (draft.rename ρ).add line (s.rename ρ) =
      ((draft.add line s).map (rename ρ)).mapError (Cause.rename ρ) := by
  cases s with
  | marker opened => rfl
  | label name =>
    have hmem : name.respell ρ ∈ (draft.rename ρ).labels.map Prod.fst ↔
        name ∈ draft.labels.map Prod.fst := by
      have hkeys : (draft.rename ρ).labels.map Prod.fst =
          (draft.labels.map Prod.fst).map (Text.respell ρ) := by
        simp [rename, Text.renameKeys]
      rw [hkeys]
      refine h.mem_map_iff (hs name (List.mem_singleton_self name)) ?_
      intro t ht
      obtain ⟨entry, he, rfl⟩ := List.mem_map.1 ht
      exact hd.labels entry he
    rw [Statement.rename, add, add]
    by_cases hname : name ∈ draft.labels.map Prod.fst
    · rw [if_pos (hmem.2 hname), if_pos hname]
      rfl
    · rw [if_neg ((not_congr hmem).2 hname), if_neg hname]
      show Except.ok _ = Except.ok (rename ρ _)
      simp [rename, Text.renameKeys]
  | instruction i =>
    rw [Statement.rename, add, add, Instruction.size_map]
    by_cases hsize : draft.codeSize + i.size < addressLimit
    · rw [if_pos hsize, rename, if_pos hsize]
      rfl
    · rw [if_neg hsize, rename, if_neg hsize]
      rfl
  | declaration d =>
    have hmem : (d.rename ρ).name ∈ (draft.rename ρ).declarations.map (fun entry => entry.2.name) ↔
        d.name ∈ draft.declarations.map fun entry => entry.2.name := by
      have hkeys : (draft.rename ρ).declarations.map (fun entry => entry.2.name) =
          (draft.declarations.map fun entry => entry.2.name).map (Text.respell ρ) := by
        simp [rename, Declaration.rename]
      rw [hkeys]
      refine h.mem_map_iff (hs d.name (List.mem_singleton_self d.name)) ?_
      intro t ht
      obtain ⟨entry, he, rfl⟩ := List.mem_map.1 ht
      exact hd.declarations entry he
    rw [Statement.rename, add, add]
    by_cases hname : d.name ∈ draft.declarations.map fun entry => entry.2.name
    · rw [if_pos (hmem.2 hname), if_pos hname]
      rfl
    · rw [if_neg ((not_congr hmem).2 hname), if_neg hname]
      show Except.ok _ = Except.ok (rename ρ _)
      simp [rename]

/-- A line is read under its new names. -/
theorem addLine_rename (h : Distinguishes ρ S) (hd : draft.NamesIn S) {l m : Line}
    (hl : l.Renames ρ draft.current m)
    (hs : ∀ s, Statement.ofText draft.current l.text = .ok s → ∀ name ∈ s.names, S name) :
    (draft.rename ρ).addLine m =
      ((draft.addLine l).map (rename ρ)).mapError (AssemblyError.rename ρ) := by
  have hcurrent : (draft.rename ρ).current = draft.current := rfl
  rw [addLine_eq_mapError, addLine_eq_mapError, hcurrent, hl.statement, hl.number]
  cases hstates : Statement.ofText draft.current l.text with
  | error cause => rfl
  | ok s =>
    show ((draft.rename ρ).add l.number (s.rename ρ)).mapError _ = _
    rw [add_rename h hd l.number (hs s hstates), Except.bind]
    cases draft.add l.number s <;> rfl

theorem addLines_rename (h : Distinguishes ρ S) {ls ms : List Line} (hd : draft.NamesIn S)
    (hlines : RenamedLines ρ draft.current ls ms) (hs : Line.NamesIn S draft.current ls) :
    (draft.rename ρ).addLines ms =
      ((draft.addLines ls).map (rename ρ)).mapError (AssemblyError.rename ρ) := by
  induction ls generalizing draft ms with
  | nil =>
    cases hlines
    rfl
  | cons l ls ih =>
    cases hlines with
    | @cons _ _ m _ ms hl hls =>
      obtain ⟨hfirst, hrest⟩ := hs.cons
      rw [addLines, addLines, addLine_rename h hd hl hfirst]
      cases hnext : draft.addLine l with
      | error e => rfl
      | ok next =>
        obtain ⟨s, hstates, hadd⟩ := exists_of_addLine hnext
        rw [Statement.next_of_ofText hstates, ← current_of_add hadd] at hls hrest
        exact ih (hd.add (hfirst s hstates) hadd) hls hrest

end Draft

/-! ### The layout -/

namespace Layout

variable {layout : Layout}

/-- The buffers are placed under their new names. -/
theorem place_rename (ρ : Identifier → Identifier) (codeSize offset : Nat)
    (ds : List (Nat × Declaration)) :
    place codeSize offset (ds.map fun entry => (entry.1, entry.2.rename ρ)) =
      ((place codeSize offset ds).map fun placed =>
        (Text.renameKeys ρ placed.1, placed.2)).mapError (AssemblyError.rename ρ) := by
  induction ds generalizing offset with
  | nil => rfl
  | cons entry ds ih =>
    obtain ⟨line, d⟩ := entry
    rw [List.map_cons]
    by_cases hroom : Room codeSize offset d
    · have hroom' : Room codeSize offset (d.rename ρ) := hroom
      rw [place_cons_of_room hroom', place_cons_of_room hroom]
      show (place codeSize (offset + d.size.toNat) _).map _ = _
      rw [ih]
      cases place codeSize (offset + d.size.toNat) ds <;> rfl
    · have hroom' : ¬Room codeSize offset (d.rename ρ) := hroom
      rw [place_cons_of_not_room hroom', place_cons_of_not_room hroom]
      rfl

/-- The renamed program is laid out in the same way, under the new names. -/
theorem ofLines_rename (h : Distinguishes ρ S) {ls ms : List Line}
    (hlines : RenamedLines ρ none ls ms) (hs : Line.NamesIn S none ls) :
    ofLines ms = ((ofLines ls).map (rename ρ)).mapError (AssemblyError.rename ρ) := by
  have hdraft : Draft.ofLines ms = _ := Draft.addLines_rename h Draft.namesIn_empty hlines hs
  rw [ofLines, ofLines, hdraft, Draft.ofLines]
  cases Draft.empty.addLines ls with
  | error e => rfl
  | ok draft =>
    show ofDraft (draft.rename ρ) = ((ofDraft draft).map _).mapError _
    rw [ofDraft, ofDraft]
    have hplace := place_rename ρ draft.codeSize 0 draft.declarations
    show (place draft.codeSize 0 (draft.declarations.map _)).map _ = _
    rw [hplace]
    cases place draft.codeSize 0 draft.declarations <;> rfl

/-- The names in the tables of the layout are in `S`. -/
structure NamesIn (S : Text → Prop) (layout : Layout) : Prop where
  labels : ∀ entry ∈ layout.labels, S entry.1
  buffers : ∀ entry ∈ layout.buffers, S entry.1

theorem namesIn_of_ofLines {ls : List Line} (hs : Line.NamesIn S none ls)
    (h : ofLines ls = .ok layout) : layout.NamesIn S := by
  obtain ⟨draft, hdraft, -, hlabels, hbuffers⟩ := exists_of_ofLines h
  have hnames := Draft.namesIn_empty.addLines hs hdraft
  constructor
  · rw [hlabels]
    exact hnames.labels
  · intro entry he
    have hname : entry.1 ∈ layout.buffers.map Prod.fst := List.mem_map_of_mem he
    rw [hbuffers] at hname
    obtain ⟨declared, hdeclared, heq⟩ := List.mem_map.1 hname
    rw [← heq]
    exact hnames.declarations declared hdeclared

/-- A text has the same value under its new name, or is not known under it either. -/
theorem value_rename (h : Distinguishes ρ S) (hl : layout.NamesIn S) {t : Text} (ht : S t) :
    (layout.rename ρ).value (t.respell ρ) = (layout.value t).mapError (Text.respell ρ) := by
  have hlabels : (layout.rename ρ).labels.lookup (t.respell ρ) = layout.labels.lookup t :=
    h.lookup ht hl.labels
  have hbuffers : (layout.rename ρ).buffers.lookup (t.respell ρ) = layout.buffers.lookup t :=
    h.lookup ht hl.buffers
  have hresolve : (layout.rename ρ).resolve (t.respell ρ) = layout.resolve t := by
    rw [resolve, resolve, Text.number?_respell, hlabels, hbuffers]
  rw [value, value, hresolve]
  cases layout.resolve t <;> rfl

end Layout

/-! ### The second reading -/

namespace Emission

variable {layout : Layout} {e : Emission}

theorem current_of_add {next : Emission} {s : Statement} (hadd : e.add layout s = .ok next) :
    next.current = s.opens e.current := by
  cases s with
  | instruction i =>
    rw [add] at hadd
    split at hadd
    · cases hadd
      rfl
    · cases hadd
  | _ =>
    cases hadd
    rfl

theorem add_rename (h : Distinguishes ρ S) (hl : layout.NamesIn S) (e : Emission) {s : Statement}
    (hs : ∀ name ∈ s.names, S name) :
    e.add (layout.rename ρ) (s.rename ρ) = (e.add layout s).mapError (Cause.rename ρ) := by
  cases s with
  | marker opened => rfl
  | label name => rfl
  | declaration d => rfl
  | instruction i =>
    have hvalues : ∀ t ∈ i.values,
        (layout.rename ρ).value (t.respell ρ) = (layout.value t).mapError (Text.respell ρ) :=
      fun t ht => Layout.value_rename h hl (hs t ht)
    rw [Statement.rename, add, add, Instruction.resolve_map hvalues]
    cases i.resolve layout.value <;> rfl

theorem addLine_rename (h : Distinguishes ρ S) (hl : layout.NamesIn S) {l m : Line}
    (hline : l.Renames ρ e.current m)
    (hs : ∀ s, Statement.ofText e.current l.text = .ok s → ∀ name ∈ s.names, S name) :
    e.addLine (layout.rename ρ) m = (e.addLine layout l).mapError (AssemblyError.rename ρ) := by
  rw [addLine_eq_mapError, addLine_eq_mapError, hline.statement, hline.number]
  cases hstates : Statement.ofText e.current l.text with
  | error cause => rfl
  | ok s =>
    show (e.add (layout.rename ρ) (s.rename ρ)).mapError _ = _
    rw [add_rename h hl e (hs s hstates), Except.bind]
    cases e.add layout s <;> rfl

/-- The same bytes are written for the renamed program. -/
theorem addLines_rename (h : Distinguishes ρ S) (hl : layout.NamesIn S) {ls ms : List Line}
    (hlines : RenamedLines ρ e.current ls ms) (hs : Line.NamesIn S e.current ls) :
    e.addLines (layout.rename ρ) ms =
      (e.addLines layout ls).mapError (AssemblyError.rename ρ) := by
  induction ls generalizing e ms with
  | nil =>
    cases hlines
    rfl
  | cons l ls ih =>
    cases hlines with
    | @cons _ _ m _ ms hline hls =>
      obtain ⟨hfirst, hrest⟩ := hs.cons
      rw [addLines, addLines, addLine_rename h hl hline hfirst]
      cases hnext : e.addLine layout l with
      | error err => rfl
      | ok next =>
        obtain ⟨s, hstates, hadd⟩ := exists_of_addLine hnext
        rw [Statement.next_of_ofText hstates, ← current_of_add hadd] at hls hrest
        exact ih hls hrest

end Emission

/-- The renamed program has the same image, or the same error with its name changed. -/
theorem assembleLines_rename (h : Distinguishes ρ S) {ls ms : List Line}
    (hlines : RenamedLines ρ none ls ms) (hs : Line.NamesIn S none ls) :
    assembleLines ms = (assembleLines ls).mapError (AssemblyError.rename ρ) := by
  refine assembleLines_of_readings (Layout.ofLines_rename h hlines hs) (fun _ => rfl) ?_
  intro layout hl
  exact Emission.addLines_rename (e := .empty) h (Layout.namesIn_of_ofLines hs hl) hlines hs

end

end RegisterMachine
