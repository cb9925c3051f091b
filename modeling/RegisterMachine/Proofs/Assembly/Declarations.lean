import RegisterMachine.Proofs.Assembly.Agreement

/-!
# RegisterMachine.Proofs.Assembly.Declarations

Support lemmas for **the declarations of a program**, which `Line.declarations`
lists without either reading of it, as `Line.instructions` lists its
instructions. The first reading keeps exactly this list
(`Draft.declarations_of_ofLines`), with no name in it twice.

Placing the buffers goes through the list once. It comes through if there is
room for every declaration (`Layout.exists_place_iff`), and then the buffer of a
declaration stands where those of the declarations before it end
(`Layout.lookup_of_place`).
-/

namespace RegisterMachine

/-! ### What the lines state -/

namespace Line

/-- What some lines state, with the numbers of the lines. -/
def statements (current : Option Section) : List Line → List (Nat × Statement)
  | [] => []
  | l :: ls =>
    match Statement.ofText current l.text with
    | .ok s => (l.number, s) :: statements (Section.next current l) ls
    | .error _ => statements (Section.next current l) ls

/-- The declarations of a program, with the numbers of their lines. -/
def declarations (lines : List Line) : List (Nat × Declaration) :=
  (statements none lines).flatMap fun entry => entry.2.declarations entry.1

theorem statements_append (current : Option Section) (ls ms : List Line) :
    statements current (ls ++ ms) =
      statements current ls ++ statements (Section.after current ls) ms := by
  induction ls generalizing current with
  | nil => rfl
  | cons l ls ih =>
    rw [List.cons_append, statements, statements, Section.after]
    cases Statement.ofText current l.text with
    | error cause => exact ih _
    | ok s => simp [ih]

end Line

theorem States.statements_concat {before : List Line} {l : Line} {s : Statement}
    (h : States before l s) :
    Line.statements none (before ++ [l]) = Line.statements none before ++ [(l.number, s)] := by
  unfold States at h
  simp [Line.statements_append, Line.statements, h]

theorem States.declarations_concat {before : List Line} {l : Line} {s : Statement}
    (h : States before l s) :
    Line.declarations (before ++ [l]) = Line.declarations before ++ s.declarations l.number := by
  simp [Line.declarations, h.statements_concat]

/-! ### The first reading keeps them -/

namespace Draft

@[simp] theorem dataSizeOf_nil : dataSizeOf [] = 0 := rfl

@[simp] theorem dataSizeOf_cons (entry : Nat × Declaration) (ds : List (Nat × Declaration)) :
    dataSizeOf (entry :: ds) = entry.2.size.toNat + dataSizeOf ds := rfl

@[simp] theorem dataSizeOf_append (ds es : List (Nat × Declaration)) :
    dataSizeOf (ds ++ es) = dataSizeOf ds + dataSizeOf es := by
  induction ds with
  | nil => simp
  | cons entry ds ih => simp [ih, Nat.add_assoc]

/-- The declarations of the draft are those of these lines, and their names differ. -/
structure Lists (draft : Draft) (ls : List Line) : Prop where
  declarations : draft.declarations = Line.declarations ls
  nodup : (draft.declarations.map fun entry => entry.2.name).Nodup

theorem lists_empty : Lists empty [] := ⟨rfl, List.nodup_nil⟩

theorem Lists.addLine {draft next : Draft} {before : List Line} {l : Line}
    (hd : draft.Covers before) (hlists : draft.Lists before) (h : draft.addLine l = .ok next) :
    next.Lists (before ++ [l]) := by
  obtain ⟨s, hs, hadd⟩ := exists_of_addLine h
  obtain ⟨hadmits, rfl⟩ := add_eq_ok_iff.1 hadd
  rw [hd.current] at hs
  have hstates : States before l s := hs
  constructor
  · rw [hstates.declarations_concat, ← hlists.declarations]
    rfl
  · show ((draft.declarations ++ s.declarations l.number).map fun entry => entry.2.name).Nodup
    rw [List.map_append]
    cases s with
    | declaration d =>
      refine List.nodup_append.2 ⟨hlists.nodup, List.pairwise_singleton _ _, ?_⟩
      intro name hname other hother
      rw [List.mem_singleton.1 hother]
      rintro rfl
      exact hadmits hname
    | _ => simpa [Statement.declarations] using hlists.nodup

theorem Lists.addLines {draft next : Draft} {before ls : List Line} (hd : draft.Covers before)
    (hlists : draft.Lists before) (h : draft.addLines ls = .ok next) :
    next.Lists (before ++ ls) := by
  induction ls generalizing draft before with
  | nil =>
    cases h
    simpa using hlists
  | cons l ls ih =>
    obtain ⟨d, hl, hls⟩ := exists_of_bind_eq_ok h
    simpa using ih (hd.addLine hl) (hlists.addLine hd hl) hls

theorem lists_of_ofLines {draft : Draft} {ls : List Line} (h : ofLines ls = .ok draft) :
    draft.Lists ls := by
  simpa using lists_empty.addLines covers_empty h

end Draft

/-! ### Placing the buffers -/

namespace Layout

/-- There are addresses and a size left for a declaration whose buffer would stand `offset` bytes
behind the code. -/
def Room (codeSize offset : Nat) (d : Declaration) : Prop :=
  codeSize + offset < Draft.addressLimit ∧ offset + d.size.toNat < Draft.addressLimit

instance (codeSize offset : Nat) (d : Declaration) : Decidable (Room codeSize offset d) :=
  inferInstanceAs (Decidable (_ ∧ _))

theorem place_cons_of_room {codeSize offset line : Nat} {d : Declaration}
    {ds : List (Nat × Declaration)} (h : Room codeSize offset d) :
    place codeSize offset ((line, d) :: ds) =
      (place codeSize (offset + d.size.toNat) ds).map fun placed =>
        ((d.name, codeSize + offset) :: placed.1, placed.2) :=
  if_pos h

theorem place_cons_of_not_room {codeSize offset line : Nat} {d : Declaration}
    {ds : List (Nat × Declaration)} (h : ¬Room codeSize offset d) :
    place codeSize offset ((line, d) :: ds) = .error ⟨line, .dataTooLarge⟩ :=
  if_neg h

/-- A declaration that is placed leaves the others to be placed behind it. -/
theorem exists_of_place_cons {codeSize offset line : Nat} {d : Declaration}
    {ds : List (Nat × Declaration)} {placed : List (Text × Nat) × Nat}
    (h : place codeSize offset ((line, d) :: ds) = .ok placed) :
    Room codeSize offset d ∧ ∃ rest, place codeSize (offset + d.size.toNat) ds = .ok rest ∧
      placed = ((d.name, codeSize + offset) :: rest.1, rest.2) := by
  by_cases hroom : Room codeSize offset d
  · rw [place_cons_of_room hroom] at h
    obtain ⟨rest, hrest, rfl⟩ := exists_of_map_eq_ok h
    exact ⟨hroom, rest, hrest, rfl⟩
  · rw [place_cons_of_not_room hroom] at h
    cases h

/-- Where there is room for some declarations, the others decide. -/
theorem place_append {codeSize offset : Nat} {ds : List (Nat × Declaration)}
    (es : List (Nat × Declaration)) (h : ∃ placed, place codeSize offset ds = .ok placed) :
    ∃ buffers, place codeSize offset (ds ++ es) =
      (place codeSize (offset + Draft.dataSizeOf ds) es).map fun placed =>
        (buffers ++ placed.1, placed.2) := by
  obtain ⟨placed, hplaced⟩ := h
  induction ds generalizing offset placed with
  | nil =>
    refine ⟨[], ?_⟩
    cases h : place codeSize offset es <;> simp [Except.map, h]
  | cons entry ds ih =>
    obtain ⟨line, d⟩ := entry
    obtain ⟨hroom, rest, hrest, -⟩ := exists_of_place_cons hplaced
    obtain ⟨buffers, hbuffers⟩ := ih rest hrest
    refine ⟨(d.name, codeSize + offset) :: buffers, ?_⟩
    rw [List.cons_append, place_cons_of_room hroom, hbuffers, Draft.dataSizeOf_cons,
      Nat.add_assoc]
    cases place codeSize (offset + (d.size.toNat + Draft.dataSizeOf ds)) es <;> rfl

/-- All is placed if, and only if, there is room for each declaration behind those before it. -/
theorem exists_place_iff {codeSize offset : Nat} {ds : List (Nat × Declaration)} :
    (∃ placed, place codeSize offset ds = .ok placed) ↔
      ∀ before entry after, ds = before ++ entry :: after →
        Room codeSize (offset + Draft.dataSizeOf before) entry.2 := by
  constructor
  · rintro ⟨placed, h⟩ before entry after rfl
    induction before generalizing offset placed with
    | nil => exact (exists_of_place_cons h).1
    | cons first before ih =>
      obtain ⟨-, rest, hrest, -⟩ := exists_of_place_cons h
      simpa [Nat.add_assoc] using ih rest hrest
  · intro h
    induction ds generalizing offset with
    | nil => exact ⟨_, rfl⟩
    | cons entry ds ih =>
      obtain ⟨line, d⟩ := entry
      have hroom : Room codeSize offset d := h [] (line, d) ds rfl
      have hplaced : ∃ rest, place codeSize (offset + d.size.toNat) ds = .ok rest := by
        refine ih ?_
        intro before entry after hds
        simpa [Nat.add_assoc] using h ((line, d) :: before) entry after (by simp [hds])
      obtain ⟨rest, hrest⟩ := hplaced
      exact ⟨_, by rw [place_cons_of_room hroom, hrest]; rfl⟩

/-- A buffer stands where those before it end. -/
theorem lookup_of_place {codeSize offset : Nat} {before after : List (Nat × Declaration)}
    {entry : Nat × Declaration} {placed : List (Text × Nat) × Nat}
    (h : place codeSize offset (before ++ entry :: after) = .ok placed)
    (hnodup : ((before ++ entry :: after).map fun entry => entry.2.name).Nodup) :
    placed.1.lookup entry.2.name = some (codeSize + (offset + Draft.dataSizeOf before)) := by
  induction before generalizing offset placed with
  | nil =>
    obtain ⟨-, rest, -, rfl⟩ := exists_of_place_cons h
    exact List.lookup_cons_self
  | cons first before ih =>
    obtain ⟨-, rest, hrest, rfl⟩ := exists_of_place_cons h
    rw [List.cons_append, List.map_cons, List.nodup_cons] at hnodup
    have hne : entry.2.name ≠ first.2.name := by
      intro hname
      exact hnodup.1 (hname ▸ List.mem_map_of_mem (by simp))
    rw [List.lookup_cons, beq_false_of_ne hne]
    simpa [Nat.add_assoc] using ih hrest hnodup.2

end Layout

end RegisterMachine
