import RegisterMachine.Command.Files

/-!
# RegisterMachine.Proofs.Command.Files

What a write does to the files. A path that leads to a file, or to a place where
there could be one (`Files.Admits`), can be written to; afterwards it leads to a
file with the bytes that the device has taken, which are all of them if it refuses
none (`Files.Takes`), and every other node is as before (`Files.Changed`).

Following a path looks at directories on the way and at something else only in the
end. So it takes the same way when what it leads to has been replaced
(`Files.follow_put`).
-/

namespace RegisterMachine

/-- The place is that of the file with these names, whether there is one or not. -/
inductive Place.Names (names : List Text) : Place → Prop
  | file (bytes : List Byte) : Names names (.file names bytes)
  | vacant : Names names (.vacant names)

theorem Place.Names.of_file {names others : List Text} {bytes : List Byte}
    (h : (Place.file others bytes).Names names) : names = others := by
  cases h
  rfl

theorem Place.Names.of_vacant {names others : List Text} (h : (Place.vacant others).Names names) :
    names = others := by
  cases h
  rfl

namespace Files

variable {files : Files} {names : List Text}

theorem node?_put_of_ne (files : Files) {other : List Text} (h : other ≠ names) (n : Node) :
    (files.put names n).node? other = files.node? other := by
  have hkeep : (files.nodes.filter fun entry => entry.1 ≠ names).lookup other =
      files.nodes.lookup other := by
    induction files.nodes with
    | nil => rfl
    | cons entry entries ih =>
      obtain ⟨key, node⟩ := entry
      by_cases hkey : key = names
      · -- the entry that is left out is not the one that is looked up
        rw [List.filter_cons_of_neg (by simp [hkey]), ih, List.lookup_cons, beq_false_of_ne]
        exact hkey ▸ h
      · rw [List.filter_cons_of_pos (by simp [hkey]), List.lookup_cons, List.lookup_cons, ih]
  unfold node? put
  split
  · rfl
  · rw [List.lookup_cons, beq_false_of_ne h]
    exact hkeep

/-- The path leads to the file with these names, or could: it does not end in a slash, and what is
missing is at most the file itself. -/
def Admits (files : Files) (path : String) (names : List Text) : Prop :=
  ∃ parsed place, Path.ofString path = .ok parsed ∧ parsed.slashed = false ∧
    files.find parsed = .ok place ∧ place.Names names

/-- The device takes all of these bytes for the file with these names. -/
def Takes (files : Files) (names : List Text) (bytes : List Byte) : Prop :=
  files.refusal names bytes = none

/-- Of the files, only the one with these names has been changed, and has this content now. -/
structure Changed (files : Files) (names : List Text) (bytes : List Byte) (after : Files) :
    Prop where
  content : after.node? names = some (.file bytes)
  others : ∀ other, other ≠ names → after.node? other = files.node? other

/-! ### Following a path -/

theorem follow_dot (files : Files) (here : Option (List Text)) (path : List Text) :
    files.follow here (['.'] :: path) = files.follow here path := by
  rw [follow.eq_def]
  exact if_pos rfl

theorem follow_dots (files : Files) (here : Option (List Text)) (path : List Text) :
    files.follow here (['.', '.'] :: path) =
      files.follow (here.bind fun above => if above = [] then none else some above.dropLast)
        path := by
  rw [follow.eq_def]
  dsimp only
  rw [if_neg (by decide), if_pos rfl]
  cases here with
  | none => rfl
  | some above => cases above <;> rfl

theorem follow_cons_of_name (files : Files) {name : Text} (hdot : name ≠ ['.'])
    (hdots : name ≠ ['.', '.']) (hlength : ¬Path.nameLimit < Path.utf8Length name)
    (above path : List Text) :
    files.follow (some above) (name :: path) =
      match files.node? (above ++ [name]), path with
      | some .directory, _ => files.follow (some (above ++ [name])) path
      | some (.file bytes), [] => .ok (.file (above ++ [name]) bytes)
      | some (.file _), _ :: _ => .error .notDirectory
      | none, [] => .ok (.vacant (above ++ [name]))
      | none, _ :: _ => .error .notFound := by
  rw [follow.eq_def]
  dsimp only
  cases files.node? (above ++ [name]) with
  | none => cases path <;> rw [if_neg hdot, if_neg hdots, if_neg hlength]
  | some node => cases node <;> cases path <;> rw [if_neg hdot, if_neg hdots, if_neg hlength]

/-- Where there is a file, or could be one, there is no directory. -/
theorem node?_of_follow {here : Option (List Text)} {path : List Text} {place : Place}
    (h : files.follow here path = .ok place) (hplace : place.Names names) :
    names ≠ [] ∧ files.node? names ≠ some .directory := by
  have hnonempty {above : List Text} {name : Text} : above ++ [name] ≠ [] :=
    List.append_ne_nil_of_right_ne_nil _ (List.cons_ne_nil _ _)
  fun_induction follow files here path with
  | case1 =>
    cases h
    cases hplace
  | case2 here path ih => exact ih h
  | case3 path n ns hne ih => exact ih h
  | case4 here path hne hne' ih => exact ih h
  | case7 name path hdot hdots hlength above there hthere ih => exact ih h
  | case8 name hdot hdots hlength above there bytes hthere =>
    cases h
    obtain rfl := hplace.of_file
    refine ⟨hnonempty, ?_⟩
    rw [hthere]
    exact nofun
  | case10 name hdot hdots hlength above there hthere =>
    cases h
    obtain rfl := hplace.of_vacant
    refine ⟨hnonempty, ?_⟩
    rw [hthere]
    exact nofun
  | _ => cases h

/-- A path that leads to a file, or to a place for one, leads to what is put there. -/
theorem follow_put {here : Option (List Text)} {path : List Text} {place : Place}
    (h : files.follow here path = .ok place) (hplace : place.Names names) (bytes : List Byte) :
    (files.put names (.file bytes)).follow here path = .ok (.file names bytes) := by
  obtain ⟨hnonempty, hno⟩ := node?_of_follow h hplace
  have hput := files.node?_put_self hnonempty (.file bytes)
  fun_induction follow files here path with
  | case1 =>
    cases h
    cases hplace
  | case2 here path ih =>
    rw [follow_dot]
    exact ih h
  | case3 path n ns hne ih =>
    rw [follow_dots]
    exact ih h
  | case4 here path hne hne' ih =>
    rw [follow_dots]
    cases here with
    | none => exact ih h
    | some above =>
      cases above with
      | nil => exact ih h
      | cons n ns => exact absurd rfl (hne n ns)
  | case7 name path hdot hdots hlength above there hthere ih =>
    have hne : there ≠ names := by
      rintro rfl
      exact hno hthere
    have hsame : (files.put names (.file bytes)).node? (above ++ [name]) = some .directory :=
      (files.node?_put_of_ne hne _).trans hthere
    rw [follow_cons_of_name _ hdot hdots hlength, hsame]
    exact ih h
  | case8 name hdot hdots hlength above there old hthere =>
    cases h
    obtain rfl := hplace.of_file
    rw [follow_cons_of_name _ hdot hdots hlength, hput]
  | case10 name hdot hdots hlength above there hthere =>
    cases h
    obtain rfl := hplace.of_vacant
    rw [follow_cons_of_name _ hdot hdots hlength, hput]
  | _ => cases h

/-! ### Writing to a file -/

theorem fill_of_takes {bytes : List Byte} (h : files.Takes names bytes) :
    files.fill names bytes = (none, files.put names (.file bytes)) := by
  unfold fill
  rw [h]

theorem fill_of_refusal {bytes : List Byte} {taken : Nat} {e : HostError}
    (h : files.refusal names bytes = some (taken, e)) :
    files.fill names bytes = (some e, files.put names (.file (bytes.take taken))) := by
  unfold fill
  rw [h]

/-- A path that leads to a place for a file is opened, and the device is given the content. -/
theorem write_of_admits {path : String} (h : files.Admits path names) (bytes : List Byte) :
    files.write path bytes = .ok (files.fill names bytes) := by
  obtain ⟨parsed, place, hparsed, hslashed, hfind, hplace⟩ := h
  unfold write
  rw [hparsed]
  show (files.find (if parsed.slashed = true then parsed.above else parsed) >>= _) = _
  rw [hslashed, if_neg Bool.false_ne_true, hfind]
  cases hplace <;> rfl

theorem openNode_put {path : String} (h : files.Admits path names) (bytes : List Byte) :
    (files.put names (.file bytes)).openNode path = .ok (.file bytes) := by
  obtain ⟨parsed, place, hparsed, hslashed, hfind, hplace⟩ := h
  have hput : (files.put names (.file bytes)).find parsed = .ok (.file names bytes) :=
    follow_put hfind hplace bytes
  unfold openNode
  rw [hparsed]
  show ((files.put names (.file bytes)).find parsed >>= _) = _
  rw [hput]
  show (if parsed.slashed = true then _ else _) = _
  rw [hslashed]
  rfl

theorem changed_put {path : String} (h : files.Admits path names) (bytes : List Byte) :
    files.Changed names bytes (files.put names (.file bytes)) := by
  obtain ⟨parsed, place, -, -, hfind, hplace⟩ := h
  refine ⟨files.node?_put_self (node?_of_follow hfind hplace).1 _, ?_⟩
  intro other hother
  exact files.node?_put_of_ne hother _

end Files

end RegisterMachine
