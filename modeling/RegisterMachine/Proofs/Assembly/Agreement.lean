import RegisterMachine.Proofs.Assembly.Readings

/-!
# RegisterMachine.Proofs.Assembly.Agreement

Support lemmas and the main theorem for the **agreement of the two readings**.

A line on which the first reading comes through either comes through in the
second reading as well, or it is an instruction with a value that nothing is
known of (`Emission.addLine_cases`). That is one line; `Emission.addLines_cases`
carries it over all of them, with both invariants as its hypotheses. The rest is
read off `Draft.Covers` and `Emission.Covers`, since they measure both readings
against the same list of instructions.
-/

namespace RegisterMachine

namespace Layout

/-- The buffers have the names that they are declared with. -/
theorem names_of_place {codeSize offset : Nat} {ds : List (Nat × Declaration)}
    {placed : List (Text × Nat) × Nat} (h : place codeSize offset ds = .ok placed) :
    placed.1.map Prod.fst = ds.map fun entry => entry.2.name := by
  induction ds generalizing offset placed with
  | nil =>
    cases h
    rfl
  | cons entry ds ih =>
    obtain ⟨line, d⟩ := entry
    rw [place] at h
    split at h
    · obtain ⟨p, hp, rfl⟩ := exists_of_map_eq_ok h
      rw [List.map_cons, List.map_cons, ih hp]
    · cases h

/-- A layout is a draft of the same lines with the buffers placed behind it. -/
theorem exists_of_ofLines {lines : List Line} {layout : Layout}
    (h : ofLines lines = .ok layout) :
    ∃ draft, Draft.ofLines lines = .ok draft ∧ layout.codeSize = draft.codeSize ∧
      layout.labels = draft.labels ∧
      layout.buffers.map Prod.fst = draft.declarations.map fun entry => entry.2.name := by
  obtain ⟨draft, hdraft, hplace⟩ := exists_of_bind_eq_ok h
  obtain ⟨placed, hplaced, rfl⟩ := exists_of_map_eq_ok hplace
  exact ⟨draft, hdraft, rfl, rfl, names_of_place hplaced⟩

theorem codeSize_of_ofLines {lines : List Line} {layout : Layout}
    (h : ofLines lines = .ok layout) :
    layout.codeSize = Draft.codeSizeOf (Line.instructions none lines) := by
  obtain ⟨draft, hdraft, hsize, -, -⟩ := exists_of_ofLines h
  rw [hsize, (Draft.covers_of_ofLines hdraft).codeSize]

theorem lookup_label {before after : List Line} {l : Line} {name : Text} {layout : Layout}
    (h : ofLines (before ++ l :: after) = .ok layout) (hl : States before l (.label name)) :
    layout.labels.lookup name = some (Draft.codeSizeOf (Line.instructions none before)) := by
  obtain ⟨draft, hdraft, -, hlabels, -⟩ := exists_of_ofLines h
  rw [hlabels]
  exact Draft.lookup_label hdraft hl

end Layout

namespace Emission

variable {layout : Layout}

/-- The error is that of a value in one of these instructions that nothing is known of. -/
def Blames (layout : Layout) (is : List (Nat × Instruction Text)) (e : AssemblyError) : Prop :=
  ∃ line i t, (line, i) ∈ is ∧ t ∈ i.values ∧ layout.Unknown t ∧
    e = ⟨line, .unknownSymbol t⟩

theorem Blames.mono {is js : List (Nat × Instruction Text)} {e : AssemblyError}
    (h : Blames layout is e) (hsub : ∀ entry ∈ is, entry ∈ js) : Blames layout js e := by
  obtain ⟨line, i, t, hmem, ht⟩ := h
  exact ⟨line, i, t, hsub _ hmem, ht⟩

/-- A line with a statement is written, unless the statement is to blame. -/
theorem addLine_cases (layout : Layout) {e : Emission} {l : Line} {s : Statement}
    (hs : Statement.ofText e.current l.text = .ok s) :
    (∃ next, e.addLine layout l = .ok next) ∨
      ∃ err, e.addLine layout l = .error err ∧ Blames layout (s.instructions l.number) err := by
  unfold addLine
  rw [hs, Except.bind]
  cases s with
  | marker opened => exact Or.inl ⟨_, rfl⟩
  | label name => exact Or.inl ⟨_, rfl⟩
  | declaration d => exact Or.inl ⟨_, rfl⟩
  | instruction i =>
    rw [add]
    rcases i.resolve_cases layout.value with ⟨i', hi, -⟩ | ⟨t, ht, cause, hcause, hi⟩
    · rw [hi]
      exact Or.inl ⟨_, rfl⟩
    · rw [hi]
      obtain ⟨rfl, hunknown⟩ := Layout.value_eq_error_iff.1 hcause
      exact Or.inr ⟨_, rfl, l.number, i, _, List.mem_singleton_self _, ht, hunknown, rfl⟩

/-- Lines that the first reading reads are written, unless one of them is to blame. The two
readings need not agree on anything but the lines that they have behind them. -/
theorem addLines_cases (layout : Layout) {draft next : Draft} {e : Emission} {before ls : List Line}
    (hd : draft.Covers before) (he : e.Covers layout before)
    (h : draft.addLines ls = .ok next) :
    (∃ e', e.addLines layout ls = .ok e') ∨
      ∃ err, e.addLines layout ls = .error err ∧
        Blames layout (Line.instructions none (before ++ ls)) err := by
  -- on the lines that are left; the first reading comes through all of them, the second may not
  induction ls generalizing draft e before with
  | nil => exact Or.inl ⟨e, rfl⟩
  | cons l ls ih =>
    obtain ⟨d, hl, hls⟩ := exists_of_bind_eq_ok h
    obtain ⟨s, hs, -⟩ := Draft.exists_of_addLine hl
    rw [hd.current] at hs
    have hsplit : before ++ l :: ls = before ++ [l] ++ ls := by simp
    rcases addLine_cases layout (he.current ▸ hs) with ⟨e', he'⟩ | ⟨err, herr, hb⟩
    · have hrest : e.addLines layout (l :: ls) = e'.addLines layout ls := by
        rw [addLines, he']
        rfl
      rw [hrest, hsplit]
      exact ih (hd.addLine hl) (he.addLine he') hls
    · refine Or.inr ⟨err, by rw [addLines, herr]; rfl, hb.mono ?_⟩
      intro entry hentry
      rw [hsplit, Line.instructions_append, States.instructions_concat hs]
      exact List.mem_append_left _ (List.mem_append_right _ hentry)

/-- What the first reading reads is written exactly if every value in it is known. -/
theorem error_iff_unknown {lines : List Line} {draft : Draft}
    (h : Draft.ofLines lines = .ok draft) :
    (∃ err, ofLines layout lines = .error err) ↔
      ∃ line i t, (line, i) ∈ Line.instructions none lines ∧ t ∈ i.values ∧
        layout.Unknown t := by
  rcases addLines_cases layout Draft.covers_empty covers_empty h with ⟨e, he⟩ | ⟨err, herr, hblame⟩
  · refine iff_of_false ?_ ?_
    · intro ⟨err, herr⟩
      cases he.symm.trans herr
    · intro ⟨line, i, t, hmem, ht, hunknown⟩
      obtain ⟨i', hi⟩ := (covers_of_ofLines he).code.resolve_of_mem hmem
      obtain ⟨t', ht'⟩ := Layout.resolve_error_iff.2 ⟨t, ht, hunknown⟩
      cases hi.symm.trans ht'
  · obtain ⟨line, i, t, hmem, ht, hunknown, -⟩ := hblame
    exact iff_of_true ⟨err, herr⟩ ⟨line, i, t, hmem, ht, hunknown⟩

end Emission

/-! ### The agreement -/

/-- The instructions of the lines `after`, which stand behind the line `l`. -/
def Line.following (before : List Line) (l : Line) (after : List Line) :
    List (Nat × Instruction Text) :=
  instructions (Section.after none (before ++ [l])) after

/-- The label `name`, which the line `l` states, is bound to the place of the first instruction
after it, or else to the end of the code. -/
structure Layout.Binds (layout : Layout) (before : List Line) (l : Line) (after : List Line)
    (name : Text) (address : Nat) : Prop where
  lookup : layout.labels.lookup name = some address
  /-- It is where the second reading is until it has come to that instruction. -/
  reached : ∀ between rest e, after = between ++ rest → Line.following before l between = [] →
    Emission.ofLines layout (before ++ l :: between) = .ok e → e.code.size = address
  /-- The bytes of the instruction are found there in the end. -/
  written : ∀ line i is e, Line.following before l after = (line, i) :: is →
    Emission.ofLines layout (before ++ l :: after) = .ok e →
      ∃ i', i.resolve layout.value = .ok i' ∧ i'.encode <+: e.code.toList.drop address
  last : Line.following before l after = [] → address = layout.codeSize

theorem Layout.binds_of_ofLines {before after : List Line} {l : Line} {name : Text}
    {layout : Layout} (h : ofLines (before ++ l :: after) = .ok layout)
    (hl : States before l (.label name)) :
    ∃ address, layout.Binds before l after name address := by
  -- the label itself writes nothing, so both sides begin with the same instructions
  have hsplit (ls : List Line) : Line.instructions none (before ++ l :: ls) =
      Line.instructions none before ++ Line.following before l ls := by
    rw [hl.instructions_split, Statement.instructions_label, List.nil_append, Line.following]
  refine ⟨_, Layout.lookup_label h hl, ?_, ?_, ?_⟩
  · intro between rest e hafter hnone he
    rw [(Emission.covers_of_ofLines he).size_code, hsplit, hnone, List.append_nil]
  · intro line i is e hfirst he
    have hcode := (Emission.covers_of_ofLines he).code
    rw [hsplit, hfirst] at hcode
    obtain ⟨pre, i', post, hi, hbytes, hlen⟩ := hcode.split
    refine ⟨i', hi, post, ?_⟩
    rw [hbytes, ← hlen, List.drop_left]
  · intro hnone
    rw [Layout.codeSize_of_ofLines h, hsplit, hnone, List.append_nil]

/-- The layout of these lines is one that the second reading of them fits. -/
structure Layout.Suits (layout : Layout) (lines : List Line) : Prop where
  /-- At every line as many bytes have been counted as have been written. -/
  counts : ∀ before rest, lines = before ++ rest →
    ∃ draft, Draft.ofLines before = .ok draft ∧
      ∀ e, Emission.ofLines layout before = .ok e →
        e.current = draft.current ∧ e.code.size = draft.codeSize
  labels : ∀ before l after name, lines = before ++ l :: after →
    States before l (.label name) → ∃ address, layout.Binds before l after name address
  /-- What has a place is what the lines state, whichever section they alternate with. -/
  names : ∀ name,
    (name ∈ layout.labels.map Prod.fst ↔ Stated lines (.label name)) ∧
      (name ∈ layout.buffers.map Prod.fst ↔ ∃ d, Stated lines (.declaration d) ∧ d.name = name)
  size : ∀ e, Emission.ofLines layout lines = .ok e → e.code.size = layout.codeSize
  errors : ∀ err, Emission.ofLines layout lines = .error err →
    Emission.Blames layout (Line.instructions none lines) err
  error_iff : (∃ err, Emission.ofLines layout lines = .error err) ↔
    ∃ line i t, (line, i) ∈ Line.instructions none lines ∧ t ∈ i.values ∧ layout.Unknown t

/-- Two readings of the same lines agree, on whatever lines the first one comes through. -/
theorem suits_of_ofLines {lines : List Line} {layout : Layout}
    (h : Layout.ofLines lines = .ok layout) : layout.Suits lines := by
  obtain ⟨draft, hdraft, -, hlabels, hbuffers⟩ := Layout.exists_of_ofLines h
  have hsize : layout.codeSize = Draft.codeSizeOf (Line.instructions none lines) :=
    Layout.codeSize_of_ofLines h
  have hcovered : draft.Covers lines := Draft.covers_of_ofLines hdraft
  refine ⟨?_, ?_, ?_, ?_, ?_, Emission.error_iff_unknown hdraft⟩
  · intro before rest hlines
    subst hlines
    obtain ⟨d, hd, -⟩ := Draft.exists_of_addLines_append hdraft
    have hcovers : d.Covers before := Draft.covers_of_ofLines hd
    refine ⟨d, hd, ?_⟩
    intro e he
    have he' := Emission.covers_of_ofLines he
    exact ⟨by rw [he'.current, hcovers.current], by rw [he'.size_code, hcovers.codeSize]⟩
  · intro before l after name hlines hl
    subst hlines
    exact Layout.binds_of_ofLines h hl
  · intro name
    rw [hlabels, hbuffers]
    exact ⟨hcovered.labels name, hcovered.declarations name⟩
  · intro e he
    rw [(Emission.covers_of_ofLines he).size_code, hsize]
  · intro err herr
    rcases Emission.addLines_cases layout Draft.covers_empty Emission.covers_empty
      hdraft with ⟨e, he⟩ | ⟨err', herr', hblame⟩
    · cases he.symm.trans herr
    · cases herr'.symm.trans herr
      exact hblame

/-- A program whose main section is interrupted behind a label. -/
def interrupted : List Line :=
  Line.ofText "_main:\nmov r1, buf\nnext:\n_data:\nDB buf[4]\n_main:\njmp next\nend:".toList

def interruptedLayout : Layout where
  codeSize := 13
  dataSize := 4
  labels := [("next".toList, 7), ("end".toList, 13)]
  buffers := [("buf".toList, 13)]
  hasMain := true

/-- The label stands for the jump behind the data. -/
theorem suits_interrupted :
    Layout.ofLines interrupted = .ok interruptedLayout ∧ interruptedLayout.Suits interrupted :=
  ⟨rfl, suits_of_ofLines rfl⟩

end RegisterMachine
