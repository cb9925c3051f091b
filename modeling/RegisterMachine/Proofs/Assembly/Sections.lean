import RegisterMachine.Proofs.Assembly.Drafts
import RegisterMachine.Proofs.Image.RoundTrip

/-!
# RegisterMachine.Proofs.Assembly.Sections

The order of the sections does not matter. A program may switch between its two
sections as often as it likes; what comes of it is the same as if all lines of
the main section stood first and all declarations behind them
(`assemble_rearranged`).

The first reading is a fold over what the lines state. Nothing in its result
depends on how statements of different sections are interleaved, since a label is
bound to the size of the instructions before it and a declaration is placed behind
those before it. So two programs whose sections have the same texts have the same
layout, and the same bytes are written for them.
-/

namespace RegisterMachine

/-! ### The texts of a section -/

namespace Section

/-- The texts that stand in the section `s`, of some texts of which the first stands in
`current`. The markers are left out. -/
def part (s : Section) (current : Option Section) : List Text → List Text
  | [] => []
  | t :: ts =>
    match ofMarker? t with
    | some opened => part s (some opened) ts
    | none => if current = some s then t :: part s current ts else part s current ts

variable {s : Section} {current : Option Section} {t : Text} {ts us : List Text}

theorem part_cons_of_marker {opened : Section} (h : ofMarker? t = some opened) :
    part s current (t :: ts) = part s (some opened) ts := by
  rw [part, h]

theorem part_cons_of_not_marker (h : ofMarker? t = none) :
    part s current (t :: ts) =
      if current = some s then t :: part s current ts else part s current ts := by
  rw [part, h]

theorem mem_of_mem_part (h : t ∈ part s current ts) : t ∈ ts ∧ ofMarker? t = none := by
  induction ts generalizing current with
  | nil => cases h
  | cons u ts ih =>
    have hrest {c : Option Section} (h : t ∈ part s c ts) : t ∈ u :: ts ∧ ofMarker? t = none :=
      ⟨List.mem_cons_of_mem u (ih h).1, (ih h).2⟩
    cases hu : ofMarker? u with
    | some opened =>
      rw [part_cons_of_marker hu] at h
      exact hrest h
    | none =>
      rw [part_cons_of_not_marker hu] at h
      split at h
      · obtain rfl | h := List.mem_cons.1 h
        · exact ⟨List.mem_cons_self, hu⟩
        · exact hrest h
      · exact hrest h

/-- Texts without a marker stand all in the same section. -/
theorem part_append (h : ∀ t ∈ ts, ofMarker? t = none) :
    part s current (ts ++ us) = (if current = some s then ts else []) ++ part s current us := by
  induction ts with
  | nil => simp
  | cons t ts ih =>
    rw [List.cons_append, part_cons_of_not_marker (h t List.mem_cons_self),
      ih fun u hu => h u (List.mem_cons_of_mem t hu)]
    split <;> rfl

theorem part_of_not_marker (h : ∀ t ∈ ts, ofMarker? t = none) :
    part s current ts = if current = some s then ts else [] := by
  have happend : part s current (ts ++ []) = _ := part_append h
  simpa [part] using happend

/-- Each section of a program that consists of two of them is what stands behind its marker. -/
theorem part_of_two {texts : Section → List Text}
    (h : ∀ s, ∀ t ∈ texts s, ofMarker? t = none) (s : Section) :
    part s none (main.marker :: (texts .main ++ data.marker :: texts .data)) = texts s := by
  rw [part_cons_of_marker (ofMarker?_marker main), part_append (h main),
    part_cons_of_marker (ofMarker?_marker data), part_of_not_marker (h data)]
  cases s <;> simp

end Section

/-! ### What is stated in a section -/

namespace Line

/-- What some lines state that belongs to the section `s`. -/
def statedIn (s : Section) (current : Option Section) (ls : List Line) : List Statement :=
  ((statements current ls).map Prod.snd).filter fun t => t.home? = some s

/-- What the texts of a section state in it. -/
def statedBy (s : Section) (ts : List Text) : List Statement :=
  ts.filterMap fun t => (Statement.ofText (some s) t).toOption

/-- What belongs to a section is what its texts state. -/
theorem statedIn_eq (s : Section) (current : Option Section) (ls : List Line) :
    statedIn s current ls = statedBy s (s.part current (ls.map text)) := by
  induction ls generalizing current with
  | nil => rfl
  | cons l ls ih =>
    unfold statedIn at ih ⊢
    rw [List.map_cons, statements]
    cases hm : Section.ofMarker? l.text with
    | some opened =>
      have hnext : Section.next current l = some opened := by rw [Section.next, hm, Option.some_or]
      rw [Section.part_cons_of_marker hm, Statement.ofText_of_marker hm, hnext]
      simpa [Statement.home?] using ih (some opened)
    | none =>
      have hnext : Section.next current l = current := by rw [Section.next, hm, Option.none_or]
      rw [Section.part_cons_of_not_marker hm, hnext]
      by_cases hs : current = some s
      · rw [if_pos hs]
        subst hs
        cases ht : Statement.ofText (some s) l.text with
        | error cause => simp [statedBy, ht, Except.toOption, ih]
        | ok st =>
          have hhome : st.home? = some s := (Statement.home?_of_ofText hm ht).1
          simp [statedBy, ht, Except.toOption, ih, hhome]
      · rw [if_neg hs]
        cases ht : Statement.ofText current l.text with
        | error cause => exact ih current
        | ok st =>
          have hhome : st.home? = current := (Statement.home?_of_ofText hm ht).1
          simpa [hhome, hs] using ih current

/-- Lines behind a marker are readable if the texts of both sections are. -/
theorem readable_iff (current : Section) (ls : List Line) :
    Readable (some current) ls ↔
      ∀ s : Section, ∀ t ∈ s.part (some current) (ls.map text),
        ∃ st, Statement.ofText (some s) t = .ok st := by
  induction ls generalizing current with
  | nil => simp [Readable, Section.part]
  | cons l ls ih =>
    rw [Readable, List.map_cons]
    cases hm : Section.ofMarker? l.text with
    | some opened =>
      have hnext : Section.next (some current) l = some opened := by
        rw [Section.next, hm, Option.some_or]
      simp only [Section.part_cons_of_marker hm, hnext, Statement.ofText_of_marker hm, ih]
      simp
    | none =>
      have hnext : Section.next (some current) l = some current := by
        rw [Section.next, hm, Option.none_or]
      simp only [Section.part_cons_of_not_marker hm, hnext, ih]
      constructor
      · rintro ⟨hl, hls⟩ s t ht
        split at ht
        · rename_i hs
          obtain rfl : current = s := Option.some.inj hs
          obtain rfl | ht := List.mem_cons.1 ht
          · exact hl
          · exact hls current t ht
        · exact hls s t ht
      · intro h
        refine ⟨h current l.text (by simp), ?_⟩
        intro s t ht
        refine h s t ?_
        split
        · exact List.mem_cons_of_mem _ ht
        · exact ht

end Line

/-! ### What the order of the sections leaves alone -/

namespace Statement

/-- The instruction, if it is one. -/
def instruction? : Statement → Option (Instruction Text)
  | .instruction i => some i
  | _ => none

/-- The declaration, if it is one. -/
def declaration? : Statement → Option Declaration
  | .declaration d => some d
  | _ => none

end Statement

namespace Line

theorem map_instructions (current : Option Section) (ls : List Line) :
    (instructions current ls).map Prod.snd =
      (statedIn .main current ls).filterMap Statement.instruction? := by
  rw [instructions_eq_flatMap, statedIn]
  induction statements current ls with
  | nil => rfl
  | cons entry ss ih =>
    obtain ⟨line, s⟩ := entry
    rw [List.flatMap_cons, List.map_append, ih, List.map_cons]
    cases s <;> rfl

theorem map_declarations (ls : List Line) :
    (declarations ls).map Prod.snd =
      (statedIn .data none ls).filterMap Statement.declaration? := by
  rw [declarations, statedIn]
  induction statements none ls with
  | nil => rfl
  | cons entry ss ih =>
    obtain ⟨line, s⟩ := entry
    rw [List.flatMap_cons, List.map_append, ih, List.map_cons]
    cases s <;> rfl

end Line

/-- The two programs state the same in each of their sections. -/
structure Line.Alike (ls ms : List Line) : Prop where
  readable : Readable none ls ↔ Readable none ms
  stated : ∀ s, statedIn s none ls = statedIn s none ms

namespace Line.Alike

variable {ls ms : List Line}

theorem symm (h : Alike ls ms) : Alike ms ls := ⟨h.readable.symm, fun s => (h.stated s).symm⟩

theorem instructions (h : Alike ls ms) :
    (Line.instructions none ls).map Prod.snd = (Line.instructions none ms).map Prod.snd := by
  rw [map_instructions, map_instructions, h.stated]

theorem declarations (h : Alike ls ms) :
    (Line.declarations ls).map Prod.snd = (Line.declarations ms).map Prod.snd := by
  rw [map_declarations, map_declarations, h.stated]

/-- The first reading comes through both programs, with the same result but for the numbers of
the lines. -/
theorem exists_draft (h : Alike ls ms) {draft : Draft} (hd : Draft.ofLines ls = .ok draft) :
    ∃ other, Draft.ofLines ms = .ok other ∧ other.codeSize = draft.codeSize ∧
      other.labels = draft.labels ∧
      other.declarations.map Prod.snd = draft.declarations.map Prod.snd := by
  obtain ⟨hreadable, hfold, hsound⟩ := Draft.ofLines_eq_ok_iff.1 hd
  -- the other draft is the same fold over the statements of the other program
  have hcodeSize : (Draft.empty.extendAll (statements none ms)).codeSize = draft.codeSize := by
    rw [hfold, Draft.codeSize_extendAll, Draft.codeSize_extendAll, ← instructions_eq_flatMap,
      ← instructions_eq_flatMap, Draft.codeSizeOf_congr h.instructions]
  have hlabels : (Draft.empty.extendAll (statements none ms)).labels = draft.labels := by
    rw [hfold, Draft.labels_extendAll, Draft.labels_extendAll]
    exact congrArg (fun ss => Draft.empty.labels ++ Statement.labelsFrom 0 ss)
      (h.stated .main).symm
  have hdeclarations : (Draft.empty.extendAll (statements none ms)).declarations.map Prod.snd =
      draft.declarations.map Prod.snd := by
    rw [hfold, Draft.declarations_extendAll, Draft.declarations_extendAll]
    exact h.declarations.symm
  refine ⟨_, Draft.ofLines_eq_ok_iff.2 ⟨h.readable.1 hreadable, rfl, ?_⟩,
    hcodeSize, hlabels, hdeclarations⟩
  have hnames (d : Draft) : (d.declarations.map fun entry => entry.2.name) =
      (d.declarations.map Prod.snd).map Declaration.name := by
    rw [List.map_map]
    rfl
  constructor
  · rw [hlabels]
    exact hsound.labels
  · rw [hnames, hdeclarations, ← hnames]
    exact hsound.declarations
  · rw [hcodeSize]
    exact hsound.codeSize

/-- Where there is room for declarations does not depend on the lines that they stand on. -/
theorem place_congr {codeSize offset : Nat} {ds es : List (Nat × Declaration)}
    {placed : List (Text × Nat) × Nat} (hsame : ds.map Prod.snd = es.map Prod.snd)
    (h : Layout.place codeSize offset ds = .ok placed) :
    Layout.place codeSize offset es = .ok placed := by
  induction ds generalizing es offset placed with
  | nil =>
    obtain rfl : es = [] := List.map_eq_nil_iff.1 hsame.symm
    exact h
  | cons first ds ih =>
    obtain ⟨second, es, rfl⟩ : ∃ second es', es = second :: es' := by
      cases es with
      | nil => cases hsame
      | cons second es => exact ⟨second, es, rfl⟩
    obtain ⟨hfirst, hrest⟩ := List.cons.inj hsame
    obtain ⟨hroom, rest, hplaced, rfl⟩ := Layout.exists_of_place_cons h
    rw [hfirst] at hroom hplaced ⊢
    rw [Layout.place_cons_of_room hroom, ih hrest hplaced]
    rfl

/-- The two programs are laid out in the same way. -/
theorem exists_layout (h : Alike ls ms) {layout : Layout} (hl : Layout.ofLines ls = .ok layout) :
    ∃ other, Layout.ofLines ms = .ok other ∧ other.codeSize = layout.codeSize ∧
      other.dataSize = layout.dataSize ∧ other.labels = layout.labels ∧
      other.buffers = layout.buffers := by
  obtain ⟨draft, hdraft, hplace⟩ := exists_of_bind_eq_ok hl
  obtain ⟨placed, hplaced, rfl⟩ := exists_of_map_eq_ok hplace
  obtain ⟨other, hother, hcodeSize, hlabels, hdeclarations⟩ := h.exists_draft hdraft
  have hplaced' : Layout.place other.codeSize 0 other.declarations = .ok placed := by
    rw [hcodeSize]
    exact place_congr hdeclarations.symm hplaced
  refine ⟨⟨other.codeSize, placed.2, other.labels, placed.1, other.hasMain⟩, ?_, hcodeSize, rfl,
    hlabels, rfl⟩
  rw [Layout.ofLines, hother, Except.bind, Layout.ofDraft, hplaced']
  rfl

end Line.Alike

namespace Layout

variable {layout other : Layout} {is js : List (Nat × Instruction Text)} {bs cs : List Byte}

/-- The same bytes are written for the same instructions, if labels and buffers have the same
places. -/
theorem Writes.congr (h : layout.Writes is bs) (hlabels : other.labels = layout.labels)
    (hbuffers : other.buffers = layout.buffers) (hsame : is.map Prod.snd = js.map Prod.snd) :
    other.Writes js bs := by
  have hvalue : other.value = layout.value := by
    funext t
    rw [value, value, resolve, resolve, hlabels, hbuffers]
  induction h generalizing js with
  | nil =>
    obtain rfl : js = [] := List.map_eq_nil_iff.1 hsame.symm
    exact .nil
  | cons hi _ ih =>
    cases js with
    | nil => cases hsame
    | cons second js =>
      obtain ⟨rfl, hrest⟩ := List.cons.inj hsame
      exact .cons (hvalue ▸ hi) (ih hrest)

/-- Only one list of bytes is written. -/
theorem Writes.unique (h : layout.Writes is bs) (h' : layout.Writes is cs) : bs = cs := by
  induction h generalizing cs with
  | nil =>
    cases h'
    rfl
  | cons hi _ ih =>
    cases h' with
    | cons hi' hrest =>
      cases hi.symm.trans hi'
      rw [ih hrest]

end Layout

/-- What can be written is written by the second reading. -/
theorem Emission.exists_of_writes {ls : List Line} {draft : Draft} {layout : Layout}
    {bs : List Byte} (hd : Draft.ofLines ls = .ok draft)
    (h : layout.Writes (Line.instructions none ls) bs) :
    ∃ e, Emission.ofLines layout ls = .ok e ∧ e.code.toList = bs := by
  cases he : Emission.ofLines layout ls with
  | ok e => exact ⟨e, rfl, (covers_of_ofLines he).code.unique h⟩
  | error err =>
    obtain ⟨line, i, t, hmem, ht, hunknown⟩ := (error_iff_unknown hd).1 ⟨err, he⟩
    obtain ⟨i', hi⟩ := h.resolve_of_mem hmem
    obtain ⟨t', ht'⟩ := Layout.resolve_error_iff.2 ⟨t, ht, hunknown⟩
    cases hi.symm.trans ht'

namespace Line.Alike

variable {ls ms : List Line} {image : Image}

theorem assembleLines_of_ok (h : Alike ls ms) (hok : assembleLines ls = .ok image) :
    assembleLines ms = .ok image := by
  obtain ⟨layout, e, hlayout, he, rfl⟩ := exists_of_assembleLines hok
  obtain ⟨other, hother, -, hdataSize, hlabels, hbuffers⟩ := h.exists_layout hlayout
  obtain ⟨draft, hdraft, -⟩ := Layout.exists_of_ofLines hother
  have hwrites := (Emission.covers_of_ofLines he).code.congr hlabels hbuffers h.instructions
  obtain ⟨e', he', hcode⟩ := Emission.exists_of_writes hdraft hwrites
  rw [RegisterMachine.assembleLines_of_ok hother he', hcode, hdataSize]

/-- Programs that state the same in each of their sections have the same image, or none. -/
theorem assembleLines_iff (h : Alike ls ms) (image : Image) :
    assembleLines ls = .ok image ↔ assembleLines ms = .ok image :=
  ⟨h.assembleLines_of_ok, h.symm.assembleLines_of_ok⟩

end Line.Alike

/-! ### Programs as texts -/

namespace Line

/-- The first line opens a section. -/
def Opened (ls : List Line) : Prop := ∃ l ∈ ls.head?, (Section.ofMarker? l.text).isSome

theorem Opened.readable_iff {ls : List Line} (h : Opened ls) :
    Readable none ls ↔ ∀ s : Section, ∀ t ∈ s.part none (ls.map text),
      ∃ st, Statement.ofText (some s) t = .ok st := by
  obtain ⟨l, hl, hm⟩ := h
  obtain ⟨rest, rfl⟩ := List.head?_eq_some_iff.1 hl
  obtain ⟨opened, hm⟩ := Option.isSome_iff_exists.1 hm
  have hnext : Section.next none l = some opened := by rw [Section.next, hm, Option.some_or]
  rw [Readable, hnext, Line.readable_iff]
  simp [Statement.ofText_of_marker hm, Section.part_cons_of_marker hm]

/-- Programs whose sections have the same texts state the same in them. -/
theorem Opened.alike {ls ms : List Line} (hl : Opened ls) (hm : Opened ms)
    (h : ∀ s : Section, s.part none (ls.map text) = s.part none (ms.map text)) : Alike ls ms where
  readable := by
    rw [hl.readable_iff, hm.readable_iff]
    simp only [h]
  stated s := by
    rw [statedIn_eq, statedIn_eq, h]

/-- The lines of texts that are lines as they stand are these texts. -/
theorem map_text_numberFrom {ts : List Text} (h : ∀ t ∈ ts, content t = t ∧ t ≠ []) (n : Nat) :
    (numberFrom n ts).map text = ts := by
  induction ts generalizing n with
  | nil => rfl
  | cons t ts ih =>
    obtain ⟨hcontent, hne⟩ := h t List.mem_cons_self
    rw [numberFrom, hcontent, if_neg hne, List.map_cons,
      ih fun u hu => h u (List.mem_cons_of_mem t hu)]

/-- What a meaningful line says is a line by itself. -/
theorem mem_texts {source t : Text} (h : t ∈ (ofText source).map text) :
    content t = t ∧ t ≠ [] ∧ '\n' ∉ t := by
  obtain ⟨l, hl, rfl⟩ := List.mem_map.1 h
  obtain ⟨s, hs, hcontent⟩ := exists_content hl
  refine ⟨by rw [← hcontent, content_content], text_ne_nil hl, ?_⟩
  intro hnewline
  rw [← hcontent] at hnewline
  exact Text.not_mem_of_mem_pieces hs (mem_content hnewline).1

end Line

/-- What the lines of a program say that stand in the section `s`, in order. -/
def Section.textsOf (s : Section) (source : String) : List Text :=
  s.part none ((Line.ofText source.toList).map Line.text)

/-- The program with all lines of its main section first, and all declarations behind them. -/
def rearranged (source : String) : String :=
  String.ofList (['\n'].intercalate (Section.main.marker ::
    (Section.main.textsOf source ++ Section.data.marker :: Section.data.textsOf source)))

theorem texts_rearranged (source : String) :
    (Line.ofText (rearranged source).toList).map Line.text =
      Section.main.marker ::
        (Section.main.textsOf source ++ Section.data.marker :: Section.data.textsOf source) := by
  have hmarker (s : Section) :
      Line.content s.marker = s.marker ∧ s.marker ≠ [] ∧ '\n' ∉ s.marker := by
    cases s <;> decide
  have hlines : ∀ t ∈ Section.main.marker ::
      (Section.main.textsOf source ++ Section.data.marker :: Section.data.textsOf source),
      Line.content t = t ∧ t ≠ [] ∧ '\n' ∉ t := by
    intro t ht
    simp only [List.mem_cons, List.mem_append] at ht
    obtain rfl | ht | rfl | ht := ht
    · exact hmarker .main
    · exact Line.mem_texts (Section.mem_of_mem_part ht).1
    · exact hmarker .data
    · exact Line.mem_texts (Section.mem_of_mem_part ht).1
  rw [rearranged, String.toList_ofList, Line.ofText,
    Text.pieces_intercalate fun t ht => (hlines t ht).2.2]
  exact Line.map_text_numberFrom (fun t ht => ⟨(hlines t ht).1, (hlines t ht).2.1⟩) 1

/-- A program that begins with a section and the one with its sections put together state the
same. -/
theorem alike_rearranged {source : String} (h : Line.Opened (Line.ofText source.toList)) :
    Line.Alike (Line.ofText source.toList) (Line.ofText (rearranged source).toList) := by
  have htexts := texts_rearranged source
  have hopened : Line.Opened (Line.ofText (rearranged source).toList) := by
    cases hlines : Line.ofText (rearranged source).toList with
    | nil =>
      rw [hlines] at htexts
      cases htexts
    | cons l ls =>
      rw [hlines] at htexts
      obtain ⟨hl, -⟩ := List.cons.inj htexts
      exact ⟨l, rfl, by rw [hl, Section.ofMarker?_marker]; rfl⟩
  refine h.alike hopened ?_
  intro s
  have hclean (s : Section) : ∀ t ∈ s.textsOf source, Section.ofMarker? t = none :=
    fun t ht => (Section.mem_of_mem_part ht).2
  have hparts : s.part none _ = s.textsOf source := Section.part_of_two hclean s
  rw [htexts, hparts, Section.textsOf]

/-- The order of the sections does not matter: the program with its sections put together has the
same image, if there is one, and the same labels and buffers at the same addresses. -/
theorem assemble_rearranged (source : String) (h : Line.Opened (Line.ofText source.toList)) :
    (∀ image, assemble source = .ok image ↔ assemble (rearranged source) = .ok image) ∧
      ∀ layout, Layout.ofLines (Line.ofText source.toList) = .ok layout →
        ∃ other, Layout.ofLines (Line.ofText (rearranged source).toList) = .ok other ∧
          other.codeSize = layout.codeSize ∧ other.dataSize = layout.dataSize ∧
          other.labels = layout.labels ∧ other.buffers = layout.buffers :=
  ⟨fun image => (alike_rearranged h).assembleLines_iff image,
    fun _ hlayout => (alike_rearranged h).exists_layout hlayout⟩

/-- A program that goes to and fro between its sections. -/
def scattered : String :=
  "_data:\nDB a[1] ; the first\n_main:\nagain:\n  mov r1, b\n_data:\n_main:\n_data:\nDB b[2]\n" ++
    "_main:\njmp again"

/-- The second buffer is behind the code in both programs, and so the same word is moved. -/
theorem assemble_rearranged_scattered :
    rearranged scattered = "_main:\nagain:\nmov r1, b\njmp again\n_data:\nDB a[1]\nDB b[2]" ∧
      Line.Opened (Line.ofText scattered.toList) ∧
      assemble (rearranged scattered) =
        .ok ⟨0, [0x01, 0x12, 0x00, 14, 0, 0, 0, 0x06, 0x02, 0, 0, 0, 0], [0, 0, 0]⟩ := by
  have hopened : Line.Opened (Line.ofText scattered.toList) :=
    ⟨⟨1, Section.data.marker⟩, rfl, rfl⟩
  exact ⟨rfl, hopened, ((assemble_rearranged scattered hopened).1 _).1 rfl⟩

end RegisterMachine
