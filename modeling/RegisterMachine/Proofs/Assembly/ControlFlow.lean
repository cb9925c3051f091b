import RegisterMachine.Machine.Session
import RegisterMachine.Proofs.Assembly.Simulation
import RegisterMachine.Proofs.Machine.Forms

/-!
# RegisterMachine.Proofs.Assembly.ControlFlow

Where the machine can be while it runs an assembled program. If the program
branches to its labels only and assigns nothing to `IP`, then `IP` is always at
one of its instructions or at the end of the code, as long as the code is
intact.

The invariant is `Image.Keeps`. That a step preserves it rests on two facts about
the layout: what follows an instruction is a boundary again, and so is every
address that a label is bound to (`Line.boundary_of_prefix`). `Image.keeps_run`
carries it over a run, and `Session.control_flow` reads off which faults are left.
-/

namespace RegisterMachine

/-! ### Boundaries -/

namespace Line

/-- An instruction of these lines has this address. -/
def Starts (lines : List Line) (address : Nat) (i : Instruction Text) : Prop :=
  ∃ before l after, lines = before ++ l :: after ∧ States before l (.instruction i) ∧
    address = Draft.codeSizeOf (instructions none before)

/-- The address is that of an instruction or of the end of the code. -/
def Boundary (lines : List Line) (address : Nat) : Prop :=
  (∃ i, Starts lines address i) ∨ address = Draft.codeSizeOf (instructions none lines)

/-- Wherever the lines are taken apart, there is a boundary. -/
theorem boundary_of_prefix {before after : List Line} {draft : Draft}
    (h : Draft.ofLines (before ++ after) = .ok draft) :
    Boundary (before ++ after) (Draft.codeSizeOf (instructions none before)) := by
  -- on the lines behind the place, of which the first instruction is looked for
  induction after generalizing before with
  | nil =>
    right
    rw [List.append_nil]
  | cons l after ih =>
    obtain ⟨d, hbefore, hrest⟩ := Draft.exists_of_addLines_append h
    obtain ⟨next, hline, -⟩ := exists_of_bind_eq_ok hrest
    obtain ⟨s, hs, -⟩ := Draft.exists_of_addLine hline
    rw [(Draft.covers_of_ofLines hbefore).current] at hs
    have hstates : States before l s := hs
    by_cases hi : ∃ i, s = .instruction i
    · obtain ⟨i, rfl⟩ := hi
      exact Or.inl ⟨i, before, l, after, rfl, hstates, rfl⟩
    · have hnone : s.instructions l.number = [] := by
        cases s with
        | instruction i => exact absurd ⟨i, rfl⟩ hi
        | _ => rfl
      have hsame : instructions none (before ++ [l]) = instructions none before := by
        rw [hstates.instructions_concat, hnone, List.append_nil]
      rw [← hsame, List.append_cons]
      exact ih (by rwa [← List.append_cons])

theorem Starts.boundary_next {lines : List Line} {address : Nat} {i : Instruction Text}
    {draft : Draft} (h : Starts lines address i) (hdraft : Draft.ofLines lines = .ok draft) :
    Boundary lines (address + i.size) := by
  obtain ⟨before, l, after, rfl, hl, rfl⟩ := h
  have hnext : Draft.codeSizeOf (instructions none (before ++ [l])) =
      Draft.codeSizeOf (instructions none before) + i.size := by
    rw [hl.instructions_concat, Draft.codeSizeOf_append, Statement.instructions_instruction,
      Draft.codeSizeOf_cons, Draft.codeSizeOf_nil]
    rfl
  rw [List.append_cons] at hdraft ⊢
  rw [← hnext]
  exact boundary_of_prefix hdraft

end Line

/-- A label stands for a boundary. -/
theorem Layout.boundary_of_label {layout : Layout} {lines : List Line} {t : Text} {v : Word}
    (h : Layout.ofLines lines = .ok layout) (hnumber : Text.number? t = none)
    (hlabel : t ∈ layout.labels.map Prod.fst) (hv : layout.resolve t = some v) :
    Line.Boundary lines v.toNat := by
  obtain ⟨draft, hdraft, -, hlabels, -⟩ := Layout.exists_of_ofLines h
  have hcovers := Draft.covers_of_ofLines hdraft
  rw [hlabels] at hlabel
  obtain ⟨before, l, after, rfl, hl⟩ := (hcovers.labels t).1 hlabel
  have hlookup := Layout.lookup_label h hl
  have haddress : v = UInt32.ofNat (Draft.codeSizeOf (Line.instructions none before)) := by
    simpa [Layout.resolve, hnumber, hlookup] using hv.symm
  have hlt : Draft.codeSizeOf (Line.instructions none before) < Draft.addressLimit := by
    have hsize := hcovers.codeSize
    have hle := hcovers.codeSize_lt
    rw [hl.instructions_split, Draft.codeSizeOf_append] at hsize
    omega
  rw [haddress, UInt32.toNat_ofNat_of_lt' hlt]
  exact Line.boundary_of_prefix hdraft

/-! ### Confined programs -/

/-- The instruction can only go on behind itself or at a label. -/
structure Instruction.Confined (layout : Layout) (i : Instruction Text) : Prop where
  branch : ∀ c target, i = .branch c target → ∃ t, target = .immediate t ∧
    Text.number? t = none ∧ t ∈ layout.labels.map Prod.fst
  target : i.target? ≠ some .ip

namespace Image

/-- The code in memory is the code of the image. -/
def Intact (image : Image) (m : Machine) : Prop :=
  ∀ k < image.code.length, m.memory.bytes[k]? = image.code[k]?

instance (image : Image) (m : Machine) : Decidable (image.Intact m) :=
  inferInstanceAs (Decidable (∀ k < image.code.length, _))

/-- The machine has the code of the image, as far as its size goes, and is at a boundary of the
lines. -/
structure Keeps (image : Image) (lines : List Line) (m : Machine) : Prop where
  codeSize : m.memory.codeSize.toNat = image.code.length
  boundary : Line.Boundary lines m.ip.toNat

/-! ### One step -/

/-- What is known of a program that has been assembled. -/
structure Assembled (image : Image) (layout : Layout) (lines : List Line) : Prop where
  entry : image.entry = 0
  laidOut : Layout.ofLines lines = .ok layout
  emitted : ∃ e : Emission, e.Covers layout lines ∧ image.code = e.code.toList

theorem assembled_of_assemble {source : String} {image : Image} {layout : Layout}
    (h : assemble source = .ok image)
    (hlayout : Layout.ofLines (Line.ofText source.toList) = .ok layout) :
    image.Assembled layout (Line.ofText source.toList) := by
  obtain ⟨layout', emission, hlayout', hemission, rfl⟩ := exists_of_assembleLines h
  cases hlayout.symm.trans hlayout'
  exact ⟨rfl, hlayout, emission, Emission.covers_of_ofLines hemission, rfl⟩

theorem Assembled.length_code {image : Image} {layout : Layout} {lines : List Line}
    (h : image.Assembled layout lines) :
    image.code.length = Draft.codeSizeOf (Line.instructions none lines) := by
  obtain ⟨e, he, hcode⟩ := h.emitted
  rw [hcode, Array.length_toList, he.size_code]

variable {image : Image} {layout : Layout} {lines : List Line} {m : Machine} {κ : Type}
  [Console κ] {c : κ}

/-- At the start of an instruction whose bytes are intact, the step is that instruction. -/
theorem Assembled.carries {i : Instruction Text} {s : Step κ} (h : image.Assembled layout lines)
    (hsize : m.memory.codeSize.toNat = image.code.length) (hintact : image.Intact m)
    (hstart : Line.Starts lines m.ip.toNat i) (hs : m.step? c = some s) :
    layout.Carries m c i s := by
  obtain ⟨e, he, hcode⟩ := h.emitted
  obtain ⟨before, l, after, rfl, hl, haddress⟩ := hstart
  obtain ⟨pre, i', post, hi, hsplit, hpre⟩ := he.code_split hl
  rw [← hpre] at haddress
  rw [hsplit] at hcode
  have hlen : image.code.length = pre.length + (i'.encode.length + post.length) := by
    rw [hcode, List.length_append, List.length_append]
  have hat : image.At m pre.length i'.encode.length := by
    refine ⟨(Machine.turns_of_step hs).1, hsize, haddress, ?_⟩
    intro k hk
    exact hintact _ (by omega)
  obtain ⟨s', hs', hcarries⟩ :=
    Layout.exists_carries c hi (Machine.turns_of_step hs).1 (hat.codeAt hcode)
  cases hs.symm.trans hs'
  exact hcarries

/-- Where an instruction that branches to labels only can go. -/
theorem Assembled.boundary_of_carries {i : Instruction Text} {s : Step κ}
    (h : image.Assembled layout lines) (hi : i.Confined layout)
    (hstart : Line.Starts lines m.ip.toNat i) (hs : layout.Carries m c i s) :
    Line.Boundary lines s.machine.ip.toNat := by
  by_cases hgoes : i.Redirects m.flags
  · obtain htarget | ⟨condition, hop, hholds⟩ := hgoes
    · exact absurd htarget hi.target
    -- a branch that is taken, to a label
    obtain ⟨target, rfl⟩ : ∃ target, i = .branch condition target := by
      cases i with
      | branch c target =>
        cases hop
        exact ⟨target, rfl⟩
      | _ => cases hop
    obtain ⟨t, rfl, hnumber, hlabel⟩ := hi.branch _ _ rfl
    obtain ⟨result, hperforms, -, rfl⟩ := hs.effect
    cases hperforms with
    | @branch c target v hreads =>
      have hv : layout.resolve t = some v := by
        cases hreads with
        | immediate hv => exact hv
      have hip : ((m.skip (Instruction.branch condition (.immediate t)).size).branch
          condition v).ip = v := by
        rw [Machine.branch, Machine.flags_skip, hholds]
        exact Machine.get_set_self _ _ _
      rw [Turn.machine_serve, Outcome.ip_machine_serve]
      show Line.Boundary lines (Machine.ip (Machine.branch _ condition v)).toNat
      rw [hip]
      exact Layout.boundary_of_label h.laidOut hnumber hlabel hv
  · -- the next instruction is the one behind this
    obtain ⟨draft, hdraft, -⟩ := Layout.exists_of_ofLines h.laidOut
    rw [hs.next hgoes]
    exact hstart.boundary_next hdraft

/-- The faults that a step of a confined program can raise, and where. -/
structure Excuses (lines : List Line) (m : Machine) (s : Step κ) : Prop where
  pointer : ∀ ip, Event.fault .pointerOutOfBounds ip ∈ s.events →
    m.ip.toNat = Draft.codeSizeOf (Line.instructions none lines)
  bad : ∀ ip, Event.fault .badInstruction ip ∈ s.events →
    Line.Starts lines m.ip.toNat .syscall ∧ 3 < m.get .r1

/-- A step of a confined program whose code is intact ends at a boundary, too. -/
theorem Keeps.step {s : Step κ} (hm : image.Keeps lines m) (h : image.Assembled layout lines)
    (hconfined : ∀ line i, (line, i) ∈ Line.instructions none lines → i.Confined layout)
    (hintact : image.Intact m) (hs : m.step? c = some s) :
    image.Keeps lines s.machine ∧ Excuses lines m s := by
  have hsize : s.machine.memory.codeSize.toNat = image.code.length := by
    rw [(Machine.sameExtent_of_step hs).codeSize, hm.codeSize]
  obtain ⟨i, hstart⟩ | hend := hm.boundary
  · have hcarries := h.carries hm.codeSize hintact hstart hs
    have hi : i.Confined layout := by
      obtain ⟨before, l, after, rfl, hl, -⟩ := hstart
      refine hconfined l.number i ?_
      rw [hl.instructions_split]
      simp
    refine ⟨⟨hsize, h.boundary_of_carries hi hstart hcarries⟩, ?_, ?_⟩
    · intro ip hfault
      exact absurd hfault (hcarries.inside ip)
    · intro ip hfault
      obtain ⟨rfl, hid⟩ := hcarries.known ip hfault
      exact ⟨hstart, hid⟩
  · have hip : ¬m.ip < m.memory.codeSize := by
      rw [UInt32.lt_iff_toNat_lt, hm.codeSize, h.length_code, hend]
      exact Nat.lt_irrefl _
    cases Machine.step_of_outside hs hip
    refine ⟨⟨hsize, ?_⟩, ?_, ?_⟩
    · rw [Machine.ip_raise]
      exact hm.boundary
    · intro ip hfault
      exact hend
    · intro ip hfault
      simp at hfault

/-! ### A whole run -/

theorem keeps_ofImage (h : image.Assembled layout lines) :
    image.Keeps lines (.ofImage image) := by
  obtain ⟨draft, hdraft, -⟩ := Layout.exists_of_ofLines h.laidOut
  have hcovers := Draft.covers_of_ofLines hdraft
  have hlt : image.code.length < Draft.addressLimit := by
    rw [h.length_code, ← hcovers.codeSize]
    exact hcovers.codeSize_lt
  have hip : (Machine.ofImage image).ip = 0 := by
    rw [← h.entry]
    exact Registers.get_set_self _ _ _
  refine ⟨UInt32.toNat_ofNat_of_lt' hlt, ?_⟩
  rw [hip]
  have hstart : Line.Boundary ([] ++ lines) (Draft.codeSizeOf (Line.instructions none [])) :=
    Line.boundary_of_prefix hdraft
  exact hstart

/-- Wherever a run of a confined program has come to, it is at a boundary, if no step before the
last one has changed the code. -/
theorem keeps_run (h : image.Assembled layout lines)
    (hconfined : ∀ line i, (line, i) ∈ Line.instructions none lines → i.Confined layout) (c : κ)
    (n : Nat)
    (hintact : ∀ k < n, image.Intact ((Session.start (.ofImage image) c).run k).machine) :
    image.Keeps lines ((Session.start (.ofImage image) c).run n).machine := by
  induction n with
  | zero => exact keeps_ofImage h
  | succ n ih =>
    have hn := ih fun k hk => hintact k (Nat.lt_succ_of_lt hk)
    rw [Session.run_add]
    generalize hsession : (Session.start (.ofImage image) c).run n = session at hn
    cases hnext : session.step? with
    | none =>
      -- a machine that has halted stays where it is
      rwa [Session.run_of_step?_eq_none hnext]
    | some next =>
      obtain ⟨step, hstep, rfl⟩ := Option.map_eq_some_iff.1 hnext
      rw [Session.run_succ_of_step? hnext]
      exact (hn.step h hconfined (hsession ▸ hintact n (Nat.lt_succ_self n)) hstep).1

end Image

/-- Control-flow integrity of a program that branches to labels only and does not assign to `IP`:
as long as its code is intact, `IP` is at an instruction or at the end of the code, only there the
machine runs out of code, and only an unknown request is a bad instruction. -/
theorem Session.control_flow {source : String} {image : Image} {layout : Layout} {κ : Type}
    [Console κ] (c : κ) (n : Nat) {s : Session κ} (h : assemble source = .ok image)
    (hlayout : Layout.ofLines (Line.ofText source.toList) = .ok layout)
    (hconfined : ∀ line i, (line, i) ∈ Line.instructions none (Line.ofText source.toList) →
      i.Confined layout)
    (hs : s = (start (.ofImage image) c).run n)
    (hintact : ∀ k < n, image.Intact ((start (.ofImage image) c).run k).machine) :
    ((∃ i, Line.Starts (Line.ofText source.toList) s.machine.ip.toNat i) ∨
        s.machine.ip.toNat = image.code.length) ∧
      (image.Intact s.machine → ∀ step, s.machine.step? s.console = some step →
        (∀ ip, Event.fault .pointerOutOfBounds ip ∈ step.events →
          s.machine.ip.toNat = image.code.length) ∧
        (∀ ip, Event.fault .badInstruction ip ∈ step.events →
          Line.Starts (Line.ofText source.toList) s.machine.ip.toNat .syscall ∧
            3 < s.machine.get .r1)) := by
  have hassembled := Image.assembled_of_assemble h hlayout
  have hkeeps := Image.keeps_run hassembled hconfined c n hintact
  rw [← hs] at hkeeps
  rw [hassembled.length_code]
  refine ⟨hkeeps.boundary, ?_⟩
  intro hnow step hstep
  obtain ⟨-, hexcuses⟩ := hkeeps.step hassembled hconfined hnow hstep
  exact ⟨hexcuses.pointer, hexcuses.bad⟩

/-- A loop that is left for a label at the end of the code, behind the data section. -/
def countToTwo : String :=
  "_main:\nagain:\nadd r2, 1\ncmp r2, 2\njneq again\njmp end\n_data:\nDB rest[4]\n_main:\nend:"

def countToTwoImage : Image where
  entry := 0
  code := [2, 18, 1, 1, 0, 0, 0, 5, 18, 1, 2, 0, 0, 0, 8, 2, 0, 0, 0, 0, 6, 2, 26, 0, 0, 0]
  data := [0, 0, 0, 0]

def countToTwoLayout : Layout where
  codeSize := 26
  dataSize := 4
  labels := [("again".toList, 0), ("end".toList, 26)]
  buffers := [("rest".toList, 26)]
  hasMain := true

theorem confined_countToTwo (line : Nat) (i : Instruction Text)
    (h : (line, i) ∈ Line.instructions none (Line.ofText countToTwo.toList)) :
    i.Confined countToTwoLayout := by
  have hall : Line.instructions none (Line.ofText countToTwo.toList) =
      [(3, .arith .add .r2 (.immediate ['1'])), (4, .cmp .r2 (.immediate ['2'])),
        (5, .branch .notEqual (.immediate "again".toList)),
        (6, .branch .always (.immediate "end".toList))] := rfl
  rw [hall] at h
  simp only [List.mem_cons, List.not_mem_nil, or_false, Prod.mk.injEq] at h
  obtain ⟨-, rfl⟩ | ⟨-, rfl⟩ | ⟨-, rfl⟩ | ⟨-, rfl⟩ := h
  · refine ⟨?_, by decide⟩
    rintro c target ⟨⟩
  · refine ⟨?_, by decide⟩
    rintro c target ⟨⟩
  · refine ⟨?_, by decide⟩
    rintro c target ⟨⟩
    exact ⟨_, rfl, rfl, by decide⟩
  · refine ⟨?_, by decide⟩
    rintro c target ⟨⟩
    exact ⟨_, rfl, rfl, by decide⟩

/-- After seven steps the loop has been left, and the machine runs out of code where it ends. -/
theorem Session.control_flow_countToTwo :
    ∃ s : Session Buffer, s = (start (.ofImage countToTwoImage) (Buffer.ofInput [])).run 7 ∧
      ∃ step, s.machine.step? s.console = some step ∧
        Event.fault .pointerOutOfBounds 26 ∈ step.events ∧
        s.machine.ip.toNat = countToTwoImage.code.length := by
  have hcode : ∀ k < 8, countToTwoImage.Intact
      ((start (.ofImage countToTwoImage) (Buffer.ofInput [])).run k).machine := by decide +kernel
  have hrun : ((start (.ofImage countToTwoImage) (Buffer.ofInput [])).run 7).machine.status =
      .running := by decide +kernel
  have hfault : ∀ step ∈
      ((start (.ofImage countToTwoImage) (Buffer.ofInput [])).run 7).machine.step?
        ((start (.ofImage countToTwoImage) (Buffer.ofInput [])).run 7).console,
      Event.fault .pointerOutOfBounds 26 ∈ step.events := by decide +kernel
  have hassemble : assemble countToTwo = .ok countToTwoImage := rfl
  obtain ⟨-, hfaults⟩ := control_flow (Buffer.ofInput []) 7 hassemble rfl confined_countToTwo rfl
    fun k hk => hcode k (Nat.lt_succ_of_lt hk)
  obtain ⟨step, hstep⟩ := Option.isSome_iff_exists.1 (Machine.step?_isSome_of_running hrun
    ((start (.ofImage countToTwoImage) (Buffer.ofInput [])).run 7).console)
  obtain ⟨hpointer, -⟩ := hfaults (hcode 7 (by decide)) step hstep
  exact ⟨_, rfl, step, hstep, hfault step hstep, hpointer 26 (hfault step hstep)⟩

end RegisterMachine
