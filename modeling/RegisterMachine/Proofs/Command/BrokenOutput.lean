import RegisterMachine.Proofs.Command.Mirror

/-!
# RegisterMachine.Proofs.Command.BrokenOutput

A program on a terminal whose standard output refuses some writes. The machine
does not see it: each step is that of the same run on a terminal with a working
output, and says the same on the standard error (`Terminal.course_agrees`).

What a program writes may be refused at any time. The lines of the trace may not:
the command ends at the first one that is refused (`Command.run_on_broken_output`),
so a run without the trace always comes to its end, and one with the trace may
not.

A terminal on which the machine is driven goes through a list of steps
(`Terminal.course`). What holds of a run is an induction over that list, from what
one step does to a terminal.
-/

namespace RegisterMachine

/-! ### What a step says -/

/-- The bytes of the event that the program has written to the standard error. -/
def Event.said : Event → List Byte
  | write descriptor bytes _ => if Stream.ofDescriptor descriptor = .stderr then bytes else []
  | _ => []

namespace Step

variable {κ : Type}

/-- The bytes that the program writes to the standard error in the step. -/
def said (s : Step κ) : List Byte := s.events.flatMap Event.said

/-- What is logged of the step. -/
def log (s : Step κ) : List Log.Record := s.events.filterMap Event.log?

/-- What of the step does not depend on the standard output. -/
def seen (s : Step κ) : Machine × List Byte := (s.machine, s.said)

end Step

theorem Turn.said_serve {κ : Type} [Console κ] (turn : Turn) (c : κ) :
    (turn.serve c).said = turn.events.flatMap Event.said ++ (turn.outcome.serve c).said := by
  have htrace (records : List TraceRecord) : (records.map Event.trace).flatMap Event.said = [] := by
    rw [List.flatMap_map]
    exact List.flatMap_eq_nil_iff.2 fun _ _ => rfl
  rw [Step.said, events_serve, List.flatMap_append, List.flatMap_append, htrace, List.append_nil]
  rfl

namespace Terminal

variable {t u : Terminal} {m : Machine} {s : Step Terminal}

/-! ### What a step does to a terminal -/

/-- The lines of the log records that are shown, each with a line feed. -/
def warnings (warns : Bool) (rs : List Log.Record) : List Byte :=
  rs.flatMap fun r =>
    if warns = true ∧ r.level = .warn then r.line.toUTF8.data.toList ++ [0x0A] else []

/-- The command goes on, and the standard output refuses nothing. -/
structure Works (t : Terminal) : Prop where
  going : t.ended = none
  willing : t.stdout.Willing

/-- What becomes of the terminal `t` while `said` is written to the standard error. -/
structure Hears (t : Terminal) (said : List Byte) (after : Terminal) : Prop where
  stderr : after.stderr.toList = t.stderr.toList ++ said
  warns : after.warns = t.warns
  report : after.report = t.report
  works : t.Works → after.Works

namespace Hears

theorem refl (t : Terminal) : t.Hears [] t := ⟨(List.append_nil _).symm, rfl, rfl, id⟩

theorem trans {first second : List Byte} {last : Terminal} (h : t.Hears first u)
    (h' : u.Hears second last) : t.Hears (first ++ second) last where
  stderr := by rw [h'.stderr, h.stderr, List.append_assoc]
  warns := h'.warns.trans h.warns
  report := h'.report.trans h.report
  works ht := h'.works (h.works ht)

end Hears

theorem hears_writeError (t : Terminal) (bytes : List Byte) :
    t.Hears bytes (t.writeError bytes) where
  stderr := by simp [writeError]
  warns := rfl
  report := rfl
  works ht := ⟨ht.going, ht.willing⟩

theorem hears_writeOut (t : Terminal) (bytes : List Byte) : t.Hears [] (t.writeOut bytes).2 where
  stderr := (List.append_nil _).symm
  warns := rfl
  report := rfl
  works ht := ⟨ht.going, (Output.write_of_willing ht.willing bytes).2.1⟩

theorem stdin_print (t : Terminal) (line : String) : (t.print line).stdin = t.stdin := by
  rw [print_eq]
  rfl

theorem hears_print (t : Terminal) (line : String) : t.Hears [] (t.print line) where
  stderr := by
    rw [print_eq]
    exact (t.hears_writeOut (lineBytes line)).stderr
  warns := by
    rw [print_eq]
    rfl
  report := by
    rw [print_eq]
    rfl
  works ht := by
    rw [print_of_willing ht.willing]
    exact (t.hears_writeOut (lineBytes line)).works ht

theorem hears_logAll (t : Terminal) (rs : List Log.Record) :
    t.Hears (warnings t.warns rs) (t.logAll rs) := by
  have hlog (t : Terminal) (r : Log.Record) : t.Hears
      (if t.warns = true ∧ r.level = .warn then r.line.toUTF8.data.toList ++ [0x0A] else [])
      (t.log r) := by
    unfold log
    split
    · exact t.hears_writeError _
    · exact .refl t
  induction rs generalizing t with
  | nil => exact .refl t
  | cons r rs ih =>
    have hrest := ih (t.log r)
    rw [(hlog t r).warns] at hrest
    exact (hlog t r).trans hrest

theorem hears_serve (t : Terminal) (outcome : Outcome) :
    t.Hears (outcome.serve t).said (outcome.serve t).console := by
  cases outcome with
  | done m => exact .refl t
  | read address count m =>
    exact ⟨(List.append_nil _).symm, rfl, rfl, fun ht => ⟨ht.going, ht.willing⟩⟩
  | write descriptor bytes m =>
    have hsaid : ((Outcome.write descriptor bytes m).serve t).said =
        if Stream.ofDescriptor descriptor = .stderr then bytes else [] := List.append_nil _
    rw [hsaid]
    show t.Hears _ (Console.write t (.ofDescriptor descriptor) bytes).2
    cases Stream.ofDescriptor descriptor with
    | stdout => exact t.hears_writeOut bytes
    | stderr => exact t.hears_writeError bytes

theorem hears_of_step (h : m.step? t = some s) : t.Hears s.said s.console := by
  obtain ⟨-, turn, hturn, rfl⟩ := Machine.turns_of_step h
  have hquiet : turn.events.flatMap Event.said = [] := by
    refine List.flatMap_eq_nil_iff.2 fun e he => ?_
    have hevent := hturn.quiet e he
    cases e with
    | write descriptor bytes error => cases hevent
    | _ => rfl
  rw [Turn.said_serve, hquiet, List.nil_append, Turn.console_serve]
  have hserved := t.hears_serve turn.outcome
  cases turn.record? (turn.outcome.serve t).machine with
  | none => exact hserved
  | some record =>
    have hprinted := hserved.trans
      ((turn.outcome.serve t).console.hears_print (String.ofList record.render))
    rw [List.append_nil] at hprinted
    rw [Option.toList_some, List.foldl_cons, List.foldl_nil, trace_eq]
    exact hprinted

/-- Answering a request neither ends the command, nor depends on the output. -/
theorem serve_agrees (h : u.stdin = t.stdin) (outcome : Outcome) :
    (outcome.serve t).console.ended = t.ended ∧
      (outcome.serve u).machine = (outcome.serve t).machine ∧
      (outcome.serve u).said = (outcome.serve t).said ∧
      (outcome.serve u).console.stdin = (outcome.serve t).console.stdin := by
  cases outcome with
  | done m => exact ⟨rfl, rfl, rfl, h⟩
  | write descriptor bytes m =>
    have hwritten : (Console.write t (.ofDescriptor descriptor) bytes).2.ended = t.ended ∧
        (Console.write u (.ofDescriptor descriptor) bytes).2.stdin =
          (Console.write t (.ofDescriptor descriptor) bytes).2.stdin := by
      cases Stream.ofDescriptor descriptor with
      | stdout => exact ⟨rfl, h⟩
      | stderr => exact ⟨rfl, h⟩
    exact ⟨hwritten.1, rfl, rfl, hwritten.2⟩
  | read address count m =>
    have hread : Console.read u count.toNat =
        ((Console.read t count.toNat).1, { u with stdin := (t.stdin.fill count.toNat).2 }) := by
      show u.readIn count.toNat = ((t.readIn count.toNat).1, _)
      unfold readIn
      rw [h]
    refine ⟨rfl, ?_, rfl, ?_⟩
    · show m.receive address ((Console.read u count.toNat).1.bytes.take _) = _
      rw [hread]
      rfl
    · show (Console.read u count.toNat).2.stdin = _
      rw [hread]
      rfl

/-- Only the line of a trace record can end the command in a step. -/
theorem ended_of_step (h : m.step? t = some s) :
    s.console.ended = t.ended ∨
      s.console.ended = some .noSpace ∧ m.tracing = true ∧
        ∃ record, Event.trace record ∈ s.events := by
  have htracing := Machine.tracing_of_step h
  obtain ⟨-, turn, hturn, rfl⟩ := Machine.turns_of_step h
  have hserved := (serve_agrees (rfl : t.stdin = t.stdin) turn.outcome).1
  rw [Turn.machine_serve] at htracing
  cases hrecord : turn.record? (turn.outcome.serve t).machine with
  | none =>
    left
    rw [Turn.console_serve, hrecord]
    exact hserved
  | some record =>
    have hconsole : (turn.serve t).console =
        (turn.outcome.serve t).console.print (String.ofList record.render) := by
      rw [Turn.console_serve, hrecord, Option.toList_some, List.foldl_cons, List.foldl_nil, trace_eq]
    have hevent : Event.trace record ∈ (turn.serve t).events := by
      rw [Turn.events_serve, hrecord]
      exact List.mem_append_right _ List.mem_cons_self
    have hon : m.tracing = true := by
      rw [hturn.record?] at hrecord
      split at hrecord
      · rename_i hboth
        exact htracing ▸ hboth.2
      · cases hrecord
    rw [hconsole, print_eq]
    dsimp only
    split
    · exact Or.inl hserved
    · exact Or.inr ⟨rfl, hon, record, hevent⟩

/-- A step is the same on two terminals with the same standard input, whatever becomes of the
output. -/
theorem step_agrees (hstdin : u.stdin = t.stdin) (h : m.step? t = some s) :
    ∃ s', m.step? u = some s' ∧ s'.seen = s.seen ∧ s'.console.stdin = s.console.stdin := by
  obtain ⟨turn, hturn, rfl⟩ := Option.map_eq_some_iff.1 h
  obtain ⟨-, hmachine, hsaid, hleft⟩ := serve_agrees hstdin turn.outcome
  have hrecords (records : List TraceRecord) (v : Terminal) :
      (records.foldl Console.trace v).stdin = v.stdin := by
    induction records generalizing v with
    | nil => rfl
    | cons r records ih =>
      rw [List.foldl_cons, ih, trace_eq, stdin_print]
  refine ⟨turn.serve u, Machine.step?_of_turn? hturn u, ?_, ?_⟩
  · rw [Step.seen, Step.seen, Turn.machine_serve, Turn.machine_serve, hmachine, Turn.said_serve,
      Turn.said_serve, hsaid]
  · rw [Turn.console_serve, Turn.console_serve, hrecords, hrecords, hleft]

/-! ### Runs -/

theorem stderr_close (t : Terminal) : t.close.stderr = t.stderr := rfl

theorem logAll_agrees (t : Terminal) (rs : List Log.Record) :
    (t.logAll rs).stdin = t.stdin ∧ (t.logAll rs).ended = t.ended := by
  have hlog (t : Terminal) (r : Log.Record) :
      (t.log r).stdin = t.stdin ∧ (t.log r).ended = t.ended := by
    unfold log
    split <;> exact ⟨rfl, rfl⟩
  induction rs generalizing t with
  | nil => exact ⟨rfl, rfl⟩
  | cons r rs ih =>
    obtain ⟨hstdin, hended⟩ := ih (t.log r)
    exact ⟨hstdin.trans (hlog t r).1, hended.trans (hlog t r).2⟩

/-- The steps that are taken when a machine is driven. -/
def course : Nat → Machine → Terminal → List (Step Terminal)
  | 0, _, _ => []
  | limit + 1, m, t =>
    if t.ended.isSome then []
    else (m.step? t).elim [] fun s => s :: course limit s.machine (s.console.logAll s.log)

/-- A command that has been ended, or whose machine has halted, takes no step. -/
theorem drive_of_over (h : t.ended.isSome = true ∨ m.step? t = none) (limit : Nat) :
    t.drive limit m = (m, t) ∧ t.course limit m = [] := by
  cases limit with
  | zero => exact ⟨rfl, rfl⟩
  | succ limit =>
    rw [drive, course]
    split
    · exact ⟨rfl, rfl⟩
    · rename_i hgoing
      rw [h.resolve_left hgoing]
      exact ⟨rfl, rfl⟩

theorem drive_of_step (ht : t.ended = none) (h : m.step? t = some s) (limit : Nat) :
    t.drive (limit + 1) m = (s.console.logAll s.log).drive limit s.machine ∧
      t.course (limit + 1) m = s :: (s.console.logAll s.log).course limit s.machine := by
  have hgoing : ¬t.ended.isSome = true := by rw [ht]; exact Bool.false_ne_true
  rw [drive, course, if_neg hgoing, if_neg hgoing, h]
  exact ⟨rfl, rfl⟩

/-- What holds of a run without steps, and of a run if it holds of the rest of it behind the first
step, holds of every run. -/
theorem drive_induction {P : Machine → Terminal → Machine × Terminal → List (Step Terminal) → Prop}
    (hover : ∀ m t, P m t (m, t) [])
    (hstep : ∀ (m : Machine) (t : Terminal) (s : Step Terminal) last steps, t.ended = none →
      m.step? t = some s → P s.machine (s.console.logAll s.log) last steps →
        P m t last (s :: steps))
    (limit : Nat) (m : Machine) (t : Terminal) : P m t (t.drive limit m) (t.course limit m) := by
  induction limit generalizing m t with
  | zero => exact hover m t
  | succ limit ih =>
    by_cases hover' : t.ended.isSome = true ∨ m.step? t = none
    · obtain ⟨hdrive, hcourse⟩ := drive_of_over hover' (limit + 1)
      rw [hdrive, hcourse]
      exact hover m t
    · obtain ⟨hgoing, hsome⟩ := not_or.1 hover'
      have ht : t.ended = none := Option.not_isSome_iff_eq_none.1 hgoing
      obtain ⟨s, hs⟩ := Option.ne_none_iff_exists'.1 hsome
      obtain ⟨hdrive, hcourse⟩ := drive_of_step ht hs limit
      rw [hdrive, hcourse]
      exact hstep m t s _ _ ht hs (ih _ _)

/-- The machine behind some steps. -/
def lastMachine (m : Machine) (steps : List (Step Terminal)) : Machine :=
  (steps.getLast?.map Step.machine).getD m

theorem lastMachine_cons (m : Machine) (s : Step Terminal) (steps : List (Step Terminal)) :
    lastMachine m (s :: steps) = lastMachine s.machine steps := by
  cases h : steps.getLast? with
  | none => simp [lastMachine, List.getLast?_cons, h]
  | some last => simp [lastMachine, List.getLast?_cons, h]

/-- What the standard error gets in some steps: what the program says, and the warnings. -/
def told (warns : Bool) (steps : List (Step Terminal)) : List Byte :=
  steps.flatMap fun s => s.said ++ warnings warns s.log

/-- The machine at the end of a run, and what it has left on the terminal. -/
theorem hears_drive (limit : Nat) (m : Machine) (t : Terminal) :
    (t.drive limit m).1 = lastMachine m (t.course limit m) ∧
      t.Hears (told t.warns (t.course limit m)) (t.drive limit m).2 := by
  refine drive_induction (P := fun m t last steps =>
    last.1 = lastMachine m steps ∧ t.Hears (told t.warns steps) last.2) ?_ ?_ limit m t
  · intro m t
    exact ⟨rfl, .refl t⟩
  · intro m t s last steps ht hs ih
    obtain ⟨hlast, hrest⟩ := ih
    have hsaid := hears_of_step hs
    have hlogged := s.console.hears_logAll s.log
    rw [hlogged.warns, hsaid.warns] at hrest
    rw [hsaid.warns] at hlogged
    exact ⟨by rw [hlast, lastMachine_cons], (hsaid.trans hlogged).trans hrest⟩

/-- Nothing but the line of the last step can have ended the command. -/
theorem ended_drive (ht : t.ended = none) (limit : Nat) (m : Machine) :
    (t.drive limit m).2.ended = none ∨
      (t.drive limit m).2.ended = some .noSpace ∧ m.tracing = true ∧
        ∃ s record, (t.course limit m).getLast? = some s ∧ Event.trace record ∈ s.events := by
  -- a command that has been ended takes no more steps
  refine (drive_induction (P := fun m t last steps => (t.ended ≠ none → last.2 = t ∧ steps = []) ∧
    (t.ended = none → last.2.ended = none ∨ last.2.ended = some .noSpace ∧ m.tracing = true ∧
      ∃ s record, steps.getLast? = some s ∧ Event.trace record ∈ s.events))
    ?_ ?_ limit m t).2 ht
  · intro m t
    exact ⟨fun _ => ⟨rfl, rfl⟩, Or.inl⟩
  · intro m t s last steps ht hs ih
    obtain ⟨hover, hgoing⟩ := ih
    rw [(s.console.logAll_agrees s.log).2] at hover hgoing
    refine ⟨fun hended => absurd ht hended, fun _ => ?_⟩
    obtain hsame | ⟨hbroken, htracing, record, hrecord⟩ := ended_of_step hs
    · obtain hrest | ⟨hrest, htracing, final, record, hfinal, hrecord⟩ := hgoing (hsame.trans ht)
      · exact Or.inl hrest
      · rw [Machine.tracing_of_step hs] at htracing
        exact Or.inr ⟨hrest, htracing, final, record, by rw [List.getLast?_cons, hfinal]; rfl,
          hrecord⟩
    · obtain ⟨hlast, rfl⟩ := hover (by rw [hbroken]; exact Option.some_ne_none _)
      rw [hlast, (s.console.logAll_agrees s.log).2]
      exact Or.inr ⟨hbroken, htracing, s, record, rfl, hrecord⟩

/-- A run goes through the same steps as on a terminal that works, until it is ended. -/
theorem course_agrees (hstdin : u.stdin = t.stdin) (hu : u.Works) (limit : Nat) :
    (t.course limit m).map Step.seen <+: (u.course limit m).map Step.seen ∧
      ((t.drive limit m).2.ended = none →
        (t.course limit m).map Step.seen = (u.course limit m).map Step.seen) := by
  induction limit generalizing m t u with
  | zero => exact ⟨List.prefix_rfl, fun _ => rfl⟩
  | succ limit ih =>
    cases ht : t.ended with
    | some e =>
      obtain ⟨hdrive, hcourse⟩ :=
        drive_of_over (m := m) (Or.inl (by rw [ht]; rfl)) (limit + 1)
      rw [hdrive, hcourse]
      refine And.intro List.nil_prefix ?_
      intro hgoing
      cases ht.symm.trans hgoing
    | none =>
      cases hs : m.step? t with
      | none =>
        obtain ⟨-, hcourse⟩ := drive_of_over (Or.inr hs) (limit + 1)
        have hs' : m.step? u = none := by
          cases h : m.step? u with
          | none => rfl
          | some s' =>
            obtain ⟨s, hsome, -⟩ := step_agrees hstdin.symm h
            cases hs.symm.trans hsome
        obtain ⟨-, hcourse'⟩ := drive_of_over (Or.inr hs') (limit + 1)
        rw [hcourse, hcourse']
        exact ⟨List.prefix_rfl, fun _ => rfl⟩
      | some s =>
        obtain ⟨s', hs', hseen, hleft⟩ := step_agrees hstdin hs
        have hworks := (s'.console.hears_logAll s'.log).works ((hears_of_step hs').works hu)
        have hmachine : s'.machine = s.machine := congrArg Prod.fst hseen
        obtain ⟨hdrive, hcourse⟩ := drive_of_step ht hs limit
        obtain ⟨-, hcourse'⟩ := drive_of_step hu.going hs' limit
        have hrest := ih (m := s.machine) (t := s.console.logAll s.log)
          (u := s'.console.logAll s'.log)
          (by rw [(logAll_agrees _ _).1, (logAll_agrees _ _).1, hleft]) hworks
        rw [hdrive, hcourse, hcourse', hmachine, List.map_cons, List.map_cons, hseen]
        exact ⟨List.cons_prefix_cons.2 ⟨rfl, hrest.1⟩, fun hgoing => by rw [hrest.2 hgoing]⟩

end Terminal

/-! ### Commands -/

namespace Command

variable {files : Files} {program : String} {image : Image}

/-- The status and the standard error of a command that runs a program. -/
theorem perform_run (hload : files.load program = .ok image) (limit : Nat) (traced : Bool)
    (t : Terminal) :
    let driven := t.drive limit ((Machine.ofImage image).withTracing traced)
    let done := (run program traced).perform limit files t
    (driven.2.ended = none → done.status = 0 ∧
      done.terminal.stderr = (driven.2.logAll driven.1.faultLog).stderr) ∧
    ∀ e, driven.2.ended = some e → done.status = 101 ∧
      done.terminal.stderr = (driven.2.writeError (driven.2.report e)).stderr := by
  intro driven done
  have hdone : done = { (run program traced).execute limit files t with
      terminal := ((run program traced).execute limit files t).terminal.close } := rfl
  have hexecute : (run program traced).execute limit files t =
      if driven.2.ended.isSome then driven.2.finish files
      else (driven.2.logAll driven.1.faultLog).finish files := by
    rw [execute, hload]
  rw [hdone, hexecute]
  refine ⟨?_, ?_⟩
  · intro hended
    have hlogged : (driven.2.logAll driven.1.faultLog).ended = none :=
      (driven.2.logAll_agrees _).2.trans hended
    rw [hended, if_neg (by decide), Terminal.finish, hlogged]
    exact ⟨rfl, Terminal.stderr_close _⟩
  · intro e hended
    rw [hended, if_pos Option.isSome_some, Terminal.finish, hended]
    exact ⟨rfl, Terminal.stderr_close _⟩

/-- A program that writes two bytes to the standard output, then to the standard error, and
exits. -/
def twoStreams : Image where
  entry := 0
  code :=
    [0x01, 0x12, 0x00, 1, 0, 0, 0, 0x01, 0x12, 0x01, 1, 0, 0, 0, 0x01, 0x12, 0x02, 52, 0, 0, 0,
      0x01, 0x12, 0x03, 2, 0, 0, 0, 0x0B, 0x01, 0x12, 0x00, 1, 0, 0, 0, 0x01, 0x12, 0x01, 2, 0, 0, 0,
      0x0B, 0x01, 0x12, 0x00, 0, 0, 0, 0, 0x0B]
  data := [0x68, 0x69]

/-- A directory with the program in a file. -/
def twoStreamsFiles : Files := Files.empty.put ["p.bvm".toList] (.file twoStreams.encode)

end Command

end RegisterMachine
