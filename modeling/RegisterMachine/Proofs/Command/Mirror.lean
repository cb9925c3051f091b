import RegisterMachine.Command.Execution
import RegisterMachine.Proofs.Machine.Chronicle
import RegisterMachine.Proofs.Machine.Conservation
import RegisterMachine.Proofs.Machine.Faults

/-!
# RegisterMachine.Proofs.Command.Mirror

A program on the terminal does what it does on a console in memory with the bytes
that the standard input delivers, however these arrive and whatever ends them. The
two consoles read in different ways, the one by asking again until there is
enough, the other by cutting its input; what they have left stays the same
(`Terminal.Mirrors`).

All of this is for a terminal whose standard output works and on which nothing is
logged. Then a step prints the bytes that it writes and, if it is traced, the line
of its record (`Session.printed`).
-/

namespace RegisterMachine

/-- The line of a record: its text in UTF-8, and a line feed. -/
def TraceRecord.line (r : TraceRecord) : List Byte :=
  (String.ofList r.render).toUTF8.data.toList ++ [0x0A]

/-- A working terminal without a log has the same left to read as a console in memory, and the
same written to its standard error. -/
structure Terminal.Mirrors (t : Terminal) (b : Buffer) : Prop where
  input : t.stdin.delivered = b.input
  stderr : t.stderr = b.stderr
  willing : t.stdout.Willing
  flushed : t.stdout.held = []
  silent : t.warns = false
  going : t.ended = none

/-! ### The calls of the two consoles -/

namespace Terminal

/-- All bytes that have arrived at the standard output. -/
def shown (t : Terminal) : List Byte := t.stdout.delivered.toList

variable {t : Terminal} {b : Buffer}

/-- A line that cannot be printed ends the command. -/
theorem print_eq (t : Terminal) (line : String) :
    t.print line = { (t.writeOut (lineBytes line)).2 with
      ended := if (t.stdout.write (lineBytes line)).1 then t.ended else some .noSpace } := by
  unfold print writeOut
  dsimp only
  cases (t.stdout.write (lineBytes line)).1 <;> rfl

theorem print_of_willing (h : t.stdout.Willing) (line : String) :
    t.print line = (t.writeOut (lineBytes line)).2 := by
  rw [print_eq, (Output.write_of_willing h (lineBytes line)).1]
  rfl

theorem trace_eq (t : Terminal) (r : TraceRecord) :
    Console.trace t r = t.print (String.ofList r.render) := rfl

theorem mirrors_start (stdin : Reader) (report : HostError → List Byte) :
    (start stdin (fun _ => false) false report).Mirrors (Buffer.ofInput stdin.delivered) :=
  ⟨rfl, rfl, fun _ => rfl, rfl, rfl, rfl⟩

/-- A log that is not shown changes nothing. -/
theorem logAll_of_silent (h : t.warns = false) (rs : List Log.Record) : t.logAll rs = t := by
  have hlog (r : Log.Record) : t.log r = t := by
    unfold log
    rw [h]
    exact if_neg fun hboth => Bool.false_ne_true hboth.1
  induction rs with
  | nil => rfl
  | cons r rs ih =>
    rw [logAll, List.foldl_cons, hlog]
    exact ih

namespace Mirrors

theorem of_sameStreams (h : t.Mirrors b) {c : Buffer} (hc : c.SameStreams b) : t.Mirrors c :=
  { h with
    input := h.input.trans hc.input.symm
    stderr := h.stderr.trans hc.stderr.symm }

theorem writeOut (h : t.Mirrors b) (bytes : List Byte) :
    (t.writeOut bytes).1 = none ∧ (t.writeOut bytes).2.Mirrors b ∧
      (t.writeOut bytes).2.shown = t.shown ++ bytes := by
  obtain ⟨hsuccess, hwilling, hdelivered, hheld⟩ := Output.write_of_willing h.willing bytes
  rw [Output.content, h.flushed, List.append_nil] at hdelivered
  refine ⟨if_pos hsuccess, ?_, hdelivered⟩
  exact ⟨h.input, h.stderr, hwilling, hheld, h.silent, h.going⟩

theorem print (h : t.Mirrors b) (s : String) :
    (t.print s).Mirrors b ∧ (t.print s).shown = t.shown ++ lineBytes s := by
  obtain ⟨-, hmirrors, hshown⟩ := h.writeOut (lineBytes s)
  rw [print_of_willing h.willing]
  exact ⟨hmirrors, hshown⟩

theorem traceAll (h : t.Mirrors b) (records : List TraceRecord) :
    (records.foldl Console.trace t).Mirrors b ∧
      (records.foldl Console.trace t).shown = t.shown ++ records.flatMap TraceRecord.line := by
  induction records generalizing t with
  | nil => exact ⟨h, (List.append_nil _).symm⟩
  | cons r records ih =>
    obtain ⟨hfirst, hline⟩ := h.print (String.ofList r.render)
    obtain ⟨hmirrors, hshown⟩ := ih hfirst
    rw [hline, List.append_assoc] at hshown
    rw [List.foldl_cons, List.flatMap_cons, trace_eq]
    exact ⟨hmirrors, hshown⟩

theorem write (h : t.Mirrors b) (stream : Stream) (bytes : List Byte) :
    (Console.write t stream bytes).2.Mirrors (Console.write b stream bytes).2 ∧
      ∃ out, (Console.write t stream bytes).2.shown = t.shown ++ out ∧
        (Console.write b stream bytes).2.stdout.toList = b.stdout.toList ++ out := by
  cases stream with
  | stdout =>
    obtain ⟨-, hmirrors, hshown⟩ := h.writeOut bytes
    refine ⟨⟨hmirrors.input, hmirrors.stderr, hmirrors.willing, hmirrors.flushed,
      hmirrors.silent, hmirrors.going⟩, bytes, hshown, ?_⟩
    simp [Console.write]
  | stderr =>
    refine ⟨⟨h.input, ?_, h.willing, h.flushed, h.silent, h.going⟩, [], ?_, ?_⟩
    · exact congrArg (Array.appendList · bytes) h.stderr
    · exact (List.append_nil _).symm
    · exact (List.append_nil _).symm

/-- Both consoles read the same bytes, and have the same bytes left. -/
theorem read (h : t.Mirrors b) (count : Nat) :
    (Console.read t count).1.bytes = (Console.read b count).1.bytes ∧
      (Console.read t count).2.Mirrors (Console.read b count).2 := by
  constructor
  · show (t.stdin.fill count).1.bytes = b.input.take count
    rw [Reader.fill_bytes, h.input]
  · refine ⟨?_, h.stderr, h.willing, h.flushed, h.silent, h.going⟩
    show (t.stdin.fill count).2.delivered = b.input.drop count
    rw [Reader.fill_rest, h.input]

/-- Whatever an instruction asks for, both consoles give the same answer, and show the same
bytes for it. -/
theorem serve (h : t.Mirrors b) (outcome : Outcome) (on : Bool) :
    ((outcome.withTracing on).serve t).machine = (outcome.serve b).machine.withTracing on ∧
      ((outcome.withTracing on).serve t).console.Mirrors (outcome.serve b).console ∧
      ∃ out, ((outcome.withTracing on).serve t).console.shown = t.shown ++ out ∧
        (outcome.serve b).console.stdout.toList = b.stdout.toList ++ out := by
  cases outcome with
  | done m => exact ⟨rfl, h, [], (List.append_nil _).symm, (List.append_nil _).symm⟩
  | write descriptor bytes m => exact ⟨rfl, h.write _ bytes⟩
  | read address count m =>
    obtain ⟨hbytes, hmirrors⟩ := h.read count.toNat
    refine ⟨?_, hmirrors, [], (List.append_nil _).symm, (List.append_nil _).symm⟩
    show (m.withTracing on).receive address ((Console.read t count.toNat).1.bytes.take _) = _
    rw [hbytes]
    rfl

end Mirrors

end Terminal

/-! ### Steps and runs -/

namespace Session

/-- What the next step shows on the standard output. -/
def printed (on : Bool) (s : Session Buffer) : List Byte :=
  (s.written fun descriptor => descriptor != 2) ++
    if on then s.recorded.flatMap TraceRecord.line else []

/-- The two sessions have come to the same, and their consoles have the same left to read. -/
structure Mirrors (on : Bool) (u : Session Terminal) (s : Session Buffer) : Prop where
  machine : u.machine = s.machine.withTracing on
  console : u.console.Mirrors s.console

namespace Mirrors

variable {on : Bool} {u : Session Terminal} {s : Session Buffer}

/-- What is recorded does not depend on whether it is, nor on who gets the record. -/
theorem recorded (h : u.Mirrors on s)
    (hadvance : u.advance.machine = s.advance.machine.withTracing on)
    (htracing : s.machine.tracing = true) : u.recorded = if on then s.recorded else [] := by
  have hstatus : u.machine.status = s.machine.status := by rw [h.machine]; rfl
  have hinside : u.machine.ip < u.machine.memory.codeSize ↔
      s.machine.ip < s.machine.memory.codeSize := by rw [h.machine]; exact Iff.rfl
  have hon : u.machine.tracing = on := by rw [h.machine]; rfl
  have hrecord : u.machine.recordOf u.advance.machine = s.machine.recordOf s.advance.machine := by
    rw [h.machine, hadvance]
    rfl
  unfold Session.recorded
  rw [hrecord, hstatus, hon, htracing]
  simp only [hinside]
  cases on <;> simp

/-- One step keeps the two sessions together. -/
theorem advance (h : u.Mirrors on s) (htracing : s.machine.tracing = true) :
    u.advance.Mirrors on s.advance ∧
      u.advance.console.shown = u.console.shown ++ s.printed on := by
  have hturn : u.machine.turn? = s.machine.turn?.map (Turn.withTracing on) := by
    rw [h.machine, Machine.turn?_withTracing]
  have hwritten := s.accounts.stdout
  cases hs : s.machine.turn? with
  | none =>
    rw [hs] at hturn
    have hhalted := advance_of_halted (Machine.step?_of_turn?_eq_none hs s.console)
    have hhalted' := advance_of_halted (Machine.step?_of_turn?_eq_none hturn u.console)
    rw [hhalted, List.self_eq_append_right] at hwritten
    refine ⟨by rwa [hhalted, hhalted'], ?_⟩
    rw [hhalted', printed, hwritten, recorded_of_halted hs]
    cases on <;> exact (List.append_nil _).symm
  | some turn =>
    rw [hs] at hturn
    obtain ⟨hmachine, hserved, out, hshown, hout⟩ := h.console.serve turn.outcome on
    have hadvance : u.advance.machine = s.advance.machine.withTracing on := by
      rw [(advance_of_turn hturn).1, (advance_of_turn hs).1]
      exact hmachine
    -- what the request has shown is what the step has written
    have hsame := sameStreams_advance hs
    rw [hsame.stdout, hout, List.append_cancel_left_eq] at hwritten
    obtain ⟨hmirrors, hlines⟩ := (hserved.of_sameStreams hsame).traceAll u.recorded
    have hconsole : u.advance.console =
        u.recorded.foldl Console.trace ((turn.outcome.withTracing on).serve u.console).console :=
      console_advance hturn
    refine ⟨⟨hadvance, by rw [hconsole]; exact hmirrors⟩, ?_⟩
    rw [hconsole, hlines, hshown, hwritten, List.append_assoc, h.recorded hadvance htracing,
      printed]
    cases on <;> rfl

/-- So do any number of steps. -/
theorem run (h : u.Mirrors on s) (htracing : s.machine.tracing = true) (n : Nat) :
    (u.run n).Mirrors on (s.run n) ∧
      (u.run n).console.shown =
        u.console.shown ++ (List.range n).flatMap fun k => (s.run k).printed on := by
  induction n with
  | zero => exact ⟨h, (List.append_nil _).symm⟩
  | succ n ih =>
    obtain ⟨hbefore, hshown⟩ := ih
    obtain ⟨hafter, hstep⟩ := hbefore.advance ((s.tracing_run n).trans htracing)
    rw [run_succ, run_succ]
    refine ⟨hafter, ?_⟩
    rw [hstep, hshown, List.append_assoc, List.range_succ, List.flatMap_append,
      List.flatMap_singleton]

end Mirrors

/-- What a console in memory collects is what the steps have written. -/
theorem stdout_run (s : Session Buffer) (n : Nat) :
    (s.run n).console.stdout.toList =
      s.console.stdout.toList ++ (List.range n).flatMap fun k => (s.run k).printed false := by
  induction n with
  | zero => exact (List.append_nil _).symm
  | succ n ih =>
    rw [run_succ, (s.run n).accounts.stdout, ih, List.append_assoc, List.range_succ,
      List.flatMap_append, List.flatMap_singleton, printed]
    exact congrArg _ (congrArg _ (List.append_nil _).symm)

end Session

/-! ### Commands -/

namespace Terminal

/-- Driving a machine on a terminal on which nothing is logged, and on which every line can be
printed, is running it there. -/
theorem drive_eq_run (u : Session Terminal) (limit : Nat)
    (hsilent : ∀ k, (u.run k).console.warns = false)
    (hgoing : ∀ k, (u.run k).console.ended = none) :
    drive limit u.machine u.console = ((u.run limit).machine, (u.run limit).console) := by
  induction limit generalizing u with
  | zero => rfl
  | succ limit ih =>
    have hfirst : u.console.ended = none := hgoing 0
    have hended : u.console.ended.isSome = false := by rw [hfirst, Option.isSome_none]
    rw [drive, hended, if_neg Bool.false_ne_true]
    cases hstep : u.machine.step? u.console with
    | none =>
      rw [Session.run_of_step?_eq_none (by rw [Session.step?, hstep]; rfl)]
    | some step =>
      have hnext : u.step? = some u.advance := by
        rw [Session.advance_of_step hstep, Session.step?, hstep]
        rfl
      have hrun (k : Nat) : u.run (k + 1) = u.advance.run k := Session.run_succ_of_step? hnext k
      have hrest := ih u.advance (fun k => hrun k ▸ hsilent (k + 1))
        fun k => hrun k ▸ hgoing (k + 1)
      have hquiet : step.console.warns = false := by
        have h := hsilent 1
        rwa [Session.run_one, Session.advance_of_step hstep] at h
      rw [hrun, ← hrest, Session.advance_of_step hstep]
      dsimp only
      rw [logAll_of_silent hquiet]

/-- A program that halts on a console in memory is driven to the same end on a terminal. -/
theorem drive_of_halted {m : Machine} {t : Terminal} {b : Buffer} (h : t.Mirrors b)
    (htracing : m.tracing = true) {n limit : Nat} (hn : n ≤ limit)
    (hhalted : ((Session.start m b).run n).machine.status = .halted) (on : Bool) :
    (t.drive limit (m.withTracing on)).2.Mirrors ((Session.start m b).run n).console ∧
      (t.drive limit (m.withTracing on)).2.shown =
        t.shown ++ (List.range n).flatMap fun k => ((Session.start m b).run k).printed on := by
  have hstart : (Session.start (m.withTracing on) t).Mirrors on (Session.start m b) := ⟨rfl, h⟩
  have hrun (k : Nat) := hstart.run htracing k
  have hdrive : t.drive limit (m.withTracing on) = _ :=
    drive_eq_run (Session.start (m.withTracing on) t) limit (fun k => (hrun k).1.console.silent)
      fun k => (hrun k).1.console.going
  -- the steps after the machine has halted change nothing
  have hend : (Session.start (m.withTracing on) t).run limit =
      (Session.start (m.withTracing on) t).run n := by
    obtain ⟨rest, rfl⟩ := Nat.exists_eq_add_of_le hn
    rw [Session.run_add, Session.run_of_halted]
    rw [(hrun n).1.machine]
    exact hhalted
  rw [hdrive, hend]
  exact ⟨(hrun n).1.console, (hrun n).2⟩

end Terminal

end RegisterMachine
