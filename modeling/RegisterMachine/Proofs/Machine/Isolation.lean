import RegisterMachine.Host.Buffer
import RegisterMachine.Machine.Session
import RegisterMachine.Proofs.Machine.Forms

/-!
# RegisterMachine.Proofs.Machine.Isolation

What a machine can tell of its host: the bytes that it reads, and nothing else.
Two runs of an image with any two consoles stay together as long as the reads of
both are answered with the same bytes (`Session.matches_of_sameAnswers`). It
makes no difference whether a write succeeds, what becomes of the trace records,
and when the trace is turned on or off.

That the trace cannot be seen is an equation for a turn
(`Machine.turn?_withTracing`), which commutes with turning the trace on or off.
That the host cannot be seen is read off `Outcome.serve`, which is the only
place where a console is asked for anything.
-/

namespace RegisterMachine

/-! ### What passes between a machine and its host -/

/-- A call of the host, with what the machine takes of the answer. -/
inductive Exchange
  /-- The answer to a write is not looked at. -/
  | write (stream : Stream) (bytes : List Byte)
  /-- `count` bytes were asked for, and `bytes` are what came. -/
  | read (count : Word) (bytes : List Byte)
  deriving DecidableEq

namespace Exchange

/-- What was asked for and what came, if the call was a read. -/
def reading? : Exchange → Option (Word × List Byte)
  | write _ _ => none
  | read count bytes => some (count, bytes)

/-- Corresponding reads that ask for equally much are answered with the same bytes. -/
def SameAnswers (xs ys : List Exchange) : Prop :=
  ∀ (i : Nat) (count : Word) (bytes bytes' : List Byte),
    (xs.filterMap reading?)[i]? = some (count, bytes) →
    (ys.filterMap reading?)[i]? = some (count, bytes') → bytes = bytes'

variable {xs ys zs : List Exchange}

theorem sameAnswers_refl (xs : List Exchange) : SameAnswers xs xs := by
  intro i count bytes bytes' h h'
  cases h.symm.trans h'
  rfl

theorem SameAnswers.of_append (h : SameAnswers (xs ++ ys) (xs ++ zs)) : SameAnswers ys zs := by
  intro i count bytes bytes' hy hz
  refine h ((xs.filterMap reading?).length + i) count bytes bytes' ?_ ?_
  · rw [List.filterMap_append, List.getElem?_append_right (Nat.le_add_right _ _),
      Nat.add_sub_cancel_left, hy]
  · rw [List.filterMap_append, List.getElem?_append_right (Nat.le_add_right _ _),
      Nat.add_sub_cancel_left, hz]

theorem SameAnswers.of_prefix {xs' ys' : List Exchange} (h : SameAnswers xs ys)
    (hx : xs' <+: xs) (hy : ys' <+: ys) : SameAnswers xs' ys' := by
  obtain ⟨xs'', rfl⟩ := hx
  obtain ⟨ys'', rfl⟩ := hy
  have hkeep {us vs : List Exchange} {i : Nat} {reading : Word × List Byte}
      (hi : (us.filterMap reading?)[i]? = some reading) :
      ((us ++ vs).filterMap reading?)[i]? = some reading := by
    obtain ⟨hlt, -⟩ := List.getElem?_eq_some_iff.1 hi
    rw [List.filterMap_append, List.getElem?_append_left hlt, hi]
  intro i count bytes bytes' hi hi'
  exact h i count bytes bytes' (hkeep hi) (hkeep hi')

end Exchange

namespace Event

/-- The call that an event tells of. -/
def exchange? : Event → Option Exchange
  | fault _ _ => none
  | syscall _ _ _ _ => none
  | write descriptor bytes _ => some (.write (.ofDescriptor descriptor) bytes)
  | read count bytes _ => some (.read count bytes)
  | trace _ => none

/-- The calls that some events tell of, in order. -/
def exchanges (events : List Event) : List Exchange := events.filterMap exchange?

@[simp] theorem exchanges_append (events more : List Event) :
    exchanges (events ++ more) = exchanges events ++ exchanges more :=
  List.filterMap_append

/-- The console after the call that an event tells of, or after the record that it hands over. -/
def tell {κ : Type} [Console κ] (c : κ) : Event → κ
  | fault _ _ => c
  | syscall _ _ _ _ => c
  | write descriptor bytes _ => (Console.write c (.ofDescriptor descriptor) bytes).2
  | read count _ _ => (Console.read c count.toNat).2
  | trace record => Console.trace c record

/-- The event is the machine's own affair. -/
def Quiet : Event → Prop
  | fault _ _ => True
  | syscall _ _ _ _ => True
  | write _ _ _ => False
  | read _ _ _ => False
  | trace _ => False

theorem foldl_tell_of_quiet {κ : Type} [Console κ] {events : List Event}
    (h : ∀ e ∈ events, e.Quiet) (c : κ) : events.foldl tell c = c := by
  induction events with
  | nil => rfl
  | cons e events ih =>
    have he : e.tell c = c := by
      have hquiet := h e List.mem_cons_self
      cases e with
      | fault f ip => rfl
      | syscall id descriptor address count => rfl
      | _ => cases hquiet
    rw [List.foldl_cons, he]
    exact ih fun e' he' => h e' (List.mem_cons_of_mem e he')

end Event

/-! ### Events are the calls that are made -/

section

variable {κ : Type} [Console κ] {m : Machine}

theorem Machine.Turns.quiet {turn : Turn} (h : m.Turns turn) : ∀ e ∈ turn.events, e.Quiet := by
  have hrefusals : ∀ e ∈ m.refusals, e.Quiet := by
    intro e he
    obtain ⟨address, -, rfl⟩ := List.mem_map.1 he
    trivial
  intro e he
  cases h with
  | outside hip =>
    cases List.mem_singleton.1 he
    trivial
  | undecodable hip hi =>
    rcases List.mem_append.1 he with he | he
    · exact hrefusals e he
    · cases List.mem_singleton.1 he
      trivial
  | @fetched i hip hi =>
    have hannounced : ∀ e ∈ m.decoded.announcement i.opcode, e.Quiet := by
      intro e he
      unfold Machine.announcement at he
      split at he
      · cases List.mem_singleton.1 he
        trivial
      · cases he
    cases hresult : m.decoded.execute m.registers.leftValue i with
    | ok outcome =>
      rw [hresult] at he
      rcases List.mem_append.1 he with he | he
      · exact hrefusals e he
      · exact hannounced e he
    | error f =>
      rw [hresult] at he
      rcases List.mem_append.1 he with he | he
      · rcases List.mem_append.1 he with he | he
        · exact hrefusals e he
        · exact hannounced e he
      · cases List.mem_singleton.1 he
        trivial

theorem Outcome.console_serve (outcome : Outcome) (c : κ) :
    (outcome.serve c).console = (outcome.serve c).events.foldl Event.tell c := by
  cases outcome <;> rfl

/-- A console is told of nothing but the events of a step. -/
theorem Machine.console_of_step {c : κ} {s : Step κ} (h : m.step? c = some s) :
    s.console = s.events.foldl Event.tell c := by
  obtain ⟨-, turn, hturn, rfl⟩ := turns_of_step h
  rw [Turn.console_serve, Turn.events_serve, List.foldl_append, List.foldl_append,
    Event.foldl_tell_of_quiet hturn.quiet, ← Outcome.console_serve, List.foldl_map]
  rfl

end

/-! ### The trace is not seen -/

/-- The outcome with the trace turned on or off. -/
def Outcome.withTracing (on : Bool) : Outcome → Outcome
  | done m => done (m.withTracing on)
  | write descriptor bytes m => write descriptor bytes (m.withTracing on)
  | read address count m => read address count (m.withTracing on)

/-- The turn with the trace turned on or off. -/
def Turn.withTracing (on : Bool) (turn : Turn) : Turn :=
  { turn with outcome := turn.outcome.withTracing on }

namespace Machine

variable (m : Machine) (on : Bool)

theorem advance_withTracing (cursor : Cursor) :
    (m.withTracing on).advance cursor = (m.advance cursor).withTracing on := by
  rw [advance_eq, advance_eq]
  split <;> rfl

theorem decoded_withTracing : (m.withTracing on).decoded = m.decoded.withTracing on :=
  m.advance_withTracing on _

theorem request_withTracing :
    (m.withTracing on).request = m.request.map (Outcome.withTracing on) := by
  have hget (r : Register) : (m.withTracing on).get r = m.get r := rfl
  have hmemory : (m.withTracing on).memory = m.memory := rfl
  simp only [request, hget, hmemory]
  cases Syscall.ofId? (m.get .r1) with
  | none => rfl
  | some id =>
    cases id with
    | exit => rfl
    | openFile => rfl
    | write =>
      dsimp only
      split <;> rfl
    | read =>
      dsimp only
      split
      · split <;> rfl
      · rfl

/-- What an instruction comes to does not depend on the trace. -/
theorem execute_withTracing (left : Register → Word) (i : Instruction Word) :
    (m.withTracing on).execute left i = (m.execute left i).map (Outcome.withTracing on) := by
  -- the values of operands are those of the same registers and the same memory
  have hvalue? (o : Operand Word) : (m.withTracing on).value? o = m.value? o := by
    cases o <;> rfl
  have hvalue (d : Direct Word) : (m.withTracing on).value d = m.value d := by
    cases d <;> rfl
  cases i with
  | nop => rfl
  | syscall => exact m.request_withTracing on
  | move dst src =>
    rw [execute, execute, hvalue?]
    cases m.value? src <;> rfl
  | store address src =>
    rw [execute, execute, hvalue]
    have hmemory : (m.withTracing on).memory = m.memory := rfl
    rw [hmemory]
    cases m.memory.store? address (m.value src) <;> rfl
  | arith op dst src =>
    rw [execute, execute, hvalue?]
    cases m.value? src <;> rfl
  | cmp r right =>
    rw [execute, execute, hvalue?]
    cases m.value? right <;> rfl
  | branch c target =>
    have hbranch (v : Word) :
        (m.withTracing on).branch c v = (m.branch c v).withTracing on := by
      unfold branch
      show (if c.holds m.flags then _ else _) = _
      split <;> rfl
    rw [execute, execute, hvalue, hbranch]
    rfl

theorem turnOf_withTracing (refusals : List Event) (fetched : Word × Byte) (op : Opcode)
    (result : Except Fault Outcome) :
    (m.withTracing on).turnOf refusals fetched op (result.map (Outcome.withTracing on)) =
      (m.turnOf refusals fetched op result).withTracing on := by
  have hannounced : (m.withTracing on).announcement op = m.announcement op := by
    cases op <;> rfl
  cases result with
  | ok outcome =>
    rw [Except.map, turnOf, hannounced]
    rfl
  | error f =>
    rw [Except.map, turnOf, hannounced]
    rfl

/-- A turn is the same whether the trace is on or off, but for the setting itself. -/
theorem turn?_withTracing : (m.withTracing on).turn? = m.turn?.map (Turn.withTracing on) := by
  cases hstatus : m.status with
  | halted =>
    have hnone : m.turn? = none := by rw [turn?, hstatus]
    have hstatus' : (m.withTracing on).status = .halted := hstatus
    have hnone' : (m.withTracing on).turn? = none := by rw [turn?, hstatus']
    rw [hnone, hnone']
    rfl
  | running =>
    have hstatus' : (m.withTracing on).status = .running := hstatus
    by_cases hip : m.ip < m.memory.codeSize
    · cases hi : (m.memory.decode m.ip).instruction? with
      | none =>
        rw [turn?_of_undecodable hstatus hip hi, turn?_of_undecodable hstatus' hip hi,
          decoded_withTracing]
        rfl
      | some i =>
        rw [turn?_of_fetched hstatus hip hi, turn?_of_fetched hstatus' hip hi,
          decoded_withTracing, execute_withTracing, Option.map_some, ← turnOf_withTracing]
        rfl
    · rw [turn?_of_outside hstatus hip, turn?_of_outside hstatus' hip]
      rfl

end Machine

@[simp] theorem Outcome.tracing_withTracing (on : Bool) (outcome : Outcome) :
    (outcome.withTracing on).machine.tracing = on := by
  cases outcome <;> rfl

/-- A program cannot turn the trace on or off. -/
theorem Machine.tracing_of_step {κ : Type} [Console κ] {m : Machine} {c : κ} {s : Step κ}
    (h : m.step? c = some s) : s.machine.tracing = m.tracing := by
  obtain ⟨turn, hturn, rfl⟩ := Option.map_eq_some_iff.1 h
  have hself : m.turn? = m.turn?.map (Turn.withTracing m.tracing) :=
    m.turn?_withTracing m.tracing
  rw [hturn] at hself
  have hserved : (turn.outcome.serve c).machine.tracing = turn.outcome.machine.tracing := by
    cases turn.outcome <;> rfl
  rw [Turn.machine_serve, hserved, Option.some.inj hself]
  exact turn.outcome.tracing_withTracing m.tracing

/-! ### The host is not seen -/

section

variable {κ₁ κ₂ : Type} [Console κ₁] [Console κ₂]

/-- Two consoles that answer a read with the same bytes are one console for the machine. -/
theorem Outcome.serve_withTracing {outcome : Outcome} {on : Bool} {c₁ : κ₁} {c₂ : κ₂}
    (h : Exchange.SameAnswers (Event.exchanges (outcome.serve c₁).events)
      (Event.exchanges ((outcome.withTracing on).serve c₂).events)) :
    ((outcome.withTracing on).serve c₂).machine = (outcome.serve c₁).machine.withTracing on ∧
      Event.exchanges ((outcome.withTracing on).serve c₂).events =
        Event.exchanges (outcome.serve c₁).events := by
  cases outcome with
  | done m => exact ⟨rfl, rfl⟩
  | write descriptor bytes m => exact ⟨rfl, rfl⟩
  | read address count m =>
    have hbytes : (Console.read c₁ count.toNat).1.bytes.take count.toNat =
        (Console.read c₂ count.toNat).1.bytes.take count.toNat := h 0 count _ _ rfl rfl
    constructor
    · show (m.withTracing on).receive address
          ((Console.read c₂ count.toNat).1.bytes.take count.toNat) = _
      rw [← hbytes]
      rfl
    · show [Exchange.read count ((Console.read c₂ count.toNat).1.bytes.take count.toNat)] = _
      rw [← hbytes]
      rfl

/-- Of the calls of a step, the trace record is none. -/
theorem Turn.exchanges_serve (turn : Turn) (c : κ₁) :
    Event.exchanges (turn.serve c).events =
      Event.exchanges turn.events ++ Event.exchanges (turn.outcome.serve c).events := by
  have htrace (records : List TraceRecord) : Event.exchanges (records.map Event.trace) = [] := by
    induction records with
    | nil => rfl
    | cons r records ih => exact ih
  rw [events_serve, Event.exchanges_append, Event.exchanges_append, htrace, List.append_nil]

end

/-! ### Runs -/

namespace Session

/-- The calls of the host so far, in order. -/
def exchanges {κ : Type} (s : Session κ) : List Exchange := Event.exchanges s.events.toList

section

variable {κ : Type} [Console κ]

/-- The session with the trace turned on or off. -/
def withTracing (s : Session κ) (on : Bool) : Session κ :=
  { s with machine := s.machine.withTracing on }

/-- The session after one more step, or as it is if the machine has halted. -/
def advance (s : Session κ) : Session κ := s.step?.getD s

/-- The session after `n` steps, before each of which the trace is turned on or off. -/
def runWith (on : Nat → Bool) : Nat → Session κ → Session κ
  | 0, s => s
  | n + 1, s => ((runWith on n s).withTracing (on n)).advance

/-- The console is what has become of `c` by what has happened. -/
def Told (c : κ) (s : Session κ) : Prop := s.console = s.events.toList.foldl Event.tell c

theorem advance_of_step {s : Session κ} {step : Step κ}
    (h : s.machine.step? s.console = some step) :
    s.advance = ⟨step.machine, step.console, s.events.appendList step.events, s.steps + 1⟩ := by
  rw [advance, step?, h]
  rfl

theorem advance_of_halted {s : Session κ} (h : s.machine.step? s.console = none) :
    s.advance = s := by
  rw [advance, step?, h]
  rfl

theorem tracing_advance (s : Session κ) : s.advance.machine.tracing = s.machine.tracing := by
  cases h : s.machine.step? s.console with
  | none => rw [advance_of_halted h]
  | some step =>
    rw [advance_of_step h]
    exact Machine.tracing_of_step h

theorem run_one (s : Session κ) : s.run 1 = s.advance := by
  rw [run, advance]
  cases s.step? <;> rfl

theorem run_succ (s : Session κ) (n : Nat) : s.run (n + 1) = (s.run n).advance := by
  rw [run_add, run_one]

/-- What holds of the machine at one point of a run, and is kept by every step, holds at every
later point. -/
theorem run_induction {P : Machine → Prop} {s : Session κ} {k n : Nat} (hk : k ≤ n)
    (h : P (s.run k).machine)
    (hstep : ∀ j < n, ∀ step, (s.run j).machine.step? (s.run j).console = some step →
      P (s.run j).machine → P step.machine) : P (s.run n).machine := by
  induction hk with
  | refl => exact h
  | @step n hk ih =>
    have hbefore := ih fun j hj => hstep j (Nat.lt_succ_of_lt hj)
    rw [run_succ]
    cases hnext : (s.run n).machine.step? (s.run n).console with
    | none => rwa [advance_of_halted hnext]
    | some step =>
      rw [advance_of_step hnext]
      exact hstep n (Nat.lt_succ_self n) step hnext hbefore

/-- One step, taken apart into the turn of the machine and the answer of the host. -/
theorem advance_of_turn {s : Session κ} {turn : Turn} (h : s.machine.turn? = some turn) :
    s.advance.machine = (turn.outcome.serve s.console).machine ∧
      s.advance.exchanges = (s.exchanges ++ Event.exchanges turn.events) ++
        Event.exchanges (turn.outcome.serve s.console).events := by
  rw [advance_of_step (Machine.step?_of_turn? h s.console)]
  refine ⟨Turn.machine_serve turn s.console, ?_⟩
  rw [List.append_assoc, ← Turn.exchanges_serve]
  simp [exchanges]

theorem exchanges_prefix_advance (s : Session κ) : s.exchanges <+: s.advance.exchanges := by
  cases h : s.machine.step? s.console with
  | none => exact ⟨[], by rw [List.append_nil, advance_of_halted h]⟩
  | some step =>
    rw [advance_of_step h]
    exact ⟨Event.exchanges step.events, by simp [exchanges]⟩

theorem exchanges_prefix_runWith (on : Nat → Bool) (s : Session κ) {k n : Nat} (h : k ≤ n) :
    (runWith on k s).exchanges <+: (runWith on n s).exchanges := by
  induction n with
  | zero =>
    obtain rfl : k = 0 := Nat.le_zero.1 h
    exact List.prefix_refl _
  | succ n ih =>
    rcases Nat.lt_or_eq_of_le h with hlt | rfl
    · exact (ih (Nat.le_of_lt_succ hlt)).trans
        (exchanges_prefix_advance ((runWith on n s).withTracing (on n)))
    · exact List.prefix_refl _

theorem Told.advance {c : κ} {s : Session κ} (hs : Told c s) : Told c s.advance := by
  cases h : s.machine.step? s.console with
  | none =>
    rw [advance_of_halted h]
    exact hs
  | some step =>
    rw [advance_of_step h]
    show step.console = (s.events.appendList step.events).toList.foldl Event.tell c
    rw [Machine.console_of_step h, hs]
    simp

/-- Whatever a run does to its console is among the events. -/
theorem told_runWith (m : Machine) (c : κ) (on : Nat → Bool) (n : Nat) :
    Told c (runWith on n (start m c)) := by
  induction n with
  | zero => rfl
  | succ n ih =>
    have hsession : Told c ((runWith on n (start m c)).withTracing (on n)) := ih
    exact hsession.advance

end

/-- Two sessions that have come to the same, as far as the program can tell. -/
structure Matches {κ₁ κ₂ : Type} (s : Session κ₁) (t : Session κ₂) : Prop where
  registers : s.machine.registers = t.machine.registers
  memory : s.machine.memory = t.machine.memory
  status : s.machine.status = t.machine.status
  exchanges : s.exchanges = t.exchanges

theorem Matches.eq_withTracing {κ₁ κ₂ : Type} {s : Session κ₁} {t : Session κ₂}
    (h : Matches s t) : t.machine = s.machine.withTracing t.machine.tracing := by
  obtain ⟨registers, memory, status, -⟩ := h
  show t.machine = ⟨s.machine.registers, s.machine.memory, s.machine.status, t.machine.tracing⟩
  rw [registers, memory, status]

section

variable {κ₁ κ₂ : Type} [Console κ₁] [Console κ₂] {s : Session κ₁} {t : Session κ₂}

/-- One step keeps two sessions together. -/
theorem Matches.advance (h : Matches s t)
    (hanswers : Exchange.SameAnswers s.advance.exchanges t.advance.exchanges) :
    Matches s.advance t.advance := by
  have hmachine := h.eq_withTracing
  generalize t.machine.tracing = on at hmachine
  have hturn : t.machine.turn? = s.machine.turn?.map (Turn.withTracing on) := by
    rw [hmachine, Machine.turn?_withTracing]
  cases hs : s.machine.turn? with
  | none =>
    rw [hs] at hturn
    rw [advance_of_halted (Machine.step?_of_turn?_eq_none hs s.console),
      advance_of_halted (Machine.step?_of_turn?_eq_none hturn t.console)]
    exact h
  | some turn =>
    rw [hs] at hturn
    obtain ⟨hmachine₁, hcalls₁⟩ := advance_of_turn hs
    obtain ⟨hmachine₂, hcalls₂⟩ := advance_of_turn hturn
    -- the turns have the same events, so the answers differ, if at all, in what was served
    have hevents : Event.exchanges (turn.withTracing on).events = Event.exchanges turn.events :=
      rfl
    rw [← h.exchanges, hevents] at hcalls₂
    rw [hcalls₁, hcalls₂] at hanswers
    obtain ⟨hserved, hexchanges⟩ := Outcome.serve_withTracing hanswers.of_append
    have hmachines : t.advance.machine = s.advance.machine.withTracing on := by
      rw [hmachine₁, hmachine₂]
      exact hserved
    have hcalls : s.advance.exchanges = t.advance.exchanges := by
      rw [hcalls₁, hcalls₂]
      exact congrArg _ hexchanges.symm
    exact ⟨by rw [hmachines]; rfl, by rw [hmachines]; rfl, by rw [hmachines]; rfl, hcalls⟩

/-- A machine sees nothing of its host but the bytes that it reads. Two runs of an image, with any
consoles and with the trace turned on and off at any time, are at the same registers, memory and
status after every step, and have made the same calls, as long as corresponding reads have brought
the same bytes. The calls are all that the consoles have got, apart from trace records. -/
theorem matches_of_sameAnswers (image : Image) (c₁ : κ₁) (c₂ : κ₂) (on₁ on₂ : Nat → Bool) (n : Nat)
    (h : Exchange.SameAnswers (runWith on₁ n (start (.ofImage image) c₁)).exchanges
      (runWith on₂ n (start (.ofImage image) c₂)).exchanges) :
    (∀ k ≤ n, Matches (runWith on₁ k (start (.ofImage image) c₁))
      (runWith on₂ k (start (.ofImage image) c₂))) ∧
    Told c₁ (runWith on₁ n (start (.ofImage image) c₁)) ∧
    Told c₂ (runWith on₂ n (start (.ofImage image) c₂)) := by
  refine ⟨?_, told_runWith _ c₁ on₁ n, told_runWith _ c₂ on₂ n⟩
  intro k hk
  have hanswers := h.of_prefix (exchanges_prefix_runWith on₁ _ hk)
    (exchanges_prefix_runWith on₂ _ hk)
  clear h hk
  induction k with
  | zero => exact ⟨rfl, rfl, rfl, rfl⟩
  | succ k ih =>
    have hmatches := ih (hanswers.of_prefix (exchanges_prefix_runWith on₁ _ (Nat.le_succ k))
      (exchanges_prefix_runWith on₂ _ (Nat.le_succ k)))
    have htraced : Matches ((runWith on₁ k (start (.ofImage image) c₁)).withTracing (on₁ k))
        ((runWith on₂ k (start (.ofImage image) c₂)).withTracing (on₂ k)) :=
      ⟨hmatches.registers, hmatches.memory, hmatches.status, hmatches.exchanges⟩
    exact htraced.advance hanswers

end

end Session

/-- A console with a given input that refuses every write and counts the trace records. -/
structure Refuser where
  input : List Byte
  records : Nat

instance : Console Refuser where
  write r _ _ := (some .noSpace, r)
  read r count := (⟨r.input.take count, some .notText⟩, { r with input := r.input.drop count })
  trace r _ := { r with records := r.records + 1 }

/-- A program that reads two bytes and writes them. -/
def echoImage : Image where
  entry := 0
  code := [1, 18, 0, 2, 0, 0, 0, 1, 18, 2, 30, 0, 0, 0, 1, 18, 3, 2, 0, 0, 0, 11, 1, 18, 0, 1, 0, 0,
    0, 11]
  data := [0, 0]

/-- The write that is refused is made all the same, and the third byte is never asked for. -/
theorem Session.matches_of_sameAnswers_echo :
    Event.exchanges (runWith (fun k => k % 2 == 0) 7
        (start (.ofImage echoImage) (Refuser.mk [0x68, 0x69] 0))).events.toList =
      [.read 2 [0x68, 0x69], .write .stdout [0x68, 0x69]] ∧
    Matches (runWith (fun _ => true) 7
        (start (.ofImage echoImage) (Buffer.ofInput [0x68, 0x69, 0x21])))
      (runWith (fun k => k % 2 == 0) 7
        (start (.ofImage echoImage) (Refuser.mk [0x68, 0x69] 0))) := by
  have hbuffer : (runWith (fun _ => true) 7
      (start (.ofImage echoImage) (Buffer.ofInput [0x68, 0x69, 0x21]))).exchanges =
      [.read 2 [0x68, 0x69], .write .stdout [0x68, 0x69]] := by decide +kernel
  have hrefuser : (runWith (fun k => k % 2 == 0) 7
      (start (.ofImage echoImage) (Refuser.mk [0x68, 0x69] 0))).exchanges =
      [.read 2 [0x68, 0x69], .write .stdout [0x68, 0x69]] := by decide +kernel
  obtain ⟨hmatches, -, -⟩ := matches_of_sameAnswers echoImage (Buffer.ofInput [0x68, 0x69, 0x21])
    (Refuser.mk [0x68, 0x69] 0) (fun _ => true) (fun k => k % 2 == 0) 7 (by
      rw [hbuffer, hrefuser]
      exact Exchange.sameAnswers_refl _)
  exact ⟨hrefuser, hmatches 7 (Nat.le_refl 7)⟩

end RegisterMachine
