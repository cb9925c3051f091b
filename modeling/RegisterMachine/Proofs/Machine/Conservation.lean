import RegisterMachine.Proofs.Machine.Fetching
import RegisterMachine.Proofs.Machine.Isolation

/-!
# RegisterMachine.Proofs.Machine.Conservation

Where the input goes and where the output comes from, on a console in memory that
may be fed between the steps. No byte of the input is lost or given twice, and
what is written is what has stood in the memory (`Session.conservation`).

What a step is about to do is said of the machine before it, by the byte at `IP`
and the registers (`Session.Serves`), and what it has done is looked up in the
machine after it. Neither speaks of the events of the step, but for its faults.

A step has one of three forms (`Session.Deals`): it reads input, it writes output,
or it does not touch the streams of the console. The account of a step
(`Session.Accounts`) is read off these, and that of a run is the sum of those of
its steps.
-/

namespace RegisterMachine

/-! ### What a step is about to do -/

/-- The streams of the two consoles are the same. -/
structure Buffer.SameStreams (b c : Buffer) : Prop where
  input : b.input = c.input
  stdout : b.stdout = c.stdout
  stderr : b.stderr = c.stderr

/-- The event is a fault. -/
def Event.isFault : Event → Bool
  | fault _ _ => true
  | _ => false

/-- A fault has been raised in the step. -/
def Step.faulted {κ : Type} (s : Step κ) : Bool := s.events.any Event.isFault

/-- The machine is running, and the byte at `IP` is that of a request. -/
def Machine.AtSyscall (m : Machine) : Prop :=
  m.status = .running ∧ m.ip < m.memory.codeSize ∧
    m.memory.bytes[m.ip.toNat]? = some Opcode.syscall.toByte

instance (m : Machine) : Decidable m.AtSyscall :=
  inferInstanceAs (Decidable (_ ∧ _ ∧ _))

namespace Session

/-- The next step is the request `id`, and it does not fault. -/
def Serves (s : Session Buffer) (id : Syscall) : Prop :=
  s.machine.AtSyscall ∧ Syscall.ofId? (s.machine.get .r1) = some id ∧
    ∀ step ∈ s.machine.step? s.console, step.faulted = false

instance (s : Session Buffer) (id : Syscall) : Decidable (s.Serves id) :=
  inferInstanceAs (Decidable (_ ∧ _ ∧ _))

/-- The next step reads from the standard input. -/
def Reads (s : Session Buffer) : Prop := s.Serves .read ∧ s.machine.get .r2 = 0

instance (s : Session Buffer) : Decidable s.Reads := inferInstanceAs (Decidable (_ ∧ _))

/-- The block that the next step delivers, looked up where it was asked for: as many bytes as `r1`
says, in the machine after the step. -/
def delivered (s : Session Buffer) : List Byte :=
  if s.Reads then
    s.advance.machine.memory.slice (s.machine.get .r3).toNat (s.advance.machine.get .r1).toNat
  else []

/-- The bytes that the next step writes, if it does so to a descriptor of the wanted kind. -/
def written (wanted : Word → Bool) (s : Session Buffer) : List Byte :=
  if s.Serves .write ∧ wanted (s.machine.get .r2) = true then
    s.machine.memory.slice (s.machine.get .r3).toNat (s.machine.get .r4).toNat
  else []

/-- The session with more input. -/
def feed (s : Session Buffer) (bytes : List Byte) : Session Buffer :=
  { s with console := s.console.feed bytes }

/-- The session after as many steps as there are feeds, each of which follows its step. -/
def fed (s : Session Buffer) : List (List Byte) → Session Buffer
  | [] => s
  | bytes :: feeds => fed (s.advance.feed bytes) feeds

/-- The sessions before each of these steps. -/
def course (s : Session Buffer) : List (List Byte) → List (Session Buffer)
  | [] => []
  | bytes :: feeds => s :: course (s.advance.feed bytes) feeds

/-- The block that the next step delivers is as it should be, and so is the place of it. -/
structure Places (s : Session Buffer) : Prop where
  /-- It is as long as was asked for, unless the input ends before. -/
  length : s.delivered.length = min (s.machine.get .r4).toNat s.console.input.length
  result : (s.advance.machine.get .r1).toNat = s.delivered.length
  block : s.advance.machine.memory.slice (s.machine.get .r3).toNat s.delivered.length = s.delivered
  /-- All other bytes of the memory are as before. -/
  outside : ∀ i : Nat, i < (s.machine.get .r3).toNat ∨
    (s.machine.get .r3).toNat + s.delivered.length ≤ i →
      s.advance.machine.memory.bytes[i]? = s.machine.memory.bytes[i]?

/-- The account of the next step. -/
structure Accounts (s : Session Buffer) : Prop where
  /-- A request to read or to write is served if all of its bytes are in the memory. -/
  served : s.machine.AtSyscall → ∀ id : Syscall, id = .read ∨ id = .write →
    Syscall.ofId? (s.machine.get .r1) = some id →
      (s.Serves id ↔ s.machine.memory.Inside (s.machine.get .r3).toNat (s.machine.get .r4).toNat)
  /-- What was left of the input is what is delivered and what is left then. -/
  input : s.console.input = s.delivered ++ s.advance.console.input
  /-- What is written is put behind what has been written. -/
  stdout : s.advance.console.stdout.toList =
    s.console.stdout.toList ++ s.written fun descriptor => descriptor != 2
  stderr : s.advance.console.stderr.toList =
    s.console.stderr.toList ++ s.written fun descriptor => descriptor == 2
  places : s.Reads → s.Places
  size : s.advance.machine.memory.size = s.machine.memory.size
  /-- No other step touches the three streams. -/
  other : ¬s.Reads → ¬s.Serves .write → s.advance.console.SameStreams s.console

end Session

/-! ### The forms of a step -/

namespace Machine

variable {m : Machine}

theorem AtSyscall.decode (h : m.AtSyscall) :
    m.memory.decode m.ip = ⟨Opcode.syscall.toByte, some .syscall, Cursor.skip ⟨m.ip, []⟩ 1⟩ := by
  obtain ⟨-, hip, hbyte⟩ := h
  have hcode : m.memory.CodeAt m.ip.toNat (Instruction.syscall : Instruction Word).encode :=
    Memory.codeAt_singleton (UInt32.lt_iff_toNat_lt.1 hip) hbyte
  rw [Memory.decode_of_codeAt hcode]
  rfl

/-- No fetch is refused to a request, whose only byte is at `IP`. -/
theorem AtSyscall.refusals_eq_nil (h : m.AtSyscall) : m.refusals = [] := by
  unfold refusals
  rw [h.decode]
  rfl

/-- A request is decoded without a fault. -/
theorem AtSyscall.turn? (h : m.AtSyscall) :
    m.turn? = some (m.decoded.turnOf [] (m.ip, Opcode.syscall.toByte) .syscall
      m.decoded.request) := by
  have hinstruction : (m.memory.decode m.ip).instruction? = some .syscall := by rw [h.decode]
  rw [turn?_of_fetched h.1 h.2.1 hinstruction, h.refusals_eq_nil, h.decode]
  rfl

/-- Only at a request is the host asked for something. -/
theorem exists_done_of_not_atSyscall {turn : Turn} (h : m.turn? = some turn)
    (hat : ¬m.AtSyscall) : ∃ after, turn.outcome = .done after := by
  obtain ⟨hrun, hturn⟩ := turns_of_turn? h
  cases hturn with
  | outside hip => exact ⟨_, rfl⟩
  | undecodable hip hi => exact ⟨_, rfl⟩
  | @fetched i hip hi =>
    have hsyscall : i ≠ .syscall := by
      rintro rfl
      refine hat ⟨hrun, hip, ?_⟩
      rw [Memory.opcode_decode hip, Memory.opcode_of_decode hip hi]
      rfl
    cases hresult : m.decoded.execute m.registers.leftValue i with
    | error f => exact ⟨_, rfl⟩
    | ok outcome =>
      cases commits_of_execute hresult with
      | syscall hg => exact absurd rfl hsyscall
      | _ => exact ⟨_, rfl⟩

/-- A request is made with the words that the registers have before its byte is fetched. -/
theorem request_decoded (m : Machine) :
    m.decoded.request =
      match Syscall.ofId? (m.get .r1) with
      | none => .error .badInstruction
      | some .exit => .ok (.done m.decoded.halt)
      | some .write =>
        if m.memory.Inside (m.get .r3).toNat (m.get .r4).toNat then
          .ok (.write (m.get .r2) (m.memory.slice (m.get .r3).toNat (m.get .r4).toNat)
            (m.decoded.set .r1 (m.get .r4)))
        else .error .readOutOfBounds
      | some .read =>
        if m.memory.Inside (m.get .r3).toNat (m.get .r4).toNat then
          if m.get .r2 = 0 then .ok (.read (m.get .r3) (m.get .r4) m.decoded)
          else .ok (.done (m.decoded.set .r1 0))
        else .error .writeOutOfBounds
      | some .openFile => .ok (.done (m.decoded.set .r1 0xFFFFFFFF)) := by
  have hget {r : Register} (hip : r ≠ .ip) (hflags : r ≠ .rF) : m.decoded.get r = m.get r :=
    m.get_advance_of_ne _ hip hflags
  have hid : m.decoded.get .r1 = m.get .r1 := hget (by decide) (by decide)
  have hdescriptor : m.decoded.get .r2 = m.get .r2 := hget (by decide) (by decide)
  have haddress : m.decoded.get .r3 = m.get .r3 := hget (by decide) (by decide)
  have hcount : m.decoded.get .r4 = m.get .r4 := hget (by decide) (by decide)
  cases hsyscall : Syscall.ofId? (m.get .r1) with
  | none => simp only [request, hid, hsyscall]
  | some id =>
    cases id <;> simp only [request, hid, hsyscall, hdescriptor, haddress, hcount, memory_decoded]

end Machine

theorem Step.faulted_iff {κ : Type} {s : Step κ} :
    s.faulted = true ↔ ∃ f ip, Event.fault f ip ∈ s.events := by
  rw [faulted, List.any_eq_true]
  constructor
  · rintro ⟨e, he, hfault⟩
    cases e with
    | fault f ip => exact ⟨f, ip, he⟩
    | _ => cases hfault
  · rintro ⟨f, ip, he⟩
    exact ⟨_, he, rfl⟩

/-- Where no fetch is refused, the only fault is that of the instruction. -/
theorem Machine.faulted_turnOf {κ : Type} [Console κ] (m : Machine) (fetched : Word × Byte)
    (op : Opcode) (result : Except Fault Outcome) (c : κ) :
    ((m.turnOf [] fetched op result).serve c).faulted = true ↔ ∃ f, result = .error f := by
  rw [Step.faulted_iff]
  constructor
  · rintro ⟨f, ip, hf⟩
    obtain hf | ⟨hresult, -⟩ := fault_mem_turnOf.1 (Turn.fault_mem_serve.1 hf)
    · cases hf
    · exact ⟨f, hresult⟩
  · rintro ⟨f, rfl⟩
    exact ⟨f, m.ip, Turn.fault_mem_serve.2 (fault_mem_turnOf.2 (Or.inr ⟨rfl, rfl⟩))⟩

/-- Of what a step does to a console, the streams only see the answer to the request. -/
theorem Turn.sameStreams_serve (turn : Turn) (b : Buffer) :
    (turn.serve b).console.SameStreams (turn.outcome.serve b).console := by
  rw [Turn.console_serve]
  cases turn.record? (turn.outcome.serve b).machine <;> exact ⟨rfl, rfl, rfl⟩

namespace Session

variable {s : Session Buffer}

theorem sameStreams_advance {turn : Turn} (h : s.machine.turn? = some turn) :
    s.advance.console.SameStreams (turn.outcome.serve s.console).console := by
  rw [advance_of_step (Machine.step?_of_turn? h s.console)]
  exact turn.sameStreams_serve s.console

/-- A request is served exactly if it comes to something else than a fault. -/
theorem serves_iff (hat : s.machine.AtSyscall) {id : Syscall} :
    s.Serves id ↔ Syscall.ofId? (s.machine.get .r1) = some id ∧
      ∃ outcome, s.machine.decoded.request = .ok outcome := by
  have hfaulted := Machine.faulted_turnOf s.machine.decoded
    (s.machine.ip, Opcode.syscall.toByte) .syscall s.machine.decoded.request s.console
  have hstep : s.machine.step? s.console = some ((s.machine.decoded.turnOf []
      (s.machine.ip, Opcode.syscall.toByte) .syscall s.machine.decoded.request).serve
        s.console) := Machine.step?_of_turn? hat.turn? s.console
  unfold Serves
  rw [hstep]
  simp only [Option.mem_some_iff, forall_eq', hat, true_and, Bool.eq_false_iff, ne_eq, hfaulted]
  cases s.machine.decoded.request <;> simp

theorem serves_iff_inside (hat : s.machine.AtSyscall) {id : Syscall} (h : id = .read ∨ id = .write)
    (hid : Syscall.ofId? (s.machine.get .r1) = some id) :
    s.Serves id ↔
      s.machine.memory.Inside (s.machine.get .r3).toNat (s.machine.get .r4).toNat := by
  have hrequest := s.machine.request_decoded
  rw [hid] at hrequest
  rw [serves_iff hat, hrequest]
  by_cases hin : s.machine.memory.Inside (s.machine.get .r3).toNat (s.machine.get .r4).toNat
  · obtain rfl | rfl := h
    · by_cases hinput : s.machine.get .r2 = 0 <;> simp [hid, hin, hinput]
    · simp [hid, hin]
  · obtain rfl | rfl := h <;> simp [hin]

/-- What the next step can do to the streams of the console. -/
inductive Deals (s : Session Buffer) : Prop
  | reads : s.Reads → s.machine.memory.Inside (s.machine.get .r3).toNat (s.machine.get .r4).toNat →
      s.advance.machine = s.machine.decoded.receive (s.machine.get .r3)
        (s.console.input.take (s.machine.get .r4).toNat) →
      s.advance.console.SameStreams
        { s.console with input := s.console.input.drop (s.machine.get .r4).toNat } →
      Deals s
  | writes : s.Serves .write →
      s.advance.console.SameStreams (Console.write s.console (.ofDescriptor (s.machine.get .r2))
        (s.machine.memory.slice (s.machine.get .r3).toNat (s.machine.get .r4).toNat)).2 →
      Deals s
  | neither : ¬s.Reads → ¬s.Serves .write → s.advance.console.SameStreams s.console → Deals s

theorem sameStreams_of_done {turn : Turn} {after : Machine} (h : s.machine.turn? = some turn)
    (hdone : turn.outcome = .done after) : s.advance.console.SameStreams s.console := by
  have hsame := sameStreams_advance h
  rwa [hdone] at hsame

theorem not_serves_of_fault {id : Syscall} {f : Fault} (hat : s.machine.AtSyscall)
    (h : s.machine.decoded.request = .error f) : ¬s.Serves id := by
  rw [serves_iff hat, h]
  rintro ⟨-, outcome, hok⟩
  cases hok

/-- A request that asks the host for nothing touches no stream. -/
theorem neither_of_request (hat : s.machine.AtSyscall) (hread : ¬s.Reads)
    (hwrite : ¬s.Serves .write)
    (hdone : ∀ outcome, s.machine.decoded.request = .ok outcome → ∃ after, outcome = .done after) :
    s.Deals := by
  have hturn := hat.turn?
  refine .neither hread hwrite ?_
  cases hresult : s.machine.decoded.request with
  | error f =>
    rw [hresult] at hturn
    exact sameStreams_of_done hturn rfl
  | ok outcome =>
    obtain ⟨after, rfl⟩ := hdone outcome hresult
    rw [hresult] at hturn
    exact sameStreams_of_done hturn rfl

theorem deals_of_write (hat : s.machine.AtSyscall)
    (hid : Syscall.ofId? (s.machine.get .r1) = some .write) : s.Deals := by
  have hrequest := s.machine.request_decoded
  have hread : ¬s.Reads := fun h => by cases hid.symm.trans h.1.2.1
  rw [hid] at hrequest
  dsimp only at hrequest
  by_cases hin : s.machine.memory.Inside (s.machine.get .r3).toNat (s.machine.get .r4).toNat
  · rw [if_pos hin] at hrequest
    have hturn := hat.turn?
    rw [hrequest] at hturn
    exact .writes ((serves_iff hat).2 ⟨hid, _, hrequest⟩) (sameStreams_advance hturn)
  · rw [if_neg hin] at hrequest
    refine neither_of_request hat hread (not_serves_of_fault hat hrequest) ?_
    intro outcome h
    cases hrequest.symm.trans h

theorem deals_of_read (hat : s.machine.AtSyscall)
    (hid : Syscall.ofId? (s.machine.get .r1) = some .read) : s.Deals := by
  have hrequest := s.machine.request_decoded
  have hwrite : ¬s.Serves .write := fun h => by cases hid.symm.trans h.2.1
  rw [hid] at hrequest
  dsimp only at hrequest
  by_cases hin : s.machine.memory.Inside (s.machine.get .r3).toNat (s.machine.get .r4).toNat
  · rw [if_pos hin] at hrequest
    by_cases hinput : s.machine.get .r2 = 0
    · rw [if_pos hinput] at hrequest
      have hturn := hat.turn?
      rw [hrequest] at hturn
      refine .reads ⟨(serves_iff hat).2 ⟨hid, _, hrequest⟩, hinput⟩ hin ?_
        (sameStreams_advance hturn)
      rw [(advance_of_turn hturn).1]
      show s.machine.decoded.receive _ ((s.console.input.take _).take _) = _
      rw [List.take_take, Nat.min_self]
    · rw [if_neg hinput] at hrequest
      refine neither_of_request hat (fun h => hinput h.2) hwrite ?_
      intro outcome h
      cases hrequest.symm.trans h
      exact ⟨_, rfl⟩
  · rw [if_neg hin] at hrequest
    refine neither_of_request hat (fun h => not_serves_of_fault hat hrequest h.1) hwrite ?_
    intro outcome h
    cases hrequest.symm.trans h

theorem deals (s : Session Buffer) : s.Deals := by
  by_cases hat : s.machine.AtSyscall
  · have hrequest := s.machine.request_decoded
    cases hid : Syscall.ofId? (s.machine.get .r1) with
    | none =>
      rw [hid] at hrequest
      refine neither_of_request hat (fun h => not_serves_of_fault hat hrequest h.1)
        (not_serves_of_fault hat hrequest) ?_
      intro outcome h
      cases hrequest.symm.trans h
    | some id =>
      rw [hid] at hrequest
      cases id with
      | write => exact deals_of_write hat hid
      | read => exact deals_of_read hat hid
      | _ =>
        refine neither_of_request hat (fun h => by cases hid.symm.trans h.1.2.1)
          (fun h => by cases hid.symm.trans h.2.1) ?_
        intro outcome h
        cases hrequest.symm.trans h
        exact ⟨_, rfl⟩
  · refine .neither (fun h => hat h.1.1) (fun h => hat h.1) ?_
    cases hturn : s.machine.turn? with
    | none =>
      rw [advance_of_halted (Machine.step?_of_turn?_eq_none hturn s.console)]
      exact ⟨rfl, rfl, rfl⟩
    | some turn =>
      obtain ⟨after, hdone⟩ := Machine.exists_done_of_not_atSyscall hturn hat
      exact sameStreams_of_done hturn hdone

/-! ### The account of a step -/

theorem size_advance (s : Session Buffer) :
    s.advance.machine.memory.size = s.machine.memory.size := by
  cases h : s.machine.step? s.console with
  | none => rw [advance_of_halted h]
  | some step =>
    rw [advance_of_step h]
    exact (Machine.sameExtent_of_step h).size

theorem delivered_of_not_reads (h : ¬s.Reads) : s.delivered = [] := if_neg h

theorem written_of_not_serves (h : ¬s.Serves .write) (wanted : Word → Bool) :
    s.written wanted = [] :=
  if_neg fun hboth => h hboth.1

/-- Bytes that the machine receives are the block that is delivered. -/
theorem places_of_receive {block : List Byte} (h : s.Reads)
    (hin : s.machine.memory.Inside (s.machine.get .r3).toNat (s.machine.get .r4).toNat)
    (hlen : block.length = min (s.machine.get .r4).toNat s.console.input.length)
    (hmachine : s.advance.machine = s.machine.decoded.receive (s.machine.get .r3) block) :
    s.delivered = block ∧ s.Places := by
  have hcount : (s.machine.get .r4).toNat < 4294967296 := (s.machine.get .r4).toNat_lt
  have hle : block.length ≤ (s.machine.get .r4).toNat := hlen ▸ Nat.min_le_left _ _
  have hinside : s.machine.memory.Inside (s.machine.get .r3).toNat block.length := by
    unfold Memory.Inside at hin ⊢
    omega
  have hresult : (s.advance.machine.get .r1).toNat = block.length := by
    rw [hmachine]
    show ((Machine.set _ .r1 (UInt32.ofNat block.length)).get .r1).toNat = block.length
    rw [Machine.get_set_self, UInt32.toNat_ofNat_of_lt' (Nat.lt_of_le_of_lt hle hcount)]
  have hmemory : s.advance.machine.memory =
      s.machine.memory.write (s.machine.get .r3).toNat block := by
    rw [hmachine]
    show s.machine.decoded.memory.write _ _ = _
    rw [Machine.memory_decoded]
  have hdelivered : s.delivered = block := by
    rw [delivered, if_pos h, hresult, hmemory, Memory.slice_write hinside]
  refine ⟨hdelivered, ?_⟩
  constructor
  · rw [hdelivered, hlen]
  · rw [hdelivered, hresult]
  · rw [hdelivered, hmemory, Memory.slice_write hinside]
  · intro i hi
    rw [hdelivered] at hi
    rw [hmemory, Memory.getElem?_write_of_outside hi]

theorem accounts_of_reads (h : s.Reads)
    (hin : s.machine.memory.Inside (s.machine.get .r3).toNat (s.machine.get .r4).toNat)
    (hmachine : s.advance.machine = s.machine.decoded.receive (s.machine.get .r3)
      (s.console.input.take (s.machine.get .r4).toNat))
    (hconsole : s.advance.console.SameStreams
      { s.console with input := s.console.input.drop (s.machine.get .r4).toNat }) :
    s.Accounts := by
  have hwrite : ¬s.Serves .write := fun h' => by cases h.1.2.1.symm.trans h'.2.1
  obtain ⟨hdelivered, hplaces⟩ := places_of_receive h hin List.length_take hmachine
  exact
    { served := fun hat _ => serves_iff_inside hat
      input := by rw [hdelivered, hconsole.input, List.take_append_drop]
      stdout := by rw [hconsole.stdout, written_of_not_serves hwrite, List.append_nil]
      stderr := by rw [hconsole.stderr, written_of_not_serves hwrite, List.append_nil]
      places := fun _ => hplaces
      size := s.size_advance
      other := fun hread => absurd h hread }

theorem accounts_of_writes (h : s.Serves .write)
    (hconsole : s.advance.console.SameStreams (Console.write s.console
      (.ofDescriptor (s.machine.get .r2))
        (s.machine.memory.slice (s.machine.get .r3).toNat (s.machine.get .r4).toNat)).2) :
    s.Accounts := by
  have hread : ¬s.Reads := fun h' => by cases h.2.1.symm.trans h'.1.2.1
  have hwritten (wanted : Word → Bool) : s.written wanted =
      if wanted (s.machine.get .r2) then
        s.machine.memory.slice (s.machine.get .r3).toNat (s.machine.get .r4).toNat
      else [] := by
    simp only [written, h, true_and]
  generalize s.machine.memory.slice (s.machine.get .r3).toNat (s.machine.get .r4).toNat = bytes
    at hconsole hwritten
  have hstreams : s.advance.console.input = s.console.input ∧
      s.advance.console.stdout.toList =
        s.console.stdout.toList ++ (s.written fun descriptor => descriptor != 2) ∧
      s.advance.console.stderr.toList =
        s.console.stderr.toList ++ (s.written fun descriptor => descriptor == 2) := by
    rw [hconsole.input, hconsole.stdout, hconsole.stderr, hwritten, hwritten]
    by_cases herror : s.machine.get .r2 = 2
    · simp [Stream.ofDescriptor, herror, Console.write]
    · simp [Stream.ofDescriptor, herror, Console.write]
  exact
    { served := fun hat _ => serves_iff_inside hat
      input := by rw [delivered_of_not_reads hread, hstreams.1, List.nil_append]
      stdout := hstreams.2.1
      stderr := hstreams.2.2
      places := fun h' => absurd h' hread
      size := s.size_advance
      other := fun _ hwrite => absurd h hwrite }

theorem accounts_of_neither (hread : ¬s.Reads) (hwrite : ¬s.Serves .write)
    (hconsole : s.advance.console.SameStreams s.console) : s.Accounts where
  served hat _ := serves_iff_inside hat
  input := by rw [delivered_of_not_reads hread, hconsole.input, List.nil_append]
  stdout := by rw [hconsole.stdout, written_of_not_serves hwrite, List.append_nil]
  stderr := by rw [hconsole.stderr, written_of_not_serves hwrite, List.append_nil]
  places h := absurd h hread
  size := s.size_advance
  other _ _ := hconsole

theorem accounts (s : Session Buffer) : s.Accounts := by
  cases s.deals with
  | reads h hin hmachine hconsole => exact accounts_of_reads h hin hmachine hconsole
  | writes h hconsole => exact accounts_of_writes h hconsole
  | neither hread hwrite hconsole => exact accounts_of_neither hread hwrite hconsole

/-! ### The account of a run -/

theorem input_fed (s : Session Buffer) (feeds : List (List Byte)) :
    s.console.input ++ feeds.flatten =
      (s.course feeds).flatMap delivered ++ (s.fed feeds).console.input := by
  induction feeds generalizing s with
  | nil => simp [course, fed]
  | cons bytes feeds ih =>
    have hrest := ih (s.advance.feed bytes)
    have hfeed : (s.advance.feed bytes).console.input = s.advance.console.input ++ bytes := rfl
    rw [hfeed] at hrest
    rw [course, fed, List.flatMap_cons, List.flatten_cons, s.accounts.input]
    simp only [List.append_assoc] at hrest ⊢
    rw [hrest]

/-- What a console keeps, and what no feed touches, is what the steps have put behind it. -/
theorem output_fed (view : Buffer → List Byte) (part : Session Buffer → List Byte)
    (hstep : ∀ s, view s.advance.console = view s.console ++ part s)
    (hfeed : ∀ b bytes, view (b.feed bytes) = view b) (s : Session Buffer)
    (feeds : List (List Byte)) :
    view (s.fed feeds).console = view s.console ++ (s.course feeds).flatMap part := by
  induction feeds generalizing s with
  | nil => simp [course, fed]
  | cons bytes feeds ih =>
    have hnext : view (s.advance.feed bytes).console = view s.advance.console := hfeed _ _
    rw [course, fed, ih, hnext, hstep, List.flatMap_cons, List.append_assoc]

/-- No byte of the input is lost or given twice, and the output is what was written. Whatever
input is given in the beginning and after each step of a run, all of it is what the reads have
delivered, in order, and what is left; the standard output and the standard error are what was
written to them, in order; and every step of the run `Accounts` for what it does. -/
theorem conservation (image : Image) (input : List Byte) (feeds : List (List Byte)) :
    let s := start (.ofImage image) (Buffer.ofInput input)
    input ++ feeds.flatten =
        (s.course feeds).flatMap delivered ++ (s.fed feeds).console.input ∧
      (s.fed feeds).console.stdout.toList =
        (s.course feeds).flatMap (written fun descriptor => descriptor != 2) ∧
      (s.fed feeds).console.stderr.toList =
        (s.course feeds).flatMap (written fun descriptor => descriptor == 2) ∧
      ∀ before ∈ s.course feeds, before.Accounts := by
  intro s
  have hstdout := output_fed (fun b => b.stdout.toList) _ (fun s => s.accounts.stdout)
    (fun _ _ => rfl) s feeds
  have hstderr := output_fed (fun b => b.stderr.toList) _ (fun s => s.accounts.stderr)
    (fun _ _ => rfl) s feeds
  exact ⟨s.input_fed feeds, hstdout, hstderr, fun before _ => before.accounts⟩

/-- The second byte arrives after the first step, together with one that nobody asks for. -/
example :
    let s := start (.ofImage echoImage) (Buffer.ofInput [0x68])
    let feeds := [[0x69, 0x21], [], [], [], [], []]
    (s.course feeds).map delivered = [[], [], [], [0x68, 0x69], [], []] ∧
      (s.fed feeds).console.input = [0x21] ∧ (s.fed feeds).console.stdout = #[0x68, 0x69] := by
  decide +kernel

end Session

end RegisterMachine
