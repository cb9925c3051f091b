import RegisterMachine.Machine.Step

/-!
# RegisterMachine.Proofs.Machine.Turn

What a step can do. `Machine.turn?_of_fetched` and its two companions take a
turn apart into its three forms: there is no code at `IP`, there is no
instruction, or there is one and it is carried out. Serving the turn adds to it
what the host has answered, which is neither a fault nor, but for `r1` and the
memory, seen by the machine.
-/

namespace RegisterMachine

/-! ### Serving -/

namespace Outcome

/-- The machine of an outcome, before the host has answered. -/
def machine : Outcome → Machine
  | done m => m
  | write _ _ m => m
  | read _ _ m => m

variable {κ : Type} [Console κ]

/-- The host's answer reaches no register but `r1`. -/
theorem get_machine_serve_of_ne (outcome : Outcome) (c : κ) {r : Register} (h : r ≠ .r1) :
    (outcome.serve c).machine.get r = outcome.machine.get r := by
  cases outcome with
  | done m => rfl
  | write descriptor bytes m => rfl
  | read address count m => exact Machine.get_set_of_ne _ _ h

@[simp] theorem flags_machine_serve (outcome : Outcome) (c : κ) :
    (outcome.serve c).machine.flags = outcome.machine.flags :=
  congrArg Flags.mk (outcome.get_machine_serve_of_ne c (by decide))

@[simp] theorem ip_machine_serve (outcome : Outcome) (c : κ) :
    (outcome.serve c).machine.ip = outcome.machine.ip :=
  outcome.get_machine_serve_of_ne c (by decide)

@[simp] theorem status_machine_serve (outcome : Outcome) (c : κ) :
    (outcome.serve c).machine.status = outcome.machine.status := by
  cases outcome <;> rfl

/-- The host cannot raise a fault. -/
theorem fault_not_mem_serve (outcome : Outcome) (c : κ) (f : Fault) (ip : Word) :
    Event.fault f ip ∉ (outcome.serve c).events := by
  cases outcome <;> simp [serve]

end Outcome

namespace Turn

variable {κ : Type} [Console κ]

@[simp] theorem machine_serve (turn : Turn) (c : κ) :
    (turn.serve c).machine = (turn.outcome.serve c).machine := by
  unfold serve
  dsimp only
  split <;> rfl

/-- A console gets the trace record after the request was answered. -/
theorem console_serve (turn : Turn) (c : κ) :
    (turn.serve c).console =
      (turn.record? (turn.outcome.serve c).machine).toList.foldl Console.trace
        (turn.outcome.serve c).console := by
  unfold serve
  dsimp only
  split <;> rename_i hrecord <;> rw [hrecord] <;> rfl

/-- The events of a step are those of its turn, then the answer, then the trace record. -/
theorem events_serve (turn : Turn) (c : κ) :
    (turn.serve c).events = turn.events ++ (turn.outcome.serve c).events ++
      (turn.record? (turn.outcome.serve c).machine).toList.map Event.trace := by
  unfold serve
  dsimp only
  split <;> rename_i hrecord <;> simp [hrecord]

/-- The faults of a step are those that its turn has raised. -/
theorem fault_mem_serve {turn : Turn} {c : κ} {f : Fault} {ip : Word} :
    Event.fault f ip ∈ (turn.serve c).events ↔ Event.fault f ip ∈ turn.events := by
  rw [events_serve]
  simp [turn.outcome.fault_not_mem_serve c f ip]

end Turn

/-! ### Turns -/

namespace Machine

/-- What is announced before an operation is carried out: a request. -/
def announcement (m : Machine) : Opcode → List Event
  | .syscall => [m.requestEvent]
  | _ => []

/-- The turn in which an operation is carried out on `m` and comes to `result`. -/
def turnOf (m : Machine) (refusals : List Event) (fetched : Word × Byte) (op : Opcode)
    (result : Except Fault Outcome) : Turn :=
  match result with
  | .ok outcome =>
    { events := refusals ++ m.announcement op, outcome, fetched := some fetched }
  | .error f =>
    { events := refusals ++ m.announcement op ++ [.fault f m.ip]
      outcome := .done (m.raise f)
      fetched := some fetched }

/-- The faults of a turn are the refused fetches and the one that the instruction ends with. -/
theorem fault_mem_turnOf {m : Machine} {refusals : List Event} {fetched : Word × Byte}
    {op : Opcode} {result : Except Fault Outcome} {f : Fault} {ip : Word} :
    Event.fault f ip ∈ (m.turnOf refusals fetched op result).events ↔
      Event.fault f ip ∈ refusals ∨ result = .error f ∧ ip = m.ip := by
  have hannounced : Event.fault f ip ∉ m.announcement op := by
    cases op <;> simp [announcement, requestEvent]
  cases result with
  | ok outcome => simp [turnOf, hannounced]
  | error g => simp [turnOf, hannounced, eq_comm]

/-- The machine after decoding at `IP`. -/
def decoded (m : Machine) : Machine := m.advance (m.memory.decode m.ip).cursor

/-- The refused fetches of decoding at `IP`. -/
def refusals (m : Machine) : List Event :=
  (m.memory.decode m.ip).cursor.refused.map (Event.fault .pointerOutOfBounds)

variable {m : Machine}

theorem turn?_of_outside (hrun : m.status = .running) (hip : ¬m.ip < m.memory.codeSize) :
    m.turn? = some ⟨[.fault .pointerOutOfBounds m.ip], .done (m.raise .pointerOutOfBounds),
      none⟩ := by
  unfold turn?
  rw [hrun]
  dsimp only
  rw [if_neg hip]

theorem turn?_of_undecodable (hrun : m.status = .running) (hip : m.ip < m.memory.codeSize)
    (hi : (m.memory.decode m.ip).instruction? = none) :
    m.turn? = some ⟨m.refusals ++ [.fault .badInstruction m.decoded.ip],
      .done (m.decoded.raise .badInstruction), some (m.ip, (m.memory.decode m.ip).opcode)⟩ := by
  unfold turn?
  rw [hrun]
  dsimp only
  rw [if_pos hip, hi]
  rfl

theorem turn?_of_fetched {i : Instruction Word} (hrun : m.status = .running)
    (hip : m.ip < m.memory.codeSize) (hi : (m.memory.decode m.ip).instruction? = some i) :
    m.turn? = some (m.decoded.turnOf m.refusals (m.ip, (m.memory.decode m.ip).opcode) i.opcode
      (m.decoded.execute m.registers.leftValue i)) := by
  unfold turn?
  rw [hrun]
  dsimp only
  rw [if_pos hip, hi]
  dsimp only
  change (match m.decoded.execute m.registers.leftValue i with
    | .ok outcome => _
    | .error f => _) = _
  cases m.decoded.execute m.registers.leftValue i with
  | ok outcome => cases i <;> simp [turnOf, announcement, Instruction.opcode, refusals, decoded]
  | error f => cases i <;> simp [turnOf, announcement, Instruction.opcode, refusals, decoded]

/-! ### Steps -/

section

variable {κ : Type} [Console κ]

/-- A step is a turn that is served. -/
theorem step?_of_turn? {turn : Turn} (h : m.turn? = some turn) (c : κ) :
    m.step? c = some (turn.serve c) := by
  rw [step?, h]
  rfl

theorem step?_of_turn?_eq_none (h : m.turn? = none) (c : κ) : m.step? c = none := by
  rw [step?, h]
  rfl

theorem exists_step_of_running (h : m.status = .running) (c : κ) : ∃ s, m.step? c = some s :=
  Option.isSome_iff_exists.1 (step?_isSome_of_running h c)

end

end Machine

end RegisterMachine
