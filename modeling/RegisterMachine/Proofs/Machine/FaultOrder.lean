import RegisterMachine.Proofs.Machine.Completion
import RegisterMachine.Proofs.Machine.Refusals

/-!
# RegisterMachine.Proofs.Machine.FaultOrder

Which faults one step can raise, in which order, and what they have to do with
halting. A fetch that is refused does not end the instruction, every other fault
does, so the faults of a step are some refused fetches, at most two of them, and
then at most one fault of another kind (`Machine.faults_in_order`).

The three forms of a turn give the list of its faults; what the host answers
adds none. The log has one record for each fault of the list.
-/

namespace RegisterMachine

/-! ### The faults among some events -/

/-- The fault that an event tells of. -/
def Event.fault? : Event → Option Fault
  | fault f _ => some f
  | _ => none

/-- The faults of a step, in order. -/
def Step.faults {κ : Type} (s : Step κ) : List Fault := s.events.filterMap Event.fault?

/-- The faults that a log tells of, in words and in order. -/
def Log.faults (log : List Log.Record) : List (Option String) :=
  (log.filter fun record => record.message == "machine faulted").map fun record =>
    record.fields.lookup "fault"

/-- The log tells of every fault, and of no other. -/
theorem Log.faults_filterMap (events : List Event) :
    Log.faults (events.filterMap Event.log?) =
      (events.filterMap Event.fault?).map fun f => some f.message := by
  induction events with
  | nil => rfl
  | cons e events ih =>
    cases e with
    | fault f ip => exact congrArg (some f.message :: ·) ih
    | syscall id descriptor address count => exact ih
    | write descriptor bytes error => cases error <;> exact ih
    | read count bytes error => cases error <;> exact ih
    | trace record => exact ih

theorem Step.faults_ne_nil_iff {κ : Type} {s : Step κ} : s.faults ≠ [] ↔ s.faulted = true := by
  rw [faulted_iff, faults, ne_eq, List.filterMap_eq_nil_iff]
  constructor
  · intro h
    refine Classical.byContradiction fun hnone => h fun e he => ?_
    cases e with
    | fault f ip => exact absurd ⟨f, ip, he⟩ hnone
    | _ => rfl
  · rintro ⟨f, ip, hf⟩ hnone
    cases hnone _ hf

variable {κ : Type} [Console κ] {m : Machine} {c : κ} {s : Step κ}

/-- Serving a turn raises no fault. -/
theorem Turn.faults_serve (turn : Turn) (c : κ) :
    (turn.serve c).faults = turn.events.filterMap Event.fault? := by
  have hserved : (turn.outcome.serve c).events.filterMap Event.fault? = [] := by
    cases turn.outcome <;> rfl
  have htrace (records : List TraceRecord) :
      (records.map Event.trace).filterMap Event.fault? = [] := by
    rw [List.filterMap_map]
    exact List.filterMap_eq_nil_iff.2 fun _ _ => rfl
  rw [Step.faults, events_serve, List.filterMap_append, List.filterMap_append, hserved, htrace,
    List.append_nil, List.append_nil]

namespace Machine

/-! ### The faults of a turn -/

theorem faults_refusals (m : Machine) :
    m.refusals.filterMap Event.fault? =
      List.replicate (m.memory.decode m.ip).cursor.refused.length .pointerOutOfBounds := by
  have hfault : Event.fault? ∘ Event.fault .pointerOutOfBounds =
      some ∘ fun _ => .pointerOutOfBounds := rfl
  rw [refusals, List.filterMap_map, hfault, List.filterMap_eq_map, List.map_const']

theorem faults_announcement (m : Machine) (op : Opcode) :
    (m.announcement op).filterMap Event.fault? = [] := by
  cases op <;> rfl

/-- Where there is code, the faults of a turn are the refused fetches, and behind them at most one
that ends the instruction and is of another kind. -/
theorem Turns.faults {turn : Turn} (h : m.Turns turn) (hip : m.ip < m.memory.codeSize) :
    ∃ last, last ≠ some .pointerOutOfBounds ∧
      turn.events.filterMap Event.fault? =
        m.refusals.filterMap Event.fault? ++ last.toList := by
  cases h with
  | outside hout => exact absurd hip hout
  | undecodable hip hi => exact ⟨some .badInstruction, by decide, List.filterMap_append⟩
  | @fetched i hip hi =>
    cases hresult : m.decoded.execute m.registers.leftValue i with
    | ok outcome =>
      refine ⟨none, by decide, ?_⟩
      show (m.refusals ++ m.decoded.announcement i.opcode).filterMap Event.fault? = _
      rw [List.filterMap_append, faults_announcement]
      rfl
    | error f =>
      have hf : some f ≠ some Fault.pointerOutOfBounds := by
        obtain rfl | rfl | ⟨rfl, -⟩ := (fault_of_execute hresult).2 <;> decide
      refine ⟨some f, hf, ?_⟩
      show (m.refusals ++ m.decoded.announcement i.opcode ++
        [Event.fault f m.decoded.ip]).filterMap Event.fault? = _
      rw [List.filterMap_append, List.filterMap_append, faults_announcement, List.append_nil]
      rfl

/-- The request to exit is the byte of a request at `IP`, with zero in `r1`. -/
theorem exits_iff : m.Exits ↔ m.AtSyscall ∧ m.get .r1 = 0 := by
  constructor
  · rintro ⟨hcompletes, hzero⟩
    exact ⟨hcompletes.atSyscall, hzero⟩
  · rintro ⟨hat, hzero⟩
    have hrequest := m.request_decoded
    rw [Syscall.ofId?_eq_exit_iff.2 hzero] at hrequest
    exact ⟨⟨hat.1, hat.2.1, by rw [hat.decode], _, hrequest⟩, hzero⟩

/-! ### The faults of a step -/

/-- The faults of the step `s` of `m`, their order, and when the machine is halted. -/
structure FaultsInOrder (m : Machine) (c : κ) (s : Step κ) : Prop where
  /-- Where there is no code, there is a single fault and no other effect. -/
  outside : m.memory.codeSize ≤ m.ip →
    s = ⟨m.raise .pointerOutOfBounds, c, [.fault .pointerOutOfBounds m.ip]⟩
  /-- Where there is code, at most two fetches are refused, and at most one fault of another kind
  is behind them. -/
  inside : m.ip < m.memory.codeSize → ∃ count last, count ≤ 2 ∧
    last ≠ some .pointerOutOfBounds ∧
    s.faults = List.replicate count .pointerOutOfBounds ++ last.toList
  halted : s.machine.status = .halted ↔ s.faults ≠ [] ∨ m.AtSyscall ∧ m.get .r1 = 0
  /-- The log says the same. -/
  logged : Log.faults (s.events.filterMap Event.log?) = s.faults.map fun f => some f.message

theorem faultsInOrder_of_step (h : m.step? c = some s) : m.FaultsInOrder c s where
  outside hip := step_of_outside h (UInt32.not_lt.2 hip)
  inside hip := by
    obtain ⟨-, turn, hturn, rfl⟩ := turns_of_step h
    obtain ⟨last, hlast, hfaults⟩ := hturn.faults hip
    refine ⟨_, last, Memory.length_refused_decode hip, hlast, ?_⟩
    rw [Turn.faults_serve, hfaults, faults_refusals]
  halted := by
    rw [halted_of_step_iff h, exits_iff, Step.faults_ne_nil_iff]
  logged := Log.faults_filterMap s.events

/-- Every running machine takes a step, with any console, and the faults of the step are
`FaultsInOrder`. -/
theorem faults_in_order (hrun : m.status = .running) (c : κ) :
    ∃ s, m.step? c = some s ∧ m.FaultsInOrder c s := by
  obtain ⟨s, hs⟩ := exists_step_of_running hrun c
  exact ⟨s, hs, faultsInOrder_of_step hs⟩

/-- A store without its address and its value, in a memory with nothing but its two bytes. -/
def bareStore : Image := ⟨0, [0x01, 0x32], []⟩

/-- Three faults are as many as there can be. -/
theorem faults_in_order_bareStore :
    ∃ s, (ofImage bareStore).step? (Buffer.ofInput []) = some s ∧
      s.faults = [.pointerOutOfBounds, .pointerOutOfBounds, .writeOutOfBounds] ∧
      s.machine.status = .halted ∧
      Log.faults (s.events.filterMap Event.log?) =
        [some "instruction pointer out of bounds", some "instruction pointer out of bounds",
          some "write out of bounds"] := by
  obtain ⟨s, hs, horder⟩ := faults_in_order (m := ofImage bareStore) rfl (Buffer.ofInput [])
  have hfaults : s.faults =
      [.pointerOutOfBounds, .pointerOutOfBounds, .writeOutOfBounds] := by
    have hstep : (((ofImage bareStore).step? (Buffer.ofInput [])).map Step.faults) =
        some [.pointerOutOfBounds, .pointerOutOfBounds, .writeOutOfBounds] := by decide
    rw [hs] at hstep
    exact Option.some.inj hstep
  refine ⟨s, hs, hfaults, horder.halted.2 (Or.inl ?_), ?_⟩
  · rw [hfaults]
    exact List.cons_ne_nil _ _
  · rw [horder.logged, hfaults]
    rfl

end Machine

end RegisterMachine
