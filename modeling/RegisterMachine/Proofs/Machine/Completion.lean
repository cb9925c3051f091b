import RegisterMachine.Proofs.Machine.Conservation
import RegisterMachine.Proofs.Machine.Faults

/-!
# RegisterMachine.Proofs.Machine.Completion

The two ends that a step can come to. Either an instruction is carried out
(`Machine.Completes`), possibly with operands that a refused fetch has left at
zero, or the step ends with a fault and there is no such instruction.
`Machine.ends_of_step` says this of every step, together with the faults that
were raised on the way.

From it is read off when a step halts the machine: if it raised a fault, or if
it was the request to exit (`Machine.halted_of_step_iff`).
-/

namespace RegisterMachine

theorem Syscall.ofId?_eq_exit_iff {id : Word} : ofId? id = some .exit ↔ id = 0 := by
  constructor
  · intro h
    refine Classical.byContradiction fun hne => ?_
    unfold ofId? at h
    rw [if_neg hne] at h
    split at h
    · cases h
    · split at h
      · cases h
      · split at h <;> cases h
  · rintro rfl
    rfl

namespace Machine

variable {m : Machine} {κ : Type} [Console κ] {c : κ} {s : Step κ}

/-- The next step carries out the instruction `i`. -/
def Completes (m : Machine) (i : Instruction Word) : Prop :=
  m.status = .running ∧ m.ip < m.memory.codeSize ∧
    (m.memory.decode m.ip).instruction? = some i ∧
    ∃ outcome, m.decoded.execute m.registers.leftValue i = .ok outcome

/-- The next step is the request to exit. -/
def Exits (m : Machine) : Prop := m.Completes .syscall ∧ m.get .r1 = 0

/-- An instruction that assigns to a register is carried out. -/
theorem completes_of_assigned {i : Instruction Word} {p : Register × Word}
    (hrun : m.status = .running) (hip : m.ip < m.memory.codeSize)
    (hi : (m.memory.decode m.ip).instruction? = some i) (h : m.decoded.assigned? i = some p) :
    m.Completes i := by
  refine ⟨hrun, hip, hi, ?_⟩
  cases hresult : m.decoded.execute m.registers.leftValue i with
  | ok outcome => exact ⟨outcome, rfl⟩
  | error f => cases (fault_of_execute hresult).1.symm.trans h

/-- A word comes into `rF` only if an instruction is carried out that names `rF`. -/
theorem flagsAssigned?_eq_none (hrun : m.status = .running)
    (h : ∀ i, m.Completes i → i.target? ≠ some .rF) : m.flagsAssigned? = none := by
  unfold flagsAssigned?
  split
  · rename_i hip
    cases hi : (m.memory.decode m.ip).instruction? with
    | none => rfl
    | some i =>
      rw [Option.bind_some, flagsPut?]
      cases ha : m.decoded.assigned? i with
      | none => rfl
      | some p =>
        have hname : i.target? ≠ some .rF := h i (completes_of_assigned hrun hip hi ha)
        rw [target?_of_assigned ha] at hname
        exact if_neg fun hr => hname (congrArg some hr)
  · rfl

/-! ### The two ends of a step -/

/-- What a step of a running machine comes to. -/
inductive Ends (m : Machine) (c : κ) (s : Step κ) : Prop
  /-- The last thing that happens is a fault, before or after decoding. -/
  | fault {before : Machine} {f : Fault} {ip : Word} : before = m ∨ before = m.decoded →
      s.machine = before.raise f → Event.fault f ip ∈ s.events → (∀ i, ¬m.Completes i) →
      Ends m c s
  /-- An instruction is carried out, and the only faults are the refused fetches before it. -/
  | complete {i : Instruction Word} {outcome : Outcome} : m.Completes i →
      m.decoded.execute m.registers.leftValue i = .ok outcome →
      s.machine = (outcome.serve c).machine →
      (∀ f ip, Event.fault f ip ∈ s.events ↔ Event.fault f ip ∈ m.refusals) → Ends m c s

theorem ends_of_step (h : m.step? c = some s) : m.Ends c s := by
  obtain ⟨hrun, turn, hturn, rfl⟩ := turns_of_step h
  cases hturn with
  | outside hip =>
    refine .fault (Or.inl rfl) rfl (Turn.fault_mem_serve.2 List.mem_cons_self) ?_
    intro i hi
    exact hip hi.2.1
  | undecodable hip hi =>
    have hlast : Event.fault .badInstruction m.decoded.ip ∈
        m.refusals ++ [.fault .badInstruction m.decoded.ip] :=
      List.mem_append_right _ List.mem_cons_self
    refine .fault (Or.inr rfl) (Turn.machine_serve _ c) (Turn.fault_mem_serve.2 hlast) ?_
    intro i hcompletes
    cases hi.symm.trans hcompletes.2.2.1
  | @fetched i hip hi =>
    cases hresult : m.decoded.execute m.registers.leftValue i with
    | error f =>
      refine .fault (Or.inr rfl) (Turn.machine_serve _ c)
        (Turn.fault_mem_serve.2 (fault_mem_turnOf.2 (Or.inr ⟨rfl, rfl⟩))) ?_
      rintro j ⟨-, -, hj, outcome, hok⟩
      cases hi.symm.trans hj
      cases hresult.symm.trans hok
    | ok outcome =>
      refine .complete ⟨hrun, hip, hi, outcome, hresult⟩ hresult (Turn.machine_serve _ c) ?_
      intro f ip
      rw [Turn.fault_mem_serve, fault_mem_turnOf]
      simp

/-! ### When a step halts the machine -/

/-- A machine that was running is halted after decoding exactly if a fetch was refused. -/
theorem status_decoded (hrun : m.status = .running) :
    m.decoded.status = .halted ↔ ∃ f ip, Event.fault f ip ∈ m.refusals := by
  have hadvance := m.advance_eq (m.memory.decode m.ip).cursor
  unfold decoded refusals
  rw [hadvance]
  cases (m.memory.decode m.ip).cursor.refused with
  | nil => simp [hrun]
  | cons address refused =>
    exact iff_of_true rfl ⟨_, address, List.mem_cons_self⟩

/-- Of the requests, only that to exit stops the machine. -/
theorem status_of_request {outcome : Outcome} (h : m.request = .ok outcome) :
    outcome.machine.status = .halted ↔ m.status = .halted ∨ m.get .r1 = 0 := by
  have hexit : Syscall.ofId? (m.get .r1) = some .exit ↔ m.get .r1 = 0 := Syscall.ofId?_eq_exit_iff
  -- all other requests leave the status as it is
  have hkept (hid : Syscall.ofId? (m.get .r1) ≠ some .exit)
      (hstatus : outcome.machine.status = m.status) :
      outcome.machine.status = .halted ↔ m.status = .halted ∨ m.get .r1 = 0 := by
    rw [hstatus, or_iff_left (fun h => hid (hexit.2 h))]
  unfold request at h
  dsimp only at h
  cases hid : Syscall.ofId? (m.get .r1) with
  | none =>
    rw [hid] at h
    cases h
  | some id =>
    rw [hid] at h hexit hkept
    cases id with
    | exit =>
      cases h
      exact iff_of_true rfl (Or.inr (hexit.1 rfl))
    | write =>
      dsimp only at h
      split at h <;> cases h
      exact hkept nofun rfl
    | read =>
      dsimp only at h
      split at h
      · split at h <;> cases h
        · exact hkept nofun rfl
        · exact hkept nofun rfl
      · cases h
    | openFile =>
      cases h
      exact hkept nofun rfl

/-- An instruction that is no request leaves the status as it is. -/
theorem Commits.status_eq {left : Register → Word} {i : Instruction Word} {outcome : Outcome}
    (h : m.Commits left i outcome) (hi : i ≠ .syscall) :
    outcome.machine.status = m.status := by
  cases h with
  | syscall hg => exact absurd rfl hi
  | @branch b target =>
    show (m.branch b (m.value target)).status = m.status
    unfold Machine.branch
    split <;> rfl
  | _ => rfl

/-- The instruction that is carried out is the only one at `IP`. -/
theorem Completes.unique {i j : Instruction Word} (h : m.Completes i) (h' : m.Completes j) :
    i = j :=
  Option.some.inj (h.2.2.1.symm.trans h'.2.2.1)

/-- A step halts the machine exactly if it raised a fault or was the request to exit. -/
theorem halted_of_step_iff (h : m.step? c = some s) :
    s.machine.status = .halted ↔ s.faulted = true ∨ m.Exits := by
  have hrun : m.status = .running := (turns_of_step h).1
  rw [Step.faulted_iff]
  cases ends_of_step h with
  | fault hbefore hmachine hf hno =>
    rw [hmachine]
    exact iff_of_true rfl (Or.inl ⟨_, _, hf⟩)
  | @complete i outcome hi hresult hmachine hfaults =>
    have hr1 : m.decoded.get .r1 = m.get .r1 := m.get_advance_of_ne _ (by decide) (by decide)
    rw [hmachine, Outcome.status_machine_serve]
    simp only [hfaults]
    rw [← status_decoded hrun]
    by_cases hsyscall : i = .syscall
    · subst hsyscall
      rw [status_of_request hresult, hr1]
      exact or_congr_right ⟨fun hzero => ⟨hi, hzero⟩, fun hexits => hexits.2⟩
    · rw [(commits_of_execute hresult).status_eq hsyscall]
      exact (or_iff_left fun hexits : m.Exits => hsyscall (hi.unique hexits.1)).symm

/-- The byte at `IP` is that of the request that is carried out. -/
theorem Completes.atSyscall (h : m.Completes .syscall) : m.AtSyscall := by
  obtain ⟨hrun, hip, hi, -⟩ := h
  refine ⟨hrun, hip, ?_⟩
  rw [Memory.opcode_decode hip, Memory.opcode_of_decode hip hi]
  rfl

/-- The request to exit is no fault. -/
theorem faulted_of_exits (h : m.step? c = some s) (hexits : m.Exits) : s.faulted = false := by
  rw [Bool.eq_false_iff, ne_eq, Step.faulted_iff]
  cases ends_of_step h with
  | fault hbefore hmachine hf hno => exact absurd hexits.1 (hno _)
  | complete hi hresult hmachine hfaults =>
    simp only [hfaults, hexits.1.atSyscall.refusals_eq_nil]
    rintro ⟨f, ip, hf⟩
    cases hf

end Machine

end RegisterMachine
