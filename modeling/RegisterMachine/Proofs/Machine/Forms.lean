import RegisterMachine.Proofs.Machine.Execution

/-!
# RegisterMachine.Proofs.Machine.Forms

The forms of a step, said once. A machine that takes a step is running, and its
turn has one of the three forms of `Machine.Turns`; nothing after
`Machine.turns_of_step` looks at `Machine.turn?` again.

The first thing that is read off is the **extent** of the memory: no step makes
it longer or shorter, or moves the end of the code in it.
-/

namespace RegisterMachine

/-! ### The extent of a memory -/

/-- The two memories are equally long, and so is the code in them. -/
structure Memory.SameExtent (m n : Memory) : Prop where
  size : m.size = n.size
  codeSize : m.codeSize = n.codeSize

namespace Memory.SameExtent

theorem refl (m : Memory) : m.SameExtent m := ⟨rfl, rfl⟩

theorem trans {l m n : Memory} (h : l.SameExtent m) (h' : m.SameExtent n) : l.SameExtent n :=
  ⟨h.size.trans h'.size, h.codeSize.trans h'.codeSize⟩

theorem write (m : Memory) (address : Nat) (bs : List Byte) :
    (m.write address bs).SameExtent m :=
  ⟨m.size_write address bs, m.codeSize_write address bs⟩

theorem store {m n : Memory} {address value : Word} (h : m.store? address value = some n) :
    n.SameExtent m := by
  unfold Memory.store? at h
  split at h
  · cases h
    exact write m _ _
  · cases h

end Memory.SameExtent

theorem Registers.set_get_self (rs : Registers) (r : Register) : rs.set r (rs.get r) = rs := by
  refine Registers.ext_get ?_
  intro s
  rw [Registers.get_set]
  split
  · subst s
    rfl
  · rfl

namespace Machine

variable {m : Machine}

/-! ### The machine after decoding -/

/-- A fault leaves no trace of how often it was raised. -/
theorem raise_raise (m : Machine) (f : Fault) : (m.raise f).raise f = m.raise f := by
  have hflags : (m.raise f).flags.insert (.ofFlag f.flag) = (m.raise f).flags := by
    simp [Flags.insert, UInt32.or_assoc]
  have hregisters : (m.raise f).registers.set .rF ((m.raise f).registers.get .rF) =
      (m.raise f).registers := Registers.set_get_self _ _
  rw [raise, hflags]
  exact congrArg (fun registers => { m.raise f with registers }) hregisters

/-- Decoding moves `IP` and raises at most one kind of fault. -/
theorem advance_eq (m : Machine) (cursor : Cursor) :
    m.advance cursor =
      if cursor.refused = [] then m.set .ip cursor.ip
      else (m.set .ip cursor.ip).raise .pointerOutOfBounds := by
  have hfold (refused : List Word) (start : Machine) :
      refused.foldl (fun m _ => m.raise .pointerOutOfBounds) (start.raise .pointerOutOfBounds) =
        start.raise .pointerOutOfBounds := by
    induction refused with
    | nil => rfl
    | cons address refused ih => rw [List.foldl_cons, raise_raise, ih]
  unfold advance
  cases cursor.refused with
  | nil => rfl
  | cons address refused => exact hfold refused _

theorem get_advance_of_ne (m : Machine) (cursor : Cursor) {r : Register} (hip : r ≠ .ip)
    (hflags : r ≠ .rF) : (m.advance cursor).get r = m.get r := by
  rw [advance_eq]
  split
  · exact m.get_set_of_ne _ hip
  · rw [get_raise_of_ne _ _ hflags, m.get_set_of_ne _ hip]

@[simp] theorem ip_advance (m : Machine) (cursor : Cursor) : (m.advance cursor).ip = cursor.ip := by
  have hset : (m.set .ip cursor.ip).ip = cursor.ip := m.get_set_self _ _
  rw [advance_eq]
  split
  · exact hset
  · rw [ip_raise, hset]

@[simp] theorem memory_advance (m : Machine) (cursor : Cursor) :
    (m.advance cursor).memory = m.memory := by
  rw [advance_eq]
  split <;> rfl

theorem memory_decoded (m : Machine) : m.decoded.memory = m.memory := m.memory_advance _

/-- The flags after decoding show whether a fetch was refused. -/
theorem flags_advance (m : Machine) (cursor : Cursor) :
    (m.advance cursor).flags =
      if cursor.refused = [] then m.flags else m.flags.insert (.ofFlag .pointer) := by
  have hset : (m.set .ip cursor.ip).flags = m.flags := m.flags_set_of_ne _ (by decide)
  rw [advance_eq]
  split
  · exact hset
  · rw [flags_raise, hset]
    rfl

/-! ### The three forms -/

/-- What a turn of a running machine can be. -/
inductive Turns (m : Machine) : Turn → Prop
  /-- There is no code at `IP`. -/
  | outside : ¬m.ip < m.memory.codeSize →
      Turns m ⟨[.fault .pointerOutOfBounds m.ip], .done (m.raise .pointerOutOfBounds), none⟩
  /-- There is no instruction. -/
  | undecodable : m.ip < m.memory.codeSize → (m.memory.decode m.ip).instruction? = none →
      Turns m ⟨m.refusals ++ [.fault .badInstruction m.decoded.ip],
        .done (m.decoded.raise .badInstruction), some (m.ip, (m.memory.decode m.ip).opcode)⟩
  /-- There is an instruction, which is carried out or faults. -/
  | fetched {i : Instruction Word} : m.ip < m.memory.codeSize →
      (m.memory.decode m.ip).instruction? = some i →
      Turns m (m.decoded.turnOf m.refusals (m.ip, (m.memory.decode m.ip).opcode) i.opcode
        (m.decoded.execute m.registers.leftValue i))

/-- A machine that takes a turn is running, and the turn has one of the three forms. -/
theorem turns_of_turn? {turn : Turn} (h : m.turn? = some turn) :
    m.status = .running ∧ m.Turns turn := by
  have hrun : m.status = .running := by
    cases hstatus : m.status with
    | running => rfl
    | halted =>
      rw [turn?, hstatus] at h
      cases h
  refine ⟨hrun, ?_⟩
  by_cases hip : m.ip < m.memory.codeSize
  · cases hi : (m.memory.decode m.ip).instruction? with
    | none =>
      rw [turn?_of_undecodable hrun hip hi] at h
      cases h
      exact .undecodable hip hi
    | some i =>
      rw [turn?_of_fetched hrun hip hi] at h
      cases h
      exact .fetched hip hi
  · rw [turn?_of_outside hrun hip] at h
    cases h
    exact .outside hip

theorem turns_of_step {κ : Type} [Console κ] {c : κ} {s : Step κ} (h : m.step? c = some s) :
    m.status = .running ∧ ∃ turn, m.Turns turn ∧ s = turn.serve c := by
  obtain ⟨turn, hturn, rfl⟩ := Option.map_eq_some_iff.1 h
  obtain ⟨hrun, hforms⟩ := turns_of_turn? hturn
  exact ⟨hrun, turn, hforms, rfl⟩

/-- Where there is no code, the step is a fault and nothing else. -/
theorem step_of_outside {κ : Type} [Console κ] {c : κ} {s : Step κ} (h : m.step? c = some s)
    (hip : ¬m.ip < m.memory.codeSize) :
    s = ⟨m.raise .pointerOutOfBounds, c, [.fault .pointerOutOfBounds m.ip]⟩ := by
  obtain ⟨-, turn, hturn, rfl⟩ := turns_of_step h
  cases hturn with
  | outside hip => rfl
  | undecodable hin hi => exact absurd hin hip
  | fetched hin hi => exact absurd hin hip

/-! ### No step changes the extent of the memory -/

theorem Commits.sameExtent {left : Register → Word} {i : Instruction Word} {outcome : Outcome}
    (h : m.Commits left i outcome) : outcome.machine.memory.SameExtent m.memory := by
  cases h with
  | nop => exact .refl _
  | syscall hg => cases hg <;> exact .refl _
  | assign ha => exact .refl _
  | store hm => exact .store hm
  | cmp hv => exact .refl _
  | @branch c target =>
    show (m.branch c (m.value target)).memory.SameExtent m.memory
    unfold Machine.branch
    split <;> exact .refl _

theorem Turns.sameExtent {turn : Turn} (h : m.Turns turn) :
    turn.outcome.machine.memory.SameExtent m.memory := by
  cases h with
  | outside hip => exact .refl _
  | undecodable hip hi =>
    rw [← m.memory_decoded]
    exact .refl _
  | @fetched i hip hi =>
    rw [← m.memory_decoded]
    cases hresult : m.decoded.execute m.registers.leftValue i with
    | ok outcome => exact (commits_of_execute hresult).sameExtent
    | error f => exact .refl _

/-- The host's answer may change bytes, but not how many there are. -/
theorem sameExtent_serve {κ : Type} [Console κ] (outcome : Outcome) (c : κ) :
    (outcome.serve c).machine.memory.SameExtent outcome.machine.memory := by
  cases outcome with
  | done m => exact .refl _
  | write descriptor bytes m => exact .refl _
  | read address count m => exact .write m.memory _ _

theorem sameExtent_of_step {κ : Type} [Console κ] {c : κ} {s : Step κ}
    (h : m.step? c = some s) : s.machine.memory.SameExtent m.memory := by
  obtain ⟨-, turn, hturn, rfl⟩ := turns_of_step h
  rw [Turn.machine_serve]
  exact (sameExtent_serve turn.outcome c).trans hturn.sameExtent

end Machine

end RegisterMachine
