import RegisterMachine.Host.Buffer
import RegisterMachine.Machine.Session
import RegisterMachine.Proofs.Machine.Execution

/-!
# RegisterMachine.Proofs.Machine.Faults

What is left of a fault. A fault halts the machine and sets its flag, but a fetch
that is refused does not end the instruction, and the instruction may be one
that puts a word into `rF`. Then the flag is what the word says, and the fault
may be gone: `mov rF, v` without the bytes of `v` puts zero there.

`Machine.flagsAssigned?` is that word, read off the state before the step, and
`Session.fault_latched` says of every run which flags are set after a fault. All
faults but that of a refused fetch are always seen.
-/

namespace RegisterMachine

namespace Machine

variable {m : Machine} {f : Fault} {ip : Word}

/-- The word that the instruction at `IP` puts into `rF`, if there is such an instruction. -/
def flagsAssigned? (m : Machine) : Option Word :=
  if m.ip < m.memory.codeSize then (m.memory.decode m.ip).instruction?.bind m.decoded.flagsPut?
  else none

/-! ### Refused fetches -/

/-- The machine is halted and shows that a fetch was refused. -/
def ShowsRefusal (m : Machine) : Prop := m.status = .halted ∧ m.flags.has .pointer = true

theorem showsRefusal_raise (m : Machine) : (m.raise .pointerOutOfBounds).ShowsRefusal :=
  ⟨rfl, has_flag_raise m .pointerOutOfBounds⟩

theorem showsRefusal_foldl {m : Machine} (h : m.ShowsRefusal) (refused : List Word) :
    (refused.foldl (fun m _ => m.raise .pointerOutOfBounds) m).ShowsRefusal := by
  induction refused generalizing m with
  | nil => exact h
  | cons address refused ih => exact ih (showsRefusal_raise m)

/-- A fetch that is refused is seen after decoding. -/
theorem showsRefusal_decoded (h : Event.fault f ip ∈ m.refusals) :
    f = .pointerOutOfBounds ∧ m.decoded.ShowsRefusal := by
  unfold refusals at h
  obtain ⟨address, haddress, hfault⟩ := List.mem_map.1 h
  cases hfault
  refine ⟨rfl, ?_⟩
  unfold decoded advance
  cases hrefused : (m.memory.decode m.ip).cursor.refused with
  | nil =>
    rw [hrefused] at haddress
    cases haddress
  | cons first rest => exact showsRefusal_foldl (showsRefusal_raise _) rest

/-! ### One step -/

/-- What is seen of a fault when the turn is over. -/
structure Latches (m : Machine) (f : Fault) (after : Machine) : Prop where
  halted : after.status = .halted
  flag : after.flags.has f.flag = m.flagsAssigned?.all fun w => (Flags.mk w).has f.flag
  other : f ≠ .pointerOutOfBounds → after.flags.has f.flag = true

/-- A fault with which a turn ends is seen, and so are the refused fetches before it. -/
theorem latches_raise {before last : Machine} {g : Fault} (hput : m.flagsAssigned? = none)
    (h : f = g ∨ f = .pointerOutOfBounds ∧ before.ShowsRefusal) (hlast : last = before.raise g) :
    m.Latches f last := by
  have hflag : last.flags.has f.flag = true := by
    rw [hlast]
    rcases h with rfl | ⟨rfl, -, hpointer⟩
    · exact has_flag_raise before f
    · rw [flags_raise]
      exact Flags.has_insert hpointer
  refine ⟨by rw [hlast]; rfl, ?_, fun _ => hflag⟩
  rw [hflag, hput]
  rfl

/-- An instruction that goes on behind a refused fetch can only hide it in a word for `rF`. -/
theorem latches_of_commits {before : Machine} {left : Register → Word} {i : Instruction Word}
    {outcome : Outcome} (hput : m.flagsAssigned? = before.flagsPut? i)
    (h : before.Commits left i outcome) (hf : f = .pointerOutOfBounds ∧ before.ShowsRefusal) :
    m.Latches f outcome.machine := by
  obtain ⟨rfl, hhalted, hpointer⟩ := hf
  refine ⟨h.status hhalted, ?_, fun hne => absurd rfl hne⟩
  rw [hput, h.has]
  cases before.flagsPut? i with
  | none => exact hpointer
  | some w => rfl

theorem latches_of_undecodable (hip : m.ip < m.memory.codeSize)
    (hi : (m.memory.decode m.ip).instruction? = none)
    (hf : Event.fault f ip ∈ m.refusals ++ [.fault .badInstruction m.decoded.ip]) :
    m.Latches f (m.decoded.raise .badInstruction) := by
  have hput : m.flagsAssigned? = none := by
    rw [flagsAssigned?, if_pos hip, hi]
    rfl
  refine latches_raise hput ?_ rfl
  rcases List.mem_append.1 hf with hf | hf
  · exact Or.inr (showsRefusal_decoded hf)
  · cases List.mem_singleton.1 hf
    exact Or.inl rfl

theorem latches_of_fetched {i : Instruction Word} {fetched : Word × Byte}
    (hip : m.ip < m.memory.codeSize) (hi : (m.memory.decode m.ip).instruction? = some i)
    (hf : Event.fault f ip ∈ (m.decoded.turnOf m.refusals fetched i.opcode
      (m.decoded.execute m.registers.leftValue i)).events) :
    m.Latches f (m.decoded.turnOf m.refusals fetched i.opcode
      (m.decoded.execute m.registers.leftValue i)).outcome.machine := by
  have hput : m.flagsAssigned? = m.decoded.flagsPut? i := by
    rw [flagsAssigned?, if_pos hip, hi]
    rfl
  have hfault := fault_mem_turnOf.1 hf
  cases hresult : m.decoded.execute m.registers.leftValue i with
  | error g =>
    have hnone : m.decoded.flagsPut? i = none := by
      rw [flagsPut?, (fault_of_execute hresult).1]
      rfl
    refine latches_raise (hput.trans hnone) ?_ rfl
    rcases hfault with hrefused | ⟨herror, -⟩
    · exact Or.inr (showsRefusal_decoded hrefused)
    · exact Or.inl (Except.error.inj (herror.symm.trans hresult))
  | ok outcome =>
    rcases hfault with hrefused | ⟨herror, -⟩
    · exact latches_of_commits hput (commits_of_execute hresult) (showsRefusal_decoded hrefused)
    · cases hresult.symm.trans herror

theorem latches_of_turn {turn : Turn} (h : m.turn? = some turn)
    (hf : Event.fault f ip ∈ turn.events) : m.Latches f turn.outcome.machine := by
  have hrun : m.status = .running := by
    cases hstatus : m.status with
    | running => rfl
    | halted =>
      rw [turn?, hstatus] at h
      cases h
  -- the three forms of a turn
  by_cases hip : m.ip < m.memory.codeSize
  · cases hi : (m.memory.decode m.ip).instruction? with
    | none =>
      rw [turn?_of_undecodable hrun hip hi] at h
      cases h
      exact latches_of_undecodable hip hi hf
    | some i =>
      rw [turn?_of_fetched hrun hip hi] at h
      cases h
      exact latches_of_fetched hip hi hf
  · rw [turn?_of_outside hrun hip] at h
    cases h
    cases List.mem_singleton.1 hf
    have hput : m.flagsAssigned? = none := by
      rw [flagsAssigned?, if_neg hip]
    exact latches_raise hput (Or.inl rfl) rfl

theorem latches_of_step {κ : Type} [Console κ] {c : κ} {step : Step κ}
    (h : m.step? c = some step) (hf : Event.fault f ip ∈ step.events) :
    m.Latches f step.machine := by
  obtain ⟨turn, hturn, rfl⟩ := Option.map_eq_some_iff.1 h
  have hlatches := latches_of_turn hturn (Turn.fault_mem_serve.1 hf)
  rw [Turn.machine_serve]
  refine ⟨?_, ?_, ?_⟩
  · rw [Outcome.status_machine_serve]
    exact hlatches.halted
  · rw [Outcome.flags_machine_serve]
    exact hlatches.flag
  · rw [Outcome.flags_machine_serve]
    exact hlatches.other

end Machine

/-! ### A whole run -/

/-- Once its machine has halted, a session is over. -/
theorem Session.run_of_halted {κ : Type} [Console κ] {s : Session κ}
    (h : s.machine.status = .halted) (limit : Nat) : s.run limit = s := by
  refine run_of_step?_eq_none ?_ limit
  rw [step?, Machine.step?_of_halted h]
  rfl

/-- In every run, a step with a fault is the last one. The flag of the fault is then set, unless
a fetch was refused to an instruction that puts into `rF` a word without the flag. -/
theorem Session.fault_latched {κ : Type} [Console κ] (image : Image) (c : κ) (n : Nat)
    {s : Session κ} {step : Step κ} {f : Fault} {ip : Word}
    (hs : s = (start (.ofImage image) c).run n)
    (h : s.machine.step? s.console = some step) (hf : Event.fault f ip ∈ step.events) :
    step.machine.status = .halted ∧
      (∀ k, ((start (.ofImage image) c).run (n + 1 + k)).machine = step.machine) ∧
      (f ≠ .pointerOutOfBounds → step.machine.flags.has f.flag = true) ∧
      step.machine.flags.has f.flag =
        s.machine.flagsAssigned?.all fun w => (Flags.mk w).has f.flag := by
  have hlatches := Machine.latches_of_step h hf
  refine ⟨hlatches.halted, ?_, hlatches.other, hlatches.flag⟩
  intro k
  obtain ⟨next, hnext, hmachine⟩ : ∃ next, s.step? = some next ∧
      next.machine = step.machine := by
    rw [step?, h]
    exact ⟨_, rfl, rfl⟩
  have hhalted : next.machine.status = .halted := hmachine ▸ hlatches.halted
  rw [run_add, run_add, ← hs, run_succ_of_step? hnext, run, run_of_halted hhalted k, hmachine]

/-- A subtraction from `r1` that lacks its right operand. -/
def truncatedSub : Image := ⟨0, [0x03, 0x12, 0x00], []⟩

theorem Session.fault_latched_truncatedSub :
    ∃ step, (Machine.ofImage truncatedSub).step? (Buffer.ofInput []) = some step ∧
      Event.fault .pointerOutOfBounds 3 ∈ step.events ∧ step.machine.status = .halted ∧
      step.machine.flags.has .pointer = true := by
  have hfault : Event.fault .pointerOutOfBounds 3 ∈
      (((Machine.ofImage truncatedSub).step? (Buffer.ofInput [])).get rfl).events := by decide
  obtain ⟨hhalted, -, -, hflag⟩ :=
    fault_latched truncatedSub (Buffer.ofInput []) 0 rfl (Option.some_get rfl).symm hfault
  exact ⟨_, (Option.some_get rfl).symm, hfault, hhalted, hflag.trans (by decide)⟩

/-- A `mov` to `rF` that lacks the value. -/
def truncatedMove : Image := ⟨0, [0x01, 0x12, 0x09], []⟩

/-- The machine has stopped because of a fault, and its flags are those of one that has not. -/
theorem Session.fault_lost_truncatedMove :
    Event.fault .pointerOutOfBounds 3 ∈
        ((start (.ofImage truncatedMove) (Buffer.ofInput [])).run 1).events ∧
      ((start (.ofImage truncatedMove) (Buffer.ofInput [])).run 1).machine.status = .halted ∧
      ((start (.ofImage truncatedMove) (Buffer.ofInput [])).run 1).machine.flags.has .pointer =
        false ∧
      ((start (.ofImage truncatedMove) (Buffer.ofInput [])).run 1).machine.flags.hasFault =
        false := by
  decide +kernel

end RegisterMachine
