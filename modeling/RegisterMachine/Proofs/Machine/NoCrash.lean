import RegisterMachine.Proofs.Machine.Tasks

/-!
# RegisterMachine.Proofs.Machine.NoCrash

No check of a guarded step fails: whatever the machine and the console,
`Machine.guardedStep?` does not crash, and does what `Machine.step?` does
(`Machine.guardedStep?_eq`).

An operand is fetched and its value taken before the next operand is fetched,
whereas `Machine.step?` decodes first and takes all values then. Up to the last
operand that makes no difference but for the left operand of a comparison
(`Task.get_left`). So `Task.Carries` compares a task with a decoder and what is
done with the instruction that it finds, and is proved along the fields of the
decoder, like `Task.Follows`.
-/

namespace RegisterMachine

/-! ### Carrying an instruction out -/

/-- What has happened when the host has served an outcome after `s`. -/
def Step.serving {κ : Type} [Console κ] (s : Step κ) (outcome : Outcome) : Step κ :=
  let served := outcome.serve s.console
  { served with events := s.events ++ served.events }

/-- What has happened when an instruction has been carried out after `s`. -/
def Step.carry {κ : Type} [Console κ] (s : Step κ) (left : Register → Word)
    (i : Instruction Word) : Step κ :=
  let announced : Step κ := { s with events := s.events ++ s.machine.announcement i.opcode }
  match s.machine.execute left i with
  | .ok outcome => announced.serving outcome
  | .error f => announced.fault f

/-- Only a request is announced. -/
theorem Machine.announcement_of_ne_syscall (m : Machine) {i : Instruction Word}
    (h : i.opcode ≠ .syscall) : m.announcement i.opcode = [] := by
  cases i with
  | syscall => exact absurd rfl h
  | _ => rfl

namespace Task

variable {κ : Type} [Console κ] {m : Machine} {c : κ} {cursor next : Cursor}
  {left : Register → Word} {i : Instruction Word} {s : Step κ}

theorem carry_of_done {after : Machine} (h : s.machine.execute left i = .ok (.done after))
    (hi : i.opcode ≠ .syscall) : s.carry left i = s.onMachine fun _ => after := by
  unfold Step.carry
  rw [h, s.machine.announcement_of_ne_syscall hi]
  simp [Step.serving, Outcome.serve, Step.onMachine]

theorem carry_of_error {f : Fault} (h : s.machine.execute left i = .error f)
    (hi : i.opcode ≠ .syscall) : s.carry left i = s.fault f := by
  unfold Step.carry
  rw [h, s.machine.announcement_of_ne_syscall hi]
  simp

/-- The task does from the cursor on what the instruction does that the decoder finds there. -/
structure Carries (m : Machine) (c : κ) (cursor : Cursor) (d : Decoder (Instruction Word))
    (t : Task κ Unit) : Prop where
  found {next : Cursor} {i : Instruction Word} : d.run cursor = (some i, next) →
    ∃ r, Runs t (Step.upTo m c cursor) r ((Step.upTo m c next).carry m.registers.leftValue i)
  lost {next : Cursor} : d.run cursor = (none, next) →
    ∃ r, Runs t (Step.upTo m c cursor) r ((Step.upTo m c next).fault .badInstruction)

theorem Carries.fail : Carries m c cursor failure (fail .badInstruction) where
  found h := nomatch h
  lost h := by
    cases h
    exact ⟨none, runs_fail _ _⟩

theorem Carries.pure {t : Task κ Unit} {r : Option Unit}
    (h : Runs t (Step.upTo m c cursor) r
      ((Step.upTo m c cursor).carry m.registers.leftValue i)) :
    Carries m c cursor (Pure.pure i) t where
  found hi := by
    cases hi
    exact ⟨r, h⟩
  lost hi := nomatch hi

theorem Carries.bind {α : Type} {d : Decoder α} {e : α → Decoder (Instruction Word)}
    {t : Task κ α} {k : α → Task κ Unit} (h : Follows m c d t)
    (hk : ∀ a next, d.run cursor = (some a, next) → Carries m c next (e a) (k a)) :
    Carries m c cursor (d >>= e) (t >>= k) := by
  cases hd : d.run cursor with
  | mk found after =>
    cases found with
    | none =>
      -- the instruction ends here, for the decoder and for the task
      have hrun := Memory.run_bind_of_none (f := e) hd
      constructor
      · intro last i hi
        rw [hrun] at hi
        cases hi
      · intro last hi
        rw [hrun] at hi
        cases hi
        exact ⟨none, (h.lost hd).bind_none⟩
    | some a =>
      have hrun := Memory.run_bind_of_some (f := e) hd
      constructor
      · intro last i hi
        rw [hrun] at hi
        obtain ⟨r, hr⟩ := (hk a after hd).found hi
        exact ⟨r, (h.found hd).bind hr⟩
      · intro last hi
        rw [hrun] at hi
        obtain ⟨r, hr⟩ := (hk a after hd).lost hi
        exact ⟨r, (h.found hd).bind hr⟩

/-- An instruction that needs the value of an operand faults if there is none. -/
theorem Carries.source {f : Operand Word → Instruction Word} {k : Word → Task κ Unit}
    {kind : Option OperandKind} (hopcode : ∀ o, (f o).opcode ≠ .syscall)
    (hnone : ∀ (n : Machine) o, n.value? o = none →
      n.execute m.registers.leftValue (f o) = .error .readOutOfBounds)
    (hsome : ∀ next o v, (m.advance next).value? o = some v → ∃ after,
      (m.advance next).execute m.registers.leftValue (f o) = .ok (.done after) ∧
        Runs (k v) (Step.upTo m c next) (some ()) ((Step.upTo m c next).onMachine fun _ => after)) :
    Carries m c cursor (m.memory.fetchOperand kind >>= fun o => Pure.pure (f o))
      (source kind >>= k) := by
  rw [source_eq, bind_assoc]
  refine Carries.bind (follows_operand kind) ?_
  intro o next _
  cases hv : (m.advance next).value? o with
  | none =>
    have hcarry : (Step.upTo m c next).carry m.registers.leftValue (f o) = _ :=
      carry_of_error (hnone _ o hv) (hopcode o)
    refine Carries.pure (r := none) ?_
    rw [hcarry]
    exact (runs_evaluate_of_none hv).bind_none
  | some v =>
    obtain ⟨after, hafter, hruns⟩ := hsome next o v hv
    have hcarry : (Step.upTo m c next).carry m.registers.leftValue (f o) = _ :=
      carry_of_done hafter (hopcode o)
    refine Carries.pure (r := some ()) ?_
    rw [hcarry]
    exact (runs_evaluate_of_some hv).bind hruns

theorem Carries.directSource {f : Direct Word → Instruction Word} {k : Word → Task κ Unit}
    {kind : Option OperandKind}
    (h : ∀ next d, ∃ r, Runs (k ((m.advance next).value d)) (Step.upTo m c next) r
      ((Step.upTo m c next).carry m.registers.leftValue (f d))) :
    Carries m c cursor (m.memory.fetchDirect kind >>= fun d => Pure.pure (f d))
      (directSource kind >>= k) := by
  rw [directSource_eq, bind_assoc]
  refine Carries.bind (follows_direct kind) ?_
  intro d next _
  obtain ⟨r, hruns⟩ := h next d
  exact Carries.pure ((runs_evaluate_direct d (Step.upTo m c next)).bind hruns)

theorem carries_mov : Carries m c cursor (m.memory.fetchFields .mov) (mov : Task κ Unit) := by
  refine Carries.bind follows_fetchMode ?_
  intro mode next _
  cases mode.dst? with
  | none => exact Carries.fail
  | some kind =>
    cases kind with
    | register =>
      refine Carries.bind follows_fetchRegister ?_
      intro dst next _
      refine Carries.source (fun _ h => Opcode.noConfusion h) ?_ ?_
      · intro n o ho
        simp only [Machine.execute, ho]
      · intro next o v hv
        refine ⟨(m.advance next).move dst v, ?_, runs_put dst _ _⟩
        simp only [Machine.execute, hv]
    | memory =>
      refine Carries.bind follows_fetchWord ?_
      intro address next _
      refine Carries.directSource ?_
      intro next d
      cases hmemory : (m.advance next).memory.store? address ((m.advance next).value d) with
      | none =>
        have hexecute : (Step.upTo m c next).machine.execute m.registers.leftValue
            (.store address d) = .error .writeOutOfBounds := by
          show (m.advance next).execute _ _ = _
          simp only [Machine.execute, hmemory]
        rw [carry_of_error hexecute fun h => Opcode.noConfusion h]
        exact ⟨none, runs_store_of_none hmemory⟩
      | some memory =>
        have hexecute : (Step.upTo m c next).machine.execute m.registers.leftValue
            (.store address d) = .ok (.done { m.advance next with memory }) := by
          show (m.advance next).execute _ _ = _
          simp only [Machine.execute, hmemory]
        rw [carry_of_done hexecute fun h => Opcode.noConfusion h]
        exact ⟨some (), runs_store_of_some hmemory⟩
    | _ => exact Carries.fail

theorem carries_arithmetic (op : Arith) :
    Carries m c cursor (m.memory.fetchFields (.arith op)) (arithmetic op : Task κ Unit) := by
  refine Carries.bind follows_fetchMode ?_
  intro mode next _
  refine Carries.bind (follows_destination mode) ?_
  intro dst next _
  refine Carries.source (fun _ h => Opcode.noConfusion h) ?_ ?_
  · intro n o ho
    simp only [Machine.execute, ho]
  · intro next o v hv
    refine ⟨(m.advance next).set dst (op.apply ((m.advance next).get dst) v), ?_, ?_⟩
    · simp only [Machine.execute, hv]
    · exact (runs_register dst _).bind (runs_put dst _ _)

theorem carries_branch (b : Condition) :
    Carries m c cursor (m.memory.fetchFields (.branch b)) (branch b : Task κ Unit) := by
  refine Carries.bind follows_fetchMode ?_
  intro mode next _
  refine Carries.directSource ?_
  intro next d
  refine ⟨some (), ?_⟩
  have hexecute : (Step.upTo m c next).machine.execute m.registers.leftValue (.branch b d) =
      .ok (.done ((m.advance next).branch b ((m.advance next).value d))) := rfl
  rw [carry_of_done hexecute fun h => Opcode.noConfusion h]
  exact runs_modify _ _

/-- The index of a register is fetched and stands for it, or is not fetched and read as zero. -/
theorem cases_fetchRegister {r : Register}
    (h : m.memory.fetchRegister.run cursor = (some r, next)) :
    (cursor.ip.toNat + 1 ≤ m.memory.codeSize.toNat ∧ next = cursor.skip 1) ∨ r = .r1 := by
  have hbyte : m.memory.fetchByte.run cursor =
      (some (UInt8.ofNat (m.memory.fetch 1 cursor).1), (m.memory.fetch 1 cursor).2) := rfl
  have hr : m.memory.fetchRegister.run cursor = _ := Memory.run_bind_of_some hbyte
  rw [hr] at h
  by_cases hin : cursor.ip.toNat + 1 ≤ m.memory.codeSize.toNat
  · refine Or.inl ⟨hin, ?_⟩
    rw [Memory.fetch_of_inside hin] at h
    dsimp only at h
    split at h
    · cases h
      rfl
    · cases h
  · rw [Memory.fetch_of_outside hin] at h
    cases h
    exact Or.inr rfl

theorem run_fetchRegister_of_fetchDestination {kind : Option OperandKind} {r : Register}
    (h : (m.memory.fetchDestination kind).run cursor = (some r, next)) :
    m.memory.fetchRegister.run cursor = (some r, next) := by
  unfold Memory.fetchDestination at h
  split at h
  · exact h
  · cases h

/-- When the left operand of a comparison has been fetched, its value is the one that is meant:
`IP` is three bytes into the instruction, and no fault is among the flags. -/
theorem get_left {mode : Mode} {r : Register} {after : Cursor}
    (hmode : m.memory.fetchMode.run (Cursor.skip ⟨m.ip, []⟩ 1) = (some mode, after))
    (hr : (m.memory.fetchDestination mode.dst?).run after = (some r, next)) :
    (m.advance next).get r = m.registers.leftValue r := by
  have hafter : (m.memory.fetch 1 (Cursor.skip ⟨m.ip, []⟩ 1)).2 = after := congrArg Prod.snd hmode
  obtain ⟨hin, rfl⟩ | rfl := cases_fetchRegister (run_fetchRegister_of_fetchDestination hr)
  · by_cases hfirst : (Cursor.skip ⟨m.ip, []⟩ 1).ip.toNat + 1 ≤ m.memory.codeSize.toNat
    · rw [Memory.fetch_of_inside hfirst, Cursor.skip_skip] at hafter
      have hadvance : m.advance (after.skip 1) = m.set .ip (m.ip + 3) := by
        rw [← hafter, Cursor.skip_skip]
        rfl
      rw [hadvance, Machine.get_set]
      rfl
    · -- a fetch that is refused leaves the cursor where no other byte can be fetched
      rw [Memory.fetch_of_outside hfirst] at hafter
      rw [← hafter] at hin
      exact absurd hin hfirst
  · exact m.get_advance_of_ne next (by decide) (by decide)

theorem Carries.register {d : Decoder (Instruction Word)} {k : Word → Task κ Unit} {r : Register}
    (h : Carries m c cursor d (k ((m.advance cursor).get r))) :
    Carries m c cursor d (Task.register r >>= k) where
  found hi := by
    obtain ⟨result, hruns⟩ := h.found hi
    exact ⟨result, (runs_register r _).bind hruns⟩
  lost hi := by
    obtain ⟨result, hruns⟩ := h.lost hi
    exact ⟨result, (runs_register r _).bind hruns⟩

theorem carries_compare :
    Carries m c (Cursor.skip ⟨m.ip, []⟩ 1) (m.memory.fetchFields .cmp)
      (Task.compare : Task κ Unit) := by
  refine Carries.bind follows_fetchMode ?_
  intro mode after hmode
  refine Carries.bind (follows_destination mode) ?_
  intro r next hr
  refine Carries.register ?_
  rw [get_left hmode hr]
  refine Carries.source (fun _ h => Opcode.noConfusion h) ?_ ?_
  · intro n o ho
    simp only [Machine.execute, ho]
  · intro next o v hv
    refine ⟨(m.advance next).compare (m.registers.leftValue r) v, ?_, runs_modify _ _⟩
    simp only [Machine.execute, hv]

/-! ### Requests -/

theorem runs_send_of_inside (descriptor : Word) {address count : Word}
    (h : s.machine.memory.Inside address.toNat count.toNat) :
    Runs (send descriptor address count) s (some PUnit.unit)
      (s.serving (.write descriptor (s.machine.memory.slice address.toNat count.toNat)
        (s.machine.set .r1 count))) := by
  have hbytes := runs_bytesOf (inRange_of_inside h)
  dsimp only at hbytes
  rw [Nat.add_sub_cancel_left] at hbytes
  refine (runs_reach_of_inside _ h).bind ?_
  refine hbytes.bind ?_
  refine (runs_get s).bind ?_
  refine (runs_set s _).bind ?_
  exact runs_put .r1 count _

theorem length_buffer (bytes : List Byte) (room : Nat) :
    ((bytes ++ List.replicate room 0).take room).length = room := by
  simp

/-- What is copied from a buffer is what has been read, as far as the buffer goes. -/
theorem take_buffer (bytes : List Byte) (room : Nat) :
    ((bytes ++ List.replicate room 0).take room).take (min bytes.length room) =
      bytes.take room := by
  rw [List.take_take, Nat.min_eq_left (Nat.min_le_right _ _),
    List.take_append_of_le_length (Nat.min_le_left _ _), Nat.min_comm]
  exact List.take_eq_take_min.symm

/-- However many bytes the console says that it has read, there is room for what is copied. -/
theorem runs_fill {address count : Nat} (h : s.machine.memory.Inside address count)
    (asked : Word) :
    Runs (fill asked ⟨address, address + count⟩) s
      (some ((Console.read s.console count).1.bytes.take count).length)
      (let (reply, console) := Console.read s.console count
       let bytes := reply.bytes.take count
       (Step.emit (.read asked bytes reply.error) { s with console }).onMachine fun m =>
        { m with memory := s.machine.memory.write address bytes }) := by
  have hin : address + count ≤ s.machine.memory.size := h
  refine (runs_get s).bind ?_
  dsimp only
  rw [Nat.add_sub_cancel_left, length_buffer]
  generalize hread : Console.read s.console count = answer
  obtain ⟨reply, console⟩ := answer
  dsimp only
  have hlength : (reply.bytes.take count).length = min reply.bytes.length count := by
    rw [List.length_take, Nat.min_comm]
  refine (runs_firstOf ?_ s).bind ?_
  · rw [length_buffer]
    exact Nat.min_le_right _ _
  rw [take_buffer, ← hlength]
  refine (runs_set s _).bind ?_
  -- what is copied is not longer than the range, and the range is one of the memory
  refine (runs_copy ⟨Nat.le_add_right _ _, ?_⟩ ?_).bind (runs_pure _ _)
  · show address + _ ≤ s.machine.memory.size
    omega
  · exact (Nat.add_sub_cancel_left _ _).symm

theorem runs_receive_of_inside {descriptor address count : Word}
    (h : s.machine.memory.Inside address.toNat count.toNat) :
    Runs (receive descriptor address count) s (some PUnit.unit)
      (s.serving (if descriptor = 0 then .read address count s.machine
        else .done (s.machine.set .r1 0))) := by
  refine (runs_reach_of_inside _ h).bind ?_
  split
  · exact (runs_fill h count).bind (runs_put .r1 _ _)
  · simp only [Step.serving, Outcome.serve, List.append_nil]
    exact runs_put .r1 0 s

theorem carry_of_grant {outcome : Outcome} (h : s.machine.request = .ok outcome) :
    s.carry left .syscall = (s.emit s.machine.requestEvent).serving outcome := by
  have hexecute : s.machine.execute left .syscall = .ok outcome := h
  unfold Step.carry
  rw [hexecute]
  rfl

theorem carry_of_refusal {f : Fault} (h : s.machine.request = .error f) :
    s.carry left .syscall = (s.emit s.machine.requestEvent).fault f := by
  have hexecute : s.machine.execute left .syscall = .error f := h
  unfold Step.carry
  rw [hexecute]
  rfl

/-- A request that has been announced is served as the instruction says. -/
theorem runs_request (left : Register → Word) (s : Step κ) :
    ∃ r, Runs (request (s.machine.get .r1) (s.machine.get .r2) (s.machine.get .r3)
      (s.machine.get .r4)) (s.emit s.machine.requestEvent) r (s.carry left .syscall) := by
  -- the memory, the registers and the console are those before the announcement
  generalize hannounced : s.emit s.machine.requestEvent = announced
  have hmachine : announced.machine = s.machine := by rw [← hannounced]; rfl
  unfold request
  cases hid : Syscall.ofId? (s.machine.get .r1) with
  | none =>
    have hrequest : s.machine.request = .error .badInstruction := by
      simp only [Machine.request, hid]
    rw [carry_of_refusal hrequest, hannounced]
    exact ⟨none, runs_fail _ _⟩
  | some id =>
    cases id with
    | exit =>
      have hrequest : s.machine.request = .ok (.done s.machine.halt) := by
        simp only [Machine.request, hid]
      rw [carry_of_grant hrequest, hannounced]
      refine ⟨some (), ?_⟩
      simp only [Step.serving, Outcome.serve, List.append_nil, ← hmachine]
      exact runs_modify _ _
    | openFile =>
      have hrequest : s.machine.request = .ok (.done (s.machine.set .r1 0xFFFFFFFF)) := by
        simp only [Machine.request, hid]
      rw [carry_of_grant hrequest, hannounced]
      refine ⟨some (), ?_⟩
      simp only [Step.serving, Outcome.serve, List.append_nil, ← hmachine]
      exact runs_put _ _ _
    | write =>
      by_cases hin : s.machine.memory.Inside (s.machine.get .r3).toNat (s.machine.get .r4).toNat
      · have hrequest : s.machine.request = .ok (.write (s.machine.get .r2)
            (s.machine.memory.slice (s.machine.get .r3).toNat (s.machine.get .r4).toNat)
            (s.machine.set .r1 (s.machine.get .r4))) := by
          simp only [Machine.request, hid, if_pos hin]
        rw [carry_of_grant hrequest, hannounced]
        rw [← hmachine] at hin ⊢
        exact ⟨some (), runs_send_of_inside _ hin⟩
      · have hrequest : s.machine.request = .error .readOutOfBounds := by
          simp only [Machine.request, hid, if_neg hin]
        rw [carry_of_refusal hrequest, hannounced]
        rw [← hmachine] at hin ⊢
        exact ⟨none, (runs_reach_of_outside _ hin).bind_none⟩
    | read =>
      by_cases hin : s.machine.memory.Inside (s.machine.get .r3).toNat (s.machine.get .r4).toNat
      · have hrequest : s.machine.request =
            .ok (if s.machine.get .r2 = 0 then
              .read (s.machine.get .r3) (s.machine.get .r4) s.machine
            else .done (s.machine.set .r1 0)) := by
          simp only [Machine.request, hid, if_pos hin]
          split <;> rfl
        rw [carry_of_grant hrequest, hannounced]
        rw [← hmachine] at hin ⊢
        exact ⟨some (), runs_receive_of_inside hin⟩
      · have hrequest : s.machine.request = .error .writeOutOfBounds := by
          simp only [Machine.request, hid, if_neg hin]
        rw [carry_of_refusal hrequest, hannounced]
        rw [← hmachine] at hin ⊢
        exact ⟨none, (runs_reach_of_outside _ hin).bind_none⟩

theorem runs_syscall (left : Register → Word) (s : Step κ) :
    ∃ r, Runs syscall s r (s.carry left .syscall) := by
  obtain ⟨r, hrequest⟩ := runs_request left s
  refine ⟨r, ?_⟩
  refine (runs_register .r1 s).bind ?_
  refine (runs_register .r2 s).bind ?_
  refine (runs_register .r3 s).bind ?_
  refine (runs_register .r4 s).bind ?_
  exact (runs_modify _ s).bind hrequest

/-! ### The whole step -/

theorem carries_execute (opcode : Byte) :
    Carries m c (Cursor.skip ⟨m.ip, []⟩ 1) (m.memory.fetchInstruction opcode)
      (execute opcode : Task κ Unit) := by
  unfold Memory.fetchInstruction execute
  cases Opcode.ofByte? opcode with
  | none => exact Carries.fail
  | some op =>
    cases op with
    | nop =>
      have hcarry : (Step.upTo m c (Cursor.skip ⟨m.ip, []⟩ 1)).carry m.registers.leftValue .nop =
          _ := carry_of_done rfl nofun
      refine Carries.pure (r := some ()) ?_
      rw [hcarry]
      exact runs_pure _ _
    | mov => exact carries_mov
    | arith op => exact carries_arithmetic op
    | cmp => exact carries_compare
    | branch b => exact carries_branch b
    | syscall =>
      obtain ⟨r, hruns⟩ := runs_syscall m.registers.leftValue
        (Step.upTo m c (Cursor.skip ⟨m.ip, []⟩ 1))
      exact Carries.pure hruns

end Task

/-- The step with a trace record of its instruction, if the machine is asked for one. -/
def Step.traced {κ : Type} [Console κ] (s : Step κ) (ip : Word) (opcode : Byte) : Step κ :=
  if s.machine.tracing then
    let record := TraceRecord.ofMachine s.machine ip opcode
    Step.emit (.trace record) { s with console := Console.trace s.console record }
  else s

namespace Machine

variable {κ : Type} [Console κ] {m : Machine}

/-- What has happened when the instruction at `IP` has been carried out, as far as there is
one. -/
def carriedOut (m : Machine) (c : κ) : Step κ :=
  let decoded := m.memory.decode m.ip
  match decoded.instruction? with
  | some i => (Step.upTo m c decoded.cursor).carry m.registers.leftValue i
  | none => (Step.upTo m c decoded.cursor).fault .badInstruction

theorem runs_execute (hip : m.ip < m.memory.codeSize) (c : κ) :
    ∃ r, Task.Runs (Task.execute (m.memory.decode m.ip).opcode)
      (Step.upTo m c (Cursor.skip ⟨m.ip, []⟩ 1)) r (m.carriedOut c) := by
  have hdecode := Memory.run_fetchInstruction_decode hip
  have hcarries : Task.Carries m c (Cursor.skip ⟨m.ip, []⟩ 1) _ _ :=
    Task.carries_execute (m.memory.decode m.ip).opcode
  unfold carriedOut
  dsimp only
  cases hi : (m.memory.decode m.ip).instruction? with
  | none =>
    rw [hi] at hdecode
    exact hcarries.lost hdecode
  | some i =>
    rw [hi] at hdecode
    exact hcarries.found hdecode

/-- The guarded step comes to the end of the instruction. -/
theorem runs_step (hip : m.ip < m.memory.codeSize) (c : κ) :
    Task.Runs Task.step ⟨m, c, []⟩ (some ())
      ((m.carriedOut c).traced m.ip (m.memory.decode m.ip).opcode) := by
  have hstart : (⟨m, c, []⟩ : Step κ) = Step.upTo m c ⟨m.ip, []⟩ := by
    unfold Step.upTo
    rw [m.advance_start]
    rfl
  have hopcode : Task.Runs Task.fetchByte (Step.upTo m c ⟨m.ip, []⟩)
      (some (m.memory.decode m.ip).opcode) (Step.upTo m c (Cursor.skip ⟨m.ip, []⟩ 1)) := by
    have hin : (⟨m.ip, []⟩ : Cursor).ip.toNat + 1 ≤ m.memory.codeSize.toNat :=
      UInt32.lt_iff_toNat_lt.1 hip
    have hfetch := Memory.fetch_of_inside hin
    have hbyte : Task.Runs Task.fetchByte (Step.upTo m c ⟨m.ip, []⟩) _ _ := Task.runs_fetchByte
    rw [hfetch] at hbyte
    unfold Memory.decode
    rw [hfetch]
    exact hbyte
  obtain ⟨r, hexecute⟩ := m.runs_execute hip c
  rw [hstart]
  refine (Task.runs_register .ip _).bind ?_
  rw [Task.get_upTo_ip]
  refine hopcode.bind ?_
  -- the trace record is written even if the instruction has ended early
  refine hexecute.orElse_pure.bind ?_
  refine (Task.runs_get _).bind ?_
  unfold Step.traced
  split
  · exact Task.runs_set _ _
  · exact Task.runs_pure _ _

/-- A turn that has been served is traced in the end. -/
theorem serve_eq_traced {turn : Turn} {ip : Word} {opcode : Byte} (before : Step κ)
    (hfetched : turn.fetched = some (ip, opcode)) (hevents : turn.events = before.events) :
    turn.serve before.console = (before.serving turn.outcome).traced ip opcode := by
  unfold Turn.serve Turn.record? Step.traced Step.serving
  rw [hfetched, hevents]
  dsimp only
  cases (turn.outcome.serve before.console).machine.tracing with
  | true => rfl
  | false => rfl

/-- A turn that ends with a fault has nothing to be served. -/
theorem serve_eq_traced_fault {turn : Turn} {ip : Word} {opcode : Byte} {f : Fault}
    (before : Step κ) (hfetched : turn.fetched = some (ip, opcode))
    (hevents : turn.events = (before.fault f).events)
    (houtcome : turn.outcome = .done (before.machine.raise f)) :
    turn.serve before.console = (before.fault f).traced ip opcode := by
  have hserving : (before.fault f).serving turn.outcome = before.fault f := by
    rw [houtcome]
    unfold Step.serving
    simp only [Outcome.serve, List.append_nil]
    rfl
  have hserve : turn.serve (before.fault f).console = _ := serve_eq_traced _ hfetched hevents
  rw [hserving] at hserve
  exact hserve

theorem serve_carriedOut {turn : Turn} (h : m.Turns turn) (hip : m.ip < m.memory.codeSize)
    (c : κ) : turn.serve c = (m.carriedOut c).traced m.ip (m.memory.decode m.ip).opcode := by
  unfold carriedOut
  dsimp only
  cases h with
  | outside hout => exact absurd hip hout
  | undecodable _ hi =>
    rw [hi]
    exact serve_eq_traced_fault (Step.upTo m c (m.memory.decode m.ip).cursor) rfl rfl rfl
  | @fetched i _ hi =>
    rw [hi]
    dsimp only
    have hexecute : (Step.upTo m c (m.memory.decode m.ip).cursor).machine.execute
        m.registers.leftValue i = m.decoded.execute m.registers.leftValue i := rfl
    unfold Step.carry
    rw [hexecute]
    cases m.decoded.execute m.registers.leftValue i with
    | ok outcome => exact serve_eq_traced ⟨m.decoded, c, m.refusals ++ _⟩ rfl rfl
    | error f => exact serve_eq_traced_fault ⟨m.decoded, c, m.refusals ++ _⟩ rfl rfl rfl

/-- No check fails. Whatever the machine and the console, the guarded step is the step. -/
theorem guardedStep?_eq (m : Machine) (c : κ) : m.guardedStep? c = .ok (m.step? c) := by
  unfold guardedStep?
  cases hstatus : m.status with
  | halted => rw [step?_of_halted hstatus]
  | running =>
    obtain ⟨s, hs⟩ := Option.isSome_iff_exists.1 (step?_isSome_of_running hstatus c)
    rw [hs]
    dsimp only
    by_cases hip : m.ip < m.memory.codeSize
    · obtain ⟨-, turn, hturn, rfl⟩ := turns_of_step hs
      have hstep : Task.step.run.run ⟨m, c, []⟩ = _ := m.runs_step hip c
      rw [if_neg (UInt32.not_le.2 hip), hstep, serve_carriedOut hturn hip]
      rfl
    · rw [if_pos (UInt32.not_lt.1 hip), step_of_outside hs hip]
      rfl

end Machine

end RegisterMachine
