import RegisterMachine.Proofs.Machine.Discipline

/-!
# RegisterMachine.Proofs.Machine.Frame

What one step leaves alone. Whatever the bytes of the code are, everything that
a step changes can be put down to the instruction that is carried out or to a
fault that is raised (`Machine.Framed`): a byte of the memory to a store or a
read, a register to an instruction that names it or to an answer in `r1`, a bit
of the flags to a comparison, a branch, a word for `rF`, or a fault.

Each kind of place has one lemma for the instructions (`Commits.get`,
`Commits.bytes`, `Commits.testBit`), which goes by the cases of
`Machine.Commits`, and one for the requests, for which `Commits` says too little
(`Machine.memory_of_request`).
-/

namespace RegisterMachine

/-- The flags that the instruction sets or clears, besides those of a fault. -/
def Instruction.affects {α : Type} : Instruction α → List Flag
  | cmp _ _ => Flag.outcomes
  | branch _ _ => [.test]
  | _ => []

namespace Machine

variable {m : Machine} {left : Register → Word} {i : Instruction Word} {outcome : Outcome}
  {κ : Type} [Console κ] {c : κ} {s : Step κ}

/-! ### Instructions -/

/-- The bits of the flags that an instruction changes are its own, unless it puts a word into
`rF`. -/
theorem Commits.testBit (h : m.Commits left i outcome) {k : Nat}
    (hk : outcome.machine.flags.testBit k ≠ m.flags.testBit k) :
    i.target? = some .rF ∨ ∃ f ∈ i.affects, f.place = k := by
  cases h with
  | nop => exact absurd rfl hk
  | syscall hg =>
    exact absurd (by rw [hg.flags]) hk
  | @assign i r w ha =>
    by_cases hr : r = .rF
    · exact Or.inl (hr ▸ target?_of_assigned ha)
    · have hflags : (Outcome.done (m.set r w)).machine.flags = m.flags := m.flags_set_of_ne w hr
      exact absurd (by rw [hflags]) hk
  | store hm => exact absurd rfl hk
  | @cmp r right v hv =>
    change (m.withFlags _).flags.testBit k ≠ _ at hk
    rw [flags_withFlags] at hk
    exact Or.inr (Flags.exists_place_of_comparison (comparisonFlag_mem _ _ _) hk)
  | @branch b target =>
    refine Or.inr ⟨.test, List.mem_singleton_self _, ?_⟩
    change (m.branch b (m.value target)).flags.testBit k ≠ _ at hk
    unfold Machine.branch at hk
    split at hk
    · rw [flags_set_of_ne _ _ (by decide), flags_withFlags] at hk
      exact Flags.place_of_insert hk
    · rw [flags_withFlags] at hk
      exact Flags.place_of_remove hk

/-- No instruction but a request changes a register that it does not name, except `IP` and
`rF`. -/
theorem Commits.get (h : m.Commits left i outcome) {r : Register} (hip : r ≠ .ip)
    (hflags : r ≠ .rF) (hr : i = .syscall → r ≠ .r1) (hi : i.target? ≠ some r) :
    outcome.machine.get r = m.get r := by
  cases h with
  | nop => rfl
  | syscall hg => exact hg.get (hr rfl)
  | @assign i t w ha =>
    refine m.get_set_of_ne w ?_
    rintro rfl
    exact hi (target?_of_assigned ha)
  | store hm => rfl
  | cmp hv => exact m.get_set_of_ne _ hflags
  | @branch b target =>
    show (m.branch b (m.value target)).get r = _
    unfold Machine.branch
    split
    · rw [get_set_of_ne _ _ hip]
      exact m.get_set_of_ne _ hflags
    · exact m.get_set_of_ne _ hflags

/-- No instruction but a request changes a byte that is not one of the four of a store. -/
theorem Commits.bytes (h : m.Commits left i outcome) (hi : i ≠ .syscall) {k : Nat}
    (hk : outcome.machine.memory.bytes[k]? ≠ m.memory.bytes[k]?) :
    ∃ address src, i = .store address src ∧ address.toNat ≤ k ∧ k < address.toNat + 4 := by
  cases h with
  | nop => exact absurd rfl hk
  | syscall hg => exact absurd rfl hi
  | assign ha => exact absurd rfl hk
  | @store address src memory hm =>
    refine ⟨address, src, rfl, ?_⟩
    unfold Memory.store? at hm
    split at hm
    · cases hm
      refine Classical.byContradiction fun hout => hk (Memory.getElem?_write_of_outside ?_)
      rw [Word.length_toBytes]
      omega
    · cases hm
  | cmp hv => exact absurd rfl hk
  | @branch b target =>
    refine absurd ?_ hk
    show (m.branch b (m.value target)).memory.bytes[k]? = _
    unfold Machine.branch
    split <;> rfl

/-- An instruction asks the host for nothing, unless it is a request. -/
theorem Commits.serve (h : m.Commits left i outcome) (hi : i ≠ .syscall) (c : κ) :
    (outcome.serve c).machine = outcome.machine := by
  cases h with
  | syscall hg => exact absurd rfl hi
  | _ => rfl

/-! ### Requests -/

/-- The next step carries out the request `id`. -/
def Requests (m : Machine) (id : Syscall) : Prop :=
  m.Completes .syscall ∧ Syscall.ofId? (m.get .r1) = some id

/-- What is known of the memory after a request: it is as before, or the request was a read from
the standard input and `r1` says how many bytes have come. -/
theorem memory_of_request (h : m.decoded.request = .ok outcome) (c : κ) :
    (outcome.serve c).machine.memory = m.memory ∨
      Syscall.ofId? (m.get .r1) = some .read ∧ m.get .r2 = 0 ∧
        ∃ bytes : List Byte, bytes.length ≤ (m.get .r4).toNat ∧
          (outcome.serve c).machine.get .r1 = UInt32.ofNat bytes.length ∧
          (outcome.serve c).machine.memory = m.memory.write (m.get .r3).toNat bytes := by
  have hmemory := m.memory_decoded
  rw [m.request_decoded] at h
  cases hid : Syscall.ofId? (m.get .r1) with
  | none =>
    rw [hid] at h
    cases h
  | some id =>
    rw [hid] at h
    cases id with
    | exit =>
      cases h
      exact Or.inl hmemory
    | write =>
      dsimp only at h
      split at h <;> cases h
      exact Or.inl hmemory
    | read =>
      dsimp only at h
      split at h
      · split at h <;> cases h
        · rename_i hdescriptor
          refine Or.inr ⟨rfl, hdescriptor, _, List.length_take_le _ _, get_set_self _ _ _, ?_⟩
          rw [← hmemory]
          rfl
        · exact Or.inl hmemory
      · cases h
    | openFile =>
      cases h
      exact Or.inl hmemory

/-- A request that has changed `r1` is not that to exit. -/
theorem not_exit_of_request (h : m.decoded.request = .ok outcome)
    (hr : (outcome.serve c).machine.get .r1 ≠ m.get .r1) :
    ∃ id, id ≠ .exit ∧ Syscall.ofId? (m.get .r1) = some id := by
  rw [m.request_decoded] at h
  cases hid : Syscall.ofId? (m.get .r1) with
  | none =>
    rw [hid] at h
    cases h
  | some id =>
    refine ⟨id, ?_, rfl⟩
    rintro rfl
    rw [hid] at h
    cases h
    exact hr (m.get_advance_of_ne _ (by decide) (by decide))

/-! ### Steps -/

/-- Everything that the step `s` of `m` has changed, besides `IP` and whether the machine runs, is
put down to the instruction that is carried out, or to a fault. -/
structure Framed (m : Machine) (s : Step κ) : Prop where
  /-- The memory is as long as before, and so is the code in it. -/
  extent : s.machine.memory.SameExtent m.memory
  tracing : s.machine.tracing = m.tracing
  /-- A byte has changed in the four bytes of a store, or in a block that was read and is not
  longer than was asked for. -/
  memory : ∀ k : Nat, s.machine.memory.bytes[k]? ≠ m.memory.bytes[k]? →
    (∃ address src, m.Completes (.store address src) ∧
      address.toNat ≤ k ∧ k < address.toNat + 4) ∨
    m.Requests .read ∧ m.get .r2 = 0 ∧ ∃ n ≤ (m.get .r4).toNat,
      (s.machine.get .r1).toNat = n ∧ (m.get .r3).toNat ≤ k ∧ k < (m.get .r3).toNat + n
  /-- Another register than `IP` and `rF` has changed as the destination of an instruction, or as
  the place of an answer. -/
  registers : ∀ r, r ≠ .ip → r ≠ .rF → s.machine.get r ≠ m.get r →
    (∃ i, m.Completes i ∧ i.target? = some r) ∨
    r = .r1 ∧ ∃ id, id ≠ .exit ∧ m.Requests id
  /-- A bit of the flags has changed with all of `rF`, with a comparison or a branch that concerns
  it, or with a fault. -/
  flags : ∀ k, s.machine.flags.testBit k ≠ m.flags.testBit k →
    (∃ i, m.Completes i ∧ i.target? = some .rF) ∨
    (∃ i, m.Completes i ∧ ∃ f ∈ i.affects, f.place = k) ∨
    ∃ f ip, Event.fault f ip ∈ s.events ∧ f.flag.place = k

/-- Every refused fetch of a step is among its events. -/
theorem fault_mem_of_refusals (h : m.step? c = some s) (hip : m.ip < m.memory.codeSize)
    {f : Fault} {ip : Word} (hf : Event.fault f ip ∈ m.refusals) :
    Event.fault f ip ∈ s.events := by
  obtain ⟨-, turn, hturn, rfl⟩ := turns_of_step h
  refine Turn.fault_mem_serve.2 ?_
  cases hturn with
  | outside hout => exact absurd hip hout
  | undecodable hip hi => exact List.mem_append_left _ hf
  | fetched hip hi => exact fault_mem_turnOf.2 (Or.inl hf)

/-- Of the flags, decoding changes at most the one of a refused fetch. -/
theorem testBit_decoded {k : Nat} (hk : m.decoded.flags.testBit k ≠ m.flags.testBit k) :
    ∃ f ip, Event.fault f ip ∈ m.refusals ∧ f.flag.place = k := by
  have hflags : m.decoded.flags = _ := m.flags_advance _
  rw [hflags] at hk
  split at hk
  · exact absurd rfl hk
  · rename_i hrefused
    obtain ⟨address, haddress⟩ := List.exists_mem_of_ne_nil _ hrefused
    exact ⟨.pointerOutOfBounds, address, List.mem_map_of_mem haddress, Flags.place_of_insert hk⟩

/-- What a step that ends with a fault has changed. -/
theorem framed_of_raise {before : Machine} {f : Fault} {ip : Word} (h : m.step? c = some s)
    (hbefore : before = m ∨ m.ip < m.memory.codeSize ∧ before = m.decoded)
    (hmachine : s.machine = before.raise f) (hf : Event.fault f ip ∈ s.events) : m.Framed s where
  extent := sameExtent_of_step h
  tracing := tracing_of_step h
  memory k hk := by
    refine absurd ?_ hk
    rw [hmachine, memory_raise]
    obtain rfl | ⟨-, rfl⟩ := hbefore
    · rfl
    · rw [memory_decoded]
  registers r hip hflags hr := by
    refine absurd ?_ hr
    rw [hmachine, get_raise_of_ne _ _ hflags]
    obtain rfl | ⟨-, rfl⟩ := hbefore
    · rfl
    · exact m.get_advance_of_ne _ hip hflags
  flags k hk := by
    refine Or.inr (Or.inr ?_)
    rw [hmachine, flags_raise] at hk
    by_cases hraised : (before.flags.insert (.ofFlag f.flag)).testBit k = before.flags.testBit k
    · -- then the bit has changed before
      rw [hraised] at hk
      obtain rfl | ⟨hip, rfl⟩ := hbefore
      · exact absurd rfl hk
      · obtain ⟨g, ip, hg, hplace⟩ := testBit_decoded hk
        exact ⟨g, ip, fault_mem_of_refusals h hip hg, hplace⟩
    · exact ⟨f, ip, hf, Flags.place_of_insert hraised⟩

/-- What a step that carries an instruction out has changed. -/
theorem framed_of_completes (h : m.step? c = some s) (hi : m.Completes i)
    (hresult : m.decoded.execute m.registers.leftValue i = .ok outcome)
    (hmachine : s.machine = (outcome.serve c).machine) : m.Framed s where
  extent := sameExtent_of_step h
  tracing := tracing_of_step h
  memory k hk := by
    rw [hmachine, ← m.memory_decoded] at hk
    by_cases hsyscall : i = .syscall
    · subst hsyscall
      obtain hsame | ⟨hid, hdescriptor, bytes, hlength, hr1, hwritten⟩ :=
        memory_of_request hresult c
      · exact absurd (by rw [hsame, memory_decoded]) hk
      · have hcount : (UInt32.ofNat bytes.length).toNat = bytes.length :=
          UInt32.toNat_ofNat_of_lt' (Nat.lt_of_le_of_lt hlength (m.get .r4).toNat_lt)
        refine Or.inr ⟨⟨hi, hid⟩, hdescriptor, bytes.length, hlength, ?_, ?_⟩
        · rw [hmachine, hr1, hcount]
        · refine Classical.byContradiction fun hout => hk ?_
          rw [hwritten, memory_decoded]
          exact Memory.getElem?_write_of_outside (by omega)
    · have hcommits := commits_of_execute hresult
      rw [hcommits.serve hsyscall] at hk
      obtain ⟨address, src, rfl, hin⟩ := hcommits.bytes hsyscall hk
      exact Or.inl ⟨address, src, hi, hin⟩
  registers r hip hflags hr := by
    have hdecoded : m.decoded.get r = m.get r := m.get_advance_of_ne _ hip hflags
    rw [hmachine] at hr
    by_cases hanswer : i = .syscall ∧ r = .r1
    · obtain ⟨rfl, rfl⟩ := hanswer
      obtain ⟨id, hne, hid⟩ := not_exit_of_request hresult hr
      exact Or.inr ⟨rfl, id, hne, hi, hid⟩
    · refine Or.inl ⟨i, hi, Classical.byContradiction fun htarget => hr ?_⟩
      have hcommits := commits_of_execute hresult
      rw [← hdecoded, ← hcommits.get hip hflags (fun hsyscall hr1 => hanswer ⟨hsyscall, hr1⟩)
        htarget]
      by_cases hsyscall : i = .syscall
      · exact outcome.get_machine_serve_of_ne c fun hr1 => hanswer ⟨hsyscall, hr1⟩
      · rw [hcommits.serve hsyscall]
  flags k hk := by
    rw [hmachine, Outcome.flags_machine_serve] at hk
    by_cases hcommitted : outcome.machine.flags.testBit k = m.decoded.flags.testBit k
    · -- then the bit has changed before
      rw [hcommitted] at hk
      obtain ⟨g, ip, hg, hplace⟩ := testBit_decoded hk
      exact Or.inr (Or.inr ⟨g, ip, fault_mem_of_refusals h hi.2.1 hg, hplace⟩)
    · obtain htarget | haffects := (commits_of_execute hresult).testBit hcommitted
      · exact Or.inl ⟨i, hi, htarget⟩
      · exact Or.inr (Or.inl ⟨i, hi, haffects⟩)

theorem framed_of_step (h : m.step? c = some s) : m.Framed s := by
  by_cases hip : m.ip < m.memory.codeSize
  · cases ends_of_step h with
    | fault hbefore hmachine hf hno =>
      exact framed_of_raise h (hbefore.imp_right fun hdecoded => ⟨hip, hdecoded⟩) hmachine hf
    | complete hi hresult hmachine hfaults => exact framed_of_completes h hi hresult hmachine
  · have hs := step_of_outside h hip
    have hfault : Event.fault .pointerOutOfBounds m.ip ∈ s.events := by
      rw [hs]
      exact List.mem_cons_self
    exact framed_of_raise h (Or.inl rfl) (congrArg Step.machine hs) hfault

end Machine

/-- From every state a running machine takes a step, with any console, and nothing changes in it
but what is `Machine.Framed`. A machine that has halted stays as it is, and so does its
console. -/
theorem Session.step_framed {κ : Type} [Console κ] (t : Session κ) :
    (t.machine.status = .running →
      ∃ s, t.machine.step? t.console = some s ∧ t.machine.Framed s) ∧
    (t.machine.status = .halted → t.advance = t) := by
  refine ⟨?_, ?_⟩
  · intro hrun
    obtain ⟨s, hs⟩ := Machine.exists_step_of_running hrun t.console
    exact ⟨s, hs, Machine.framed_of_step hs⟩
  · intro hhalted
    exact advance_of_halted (Machine.step?_of_halted hhalted t.console)

/-- A machine about to read two bytes to address 1. -/
def Machine.shortRead : Machine :=
  (((ofImage ⟨0, [0x0B], [0x20, 0x20]⟩).set .r1 2).set .r3 1).set .r4 2

/-- One byte is all that the input has, so the frame of the step is one byte of the memory. -/
theorem Session.step_framed_shortRead :
    ∃ s, Machine.shortRead.step? (Buffer.ofInput [0x68]) = some s ∧
      Machine.shortRead.Framed s ∧ s.machine.memory.bytes = #[0x0B, 0x68, 0x20] ∧
      (start Machine.shortRead.halt (Buffer.ofInput [0x68])).advance =
        start Machine.shortRead.halt (Buffer.ofInput [0x68]) := by
  obtain ⟨s, hs, hframed⟩ := (step_framed (start Machine.shortRead (Buffer.ofInput [0x68]))).1 rfl
  have hbytes : (Machine.shortRead.step? (Buffer.ofInput [0x68])).map
      (fun s => s.machine.memory.bytes) = some #[0x0B, 0x68, 0x20] := by decide
  have hstep : Machine.shortRead.step? (Buffer.ofInput [0x68]) = some s := hs
  rw [hstep] at hbytes
  exact ⟨s, hs, hframed, Option.some.inj hbytes, (step_framed _).2 rfl⟩

end RegisterMachine
