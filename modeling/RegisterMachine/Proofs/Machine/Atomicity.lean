import RegisterMachine.Host.Buffer
import RegisterMachine.Proofs.Machine.Fetching
import RegisterMachine.Proofs.Machine.Forms

/-!
# RegisterMachine.Proofs.Machine.Atomicity

What a fault leaves alone. An instruction that faults, be it because its bytes
are none, because it reads or writes outside the memory, or because of an
unknown request, comes to `Machine.aborted`: the machine after decoding with the
fault raised, and nothing of what the instruction would have done.

A fetch that is refused is no such fault, since the instruction goes on behind
it. It may be raised on the way to one, and then both flags are set.
-/

namespace RegisterMachine

/-! ### What events say -/

namespace Event

/-- The flag that an event raises. -/
def raised : Event → Word
  | fault f _ => f.flag.bit
  | _ => 0

/-- The flags that some events raise altogether. -/
def raisedBy (events : List Event) : Word := events.foldr (fun e bits => e.raised ||| bits) 0

/-- Has the host answered a request? -/
def answered : Event → Bool
  | write _ _ _ => true
  | read _ _ _ => true
  | _ => false

@[simp] theorem raisedBy_nil : raisedBy [] = 0 := rfl

@[simp] theorem raisedBy_cons (e : Event) (events : List Event) :
    raisedBy (e :: events) = e.raised ||| raisedBy events := rfl

theorem raisedBy_append (events more : List Event) :
    raisedBy (events ++ more) = raisedBy events ||| raisedBy more := by
  induction events with
  | nil => simp
  | cons e events ih => simp [ih, UInt32.or_assoc]

/-- Refused fetches raise one flag, however many they are. -/
theorem raisedBy_refusals (refused : List Word) :
    raisedBy (refused.map (fault .pointerOutOfBounds)) =
      if refused = [] then 0 else Flag.pointer.bit := by
  induction refused with
  | nil => rfl
  | cons address refused ih =>
    rw [List.map_cons, raisedBy_cons, ih, if_neg (List.cons_ne_nil address refused)]
    show Flag.pointer.bit ||| _ = Flag.pointer.bit
    split
    · exact UInt32.or_zero
    · exact UInt32.or_self

end Event

/-- A turn that asks the host for nothing hands over at most the trace record. -/
theorem Turn.serve_of_done {κ : Type} [Console κ] {turn : Turn} {after : Machine}
    (h : turn.outcome = .done after) (c : κ) :
    turn.serve c =
      { machine := after
        console := (turn.record? after).elim c (Console.trace c)
        events := turn.events ++ ((turn.record? after).map Event.trace).toList } := by
  have hserved : turn.outcome.serve c = ⟨after, c, []⟩ := by rw [h]; rfl
  unfold serve
  rw [hserved]
  dsimp only
  cases turn.record? after with
  | none => simp
  | some record => simp

namespace Machine

variable {m : Machine} {f : Fault} {ip : Word} {announced : List Event} {κ : Type} [Console κ]
  {c : κ}

/-! ### Instructions that fault -/

/-- What may be announced before an instruction at `IP` faults: nothing, or a request. -/
def Announces (m : Machine) (announced : List Event) : Prop :=
  announced = [] ∨ announced = [m.decoded.requestEvent]

/-- The turn that ends with a fault of the instruction, after some announcements. -/
def aborted (m : Machine) (f : Fault) (announced : List Event) : Turn where
  events := m.refusals ++ announced ++ [.fault f m.decoded.ip]
  outcome := .done (m.decoded.raise f)
  fetched := some (m.ip, (m.memory.decode m.ip).opcode)

/-- The fault of a refused fetch is the only one that can be among the refusals. -/
theorem eq_pointer_of_mem_refusals (h : Event.fault f ip ∈ m.refusals) :
    f = .pointerOutOfBounds := by
  obtain ⟨address, -, hfault⟩ := List.mem_map.1 h
  cases hfault
  rfl

/-- A turn with a fault that is not that of a refused fetch is aborted. -/
theorem Turns.eq_aborted {turn : Turn} (h : m.Turns turn) (hf : Event.fault f ip ∈ turn.events)
    (hne : f ≠ .pointerOutOfBounds) :
    m.ip < m.memory.codeSize ∧
      ∃ announced, m.Announces announced ∧ turn = m.aborted f announced := by
  cases h with
  | outside hip =>
    cases List.mem_singleton.1 hf
    exact absurd rfl hne
  | undecodable hip hi =>
    refine ⟨hip, [], Or.inl rfl, ?_⟩
    obtain hf | hf := List.mem_append.1 hf
    · exact absurd (eq_pointer_of_mem_refusals hf) hne
    · cases List.mem_singleton.1 hf
      rw [aborted, List.append_nil]
  | @fetched i hip hi =>
    refine ⟨hip, m.decoded.announcement i.opcode, ?_, ?_⟩
    · cases i with
      | syscall => exact Or.inr rfl
      | _ => exact Or.inl rfl
    · obtain hf | ⟨hresult, -⟩ := fault_mem_turnOf.1 hf
      · exact absurd (eq_pointer_of_mem_refusals hf) hne
      · rw [hresult]
        rfl

/-- The events of an aborted turn are faults, but for the announcement of a request. -/
theorem Announces.mem_events {e : Event} (h : m.Announces announced)
    (he : e ∈ (m.aborted f announced).events) :
    e = .fault f m.decoded.ip ∨ (∃ ip, e = .fault .pointerOutOfBounds ip) ∨
      e = m.decoded.requestEvent := by
  obtain he | he := List.mem_append.1 he
  · obtain he | he := List.mem_append.1 he
    · obtain ⟨address, -, rfl⟩ := List.mem_map.1 he
      exact Or.inr (Or.inl ⟨address, rfl⟩)
    · obtain rfl | rfl := h
      · cases he
      · exact Or.inr (Or.inr (List.mem_singleton.1 he))
  · exact Or.inl (List.mem_singleton.1 he)

/-! ### What such a step leaves alone -/

/-- The record of the instruction at `IP`, taken from the machine after it. -/
def recordOf (m after : Machine) : TraceRecord :=
  .ofMachine after m.ip (m.memory.decode m.ip).opcode

/-- A step of `m` with the console `c` has come to nothing but the fault `f`. -/
structure Aborts (m : Machine) (c : κ) (f : Fault) (s : Step κ) : Prop where
  halted : s.machine.status = .halted
  /-- All registers but `IP` and the flags are as before. -/
  get : ∀ r, r ≠ .ip → r ≠ .rF → s.machine.get r = m.get r
  memory : s.machine.memory = m.memory
  /-- The flags of the faults of the step are set, and no other bit has changed. -/
  flags : s.machine.flags.word = m.flags.word ||| Event.raisedBy s.events
  /-- Besides `f`, only the fault of a refused fetch may have been raised. -/
  faults : ∀ g ip, Event.fault g ip ∈ s.events → g = f ∨ g = .pointerOutOfBounds
  /-- At least the first byte of the instruction has been fetched, and nothing behind the code. -/
  fetched : m.ip.toNat + 1 ≤ s.machine.ip.toNat ∧ s.machine.ip.toNat ≤ m.memory.codeSize.toNat
  /-- The host was asked for nothing. -/
  silent : ∀ e ∈ s.events, e.answered = false
  /-- All that the console may have got is the trace record. -/
  console : s.console = if m.tracing then Console.trace c (m.recordOf s.machine) else c

theorem tracing_advance (m : Machine) (cursor : Cursor) :
    (m.advance cursor).tracing = m.tracing := by
  rw [advance_eq]
  split <;> rfl

theorem record?_aborted (m : Machine) (f : Fault) (announced : List Event) :
    (m.aborted f announced).record? (m.decoded.raise f) =
      if m.tracing then some (m.recordOf (m.decoded.raise f)) else none := by
  have htracing : (m.decoded.raise f).tracing = m.tracing := m.tracing_advance _
  rw [← htracing]
  rfl

theorem Announces.flags (h : m.Announces announced) :
    (m.decoded.raise f).flags.word =
      m.flags.word ||| Event.raisedBy (m.aborted f announced).events := by
  have hannounced : Event.raisedBy announced = 0 := by
    obtain rfl | rfl := h
    · rfl
    · exact UInt32.or_zero
  have hrefusals : Event.raisedBy m.refusals =
      if (m.memory.decode m.ip).cursor.refused = [] then 0 else Flag.pointer.bit :=
    Event.raisedBy_refusals _
  have hfault : Event.raisedBy [.fault f m.decoded.ip] = f.flag.bit := UInt32.or_zero
  have hdecoded : m.decoded.flags = _ := m.flags_advance _
  rw [flags_raise, hdecoded, aborted, Event.raisedBy_append, Event.raisedBy_append, hannounced,
    hrefusals, hfault]
  split
  · simp [Flags.ofFlag]
  · simp [Flags.ofFlag, UInt32.or_assoc]

theorem Announces.aborts (h : m.Announces announced) (hip : m.ip < m.memory.codeSize) (c : κ) :
    m.Aborts c f ((m.aborted f announced).serve c) := by
  have hcursor := Memory.cursor_decode hip
  have hpointer : (m.decoded.raise f).ip = (m.memory.decode m.ip).cursor.ip :=
    (ip_raise _ _).trans (m.ip_advance _)
  -- a trace record is no fault
  have htrace (record : Option TraceRecord) :
      Event.raisedBy (record.map Event.trace).toList = 0 := by
    cases record with
    | none => rfl
    | some record => exact UInt32.or_zero
  have houtcome : (m.aborted f announced).outcome = .done (m.decoded.raise f) := rfl
  rw [Turn.serve_of_done houtcome]
  refine
    { halted := rfl
      get := ?_
      memory := m.memory_decoded
      flags := ?_
      faults := ?_
      fetched := ?_
      silent := ?_
      console := ?_ }
  · intro r hne hflags
    rw [get_raise_of_ne _ _ hflags]
    exact m.get_advance_of_ne _ hne hflags
  · rw [Event.raisedBy_append, htrace, UInt32.or_zero]
    exact h.flags
  · intro g ip hg
    obtain hg | hg := List.mem_append.1 hg
    · obtain hg | ⟨ip, hg⟩ | hg := h.mem_events hg
      · cases hg
        exact Or.inl rfl
      · cases hg
        exact Or.inr rfl
      · cases hg
    · simp at hg
  · rw [hpointer]
    exact hcursor
  · intro e he
    obtain he | he := List.mem_append.1 he
    · obtain rfl | ⟨ip, rfl⟩ | rfl := h.mem_events he <;> rfl
    · obtain ⟨record, -, rfl⟩ : ∃ record, _ ∧ Event.trace record = e := by simpa using he
      rfl
  · dsimp only
    rw [record?_aborted]
    split <;> rfl

theorem aborts_of_fault {s : Step κ} (h : m.step? c = some s)
    (hf : Event.fault f ip ∈ s.events) (hne : f ≠ .pointerOutOfBounds) : m.Aborts c f s := by
  obtain ⟨-, turn, hturn, rfl⟩ := turns_of_step h
  obtain ⟨hip, announced, hannounced, rfl⟩ := hturn.eq_aborted (Turn.fault_mem_serve.1 hf) hne
  exact hannounced.aborts hip c

/-- An instruction that faults is not carried out in part. Whatever the machine and the console,
if a step raises a fault other than that of a refused fetch, it `Aborts`: only `IP` and the flags
have changed, and no part of the console that trace records do not touch. -/
theorem fault_atomic {s : Step κ} (h : m.step? c = some s) (hf : Event.fault f ip ∈ s.events)
    (hne : f ≠ .pointerOutOfBounds) :
    m.Aborts c f s ∧
      ∀ {β : Type} (view : κ → β), (∀ c record, view (Console.trace c record) = view c) →
        view s.console = view c := by
  have haborts := aborts_of_fault h hf hne
  refine ⟨haborts, ?_⟩
  intro β view hview
  rw [haborts.console]
  split
  · exact hview c _
  · rfl

/-- A machine about to read two bytes into a memory of one. -/
def overlongRead : Machine := ((ofImage ⟨0, [0x0B], []⟩).set .r1 2).set .r4 2

/-- The input that was waiting is still waiting. -/
theorem fault_atomic_overlongRead :
    ∃ s, overlongRead.step? (Buffer.ofInput [0x68, 0x69]) = some s ∧
      Event.fault .writeOutOfBounds 1 ∈ s.events ∧ s.machine.get .r1 = 2 ∧
      s.machine.memory = overlongRead.memory ∧ s.console.input = [0x68, 0x69] := by
  have hfault : Event.fault .writeOutOfBounds 1 ∈
      ((overlongRead.step? (Buffer.ofInput [0x68, 0x69])).get rfl).events := by decide
  obtain ⟨haborts, hview⟩ :=
    fault_atomic (Option.some_get rfl).symm hfault (by decide)
  exact ⟨_, (Option.some_get rfl).symm, hfault, haborts.get .r1 (by decide) (by decide),
    haborts.memory, hview Buffer.input fun _ _ => rfl⟩

/-- A store without its address and its value goes to address 0, where a memory of three bytes
has no room for it. Both faults are seen. -/
example :
    ((ofImage ⟨0, [0x01, 0x32, 0x01], []⟩).step? (Buffer.ofInput [])).map
        (fun s => (s.machine.ip, s.machine.flags.word)) =
      some (2, Flag.pointer.bit ||| Flag.write.bit) := by
  decide

end Machine

end RegisterMachine
