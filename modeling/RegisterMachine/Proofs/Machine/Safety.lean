import RegisterMachine.Proofs.Machine.Atomicity
import RegisterMachine.Proofs.Machine.NoCrash

/-!
# RegisterMachine.Proofs.Machine.Safety

Whoever holds a machine may step it with any console, put any word into any
register and turn the trace on or off, in any order. Whatever has been done to a
machine that was made for an image (`Machine.safe_of_uses`),

* no step crashes, so no byte is taken or written outside the memory, and none
  is fetched from outside the code;
* the memory and the code in it are as long as in the beginning;
* an instruction that accesses the memory does so if all bytes of the access are
  there, and else it faults and does nothing.

`Machine.Accesses` lists the accesses and `Machine.perform` says what they come
to. That the bound decides between the two outcomes is proved for
`Machine.execute` (`Accesses.execute_of_inside`, `Accesses.execute_of_outside`)
and carried over to a step (`Accesses.settles`).
-/

namespace RegisterMachine

/-! ### Accesses -/

/-- What an instruction wants of the memory. -/
inductive Access
  /-- The word at an address, as the value of its operand. -/
  | load (address : Word)
  /-- To put a word at an address. -/
  | store (address value : Word)
  /-- Some bytes from an address on, to be written. -/
  | send (descriptor address count : Word)
  /-- To put bytes that are read at an address. -/
  | receive (descriptor address count : Word)
  deriving DecidableEq, Repr

namespace Access

/-- Where the access begins. -/
def address : Access → Word
  | load address => address
  | store address _ => address
  | send _ address _ => address
  | receive _ address _ => address

/-- How many bytes are accessed. -/
def count : Access → Word
  | load _ => 4
  | store _ _ => 4
  | send _ _ count => count
  | receive _ _ count => count

/-- The fault of an access that is not inside. -/
def fault : Access → Fault
  | load _ => .readOutOfBounds
  | store _ _ => .writeOutOfBounds
  | send _ _ _ => .readOutOfBounds
  | receive _ _ _ => .writeOutOfBounds

/-- Are all bytes of the access in the memory? -/
def Inside (a : Access) (m : Memory) : Prop := a.address.toNat + a.count.toNat ≤ m.size

instance (a : Access) (m : Memory) : Decidable (a.Inside m) :=
  inferInstanceAs (Decidable (_ ≤ _))

theorem fault_ne_pointer (a : Access) : a.fault ≠ .pointerOutOfBounds := by
  cases a <;> exact nofun

end Access

/-- The instruction with a word in the place of its operand in memory. -/
def Instruction.supply (i : Instruction Word) (v : Word) : Instruction Word :=
  match i with
  | .move dst (.memory _) => .move dst (.immediate v)
  | .arith op dst (.memory _) => .arith op dst (.immediate v)
  | .cmp left (.memory _) => .cmp left (.immediate v)
  | i => i

namespace Machine

variable {m : Machine} {left : Register → Word} {i : Instruction Word} {a : Access}

/-- The instructions that access the memory. -/
inductive Accesses (m : Machine) : Instruction Word → Access → Prop
  | move {dst : Register} {address : Word} :
      Accesses m (.move dst (.memory address)) (.load address)
  | arith {op : Arith} {dst : Register} {address : Word} :
      Accesses m (.arith op dst (.memory address)) (.load address)
  | cmp {r : Register} {address : Word} : Accesses m (.cmp r (.memory address)) (.load address)
  | store {address : Word} {src : Direct Word} :
      Accesses m (.store address src) (.store address (m.value src))
  | send : Syscall.ofId? (m.get .r1) = some .write →
      Accesses m .syscall (.send (m.get .r2) (m.get .r3) (m.get .r4))
  | receive : Syscall.ofId? (m.get .r1) = some .read →
      Accesses m .syscall (.receive (m.get .r2) (m.get .r3) (m.get .r4))

/-- What an instruction comes to with the access it makes. -/
def perform (m : Machine) (left : Register → Word) (i : Instruction Word) :
    Access → Except Fault Outcome
  | .load address => m.execute left (i.supply (Word.ofBytes (m.memory.slice address.toNat 4)))
  | .store address value =>
    .ok (.done { m with memory := m.memory.write address.toNat value.toBytes })
  | .send descriptor address count =>
    .ok (.write descriptor (m.memory.slice address.toNat count.toNat) (m.set .r1 count))
  | .receive descriptor address count =>
    if descriptor = 0 then .ok (.read address count m) else .ok (.done (m.set .r1 0))

theorem value?_of_inside {address : Word} (h : (Access.load address).Inside m.memory) :
    m.value? (.memory address) = some (Word.ofBytes (m.memory.slice address.toNat 4)) :=
  if_pos h

theorem value?_of_outside {address : Word} (h : ¬(Access.load address).Inside m.memory) :
    m.value? (.memory address) = none :=
  if_neg h

/-- An access that is inside is performed. -/
theorem Accesses.execute_of_inside (h : m.Accesses i a) (hin : a.Inside m.memory)
    (left : Register → Word) :
    ∃ outcome, m.perform left i a = .ok outcome ∧ m.execute left i = .ok outcome := by
  cases h with
  | move =>
    refine ⟨_, rfl, ?_⟩
    rw [execute, value?_of_inside hin]
  | arith =>
    refine ⟨_, rfl, ?_⟩
    rw [execute, value?_of_inside hin]
  | cmp =>
    refine ⟨_, rfl, ?_⟩
    rw [execute, value?_of_inside hin]
  | @store address src =>
    have hstore : m.memory.store? address (m.value src) = some _ := if_pos hin
    refine ⟨_, rfl, ?_⟩
    rw [execute, hstore]
  | send hid =>
    have hinside : m.memory.Inside (m.get .r3).toNat (m.get .r4).toNat := hin
    refine ⟨_, rfl, ?_⟩
    simp only [execute, request, hid, if_pos hinside]
  | receive hid =>
    have hinside : m.memory.Inside (m.get .r3).toNat (m.get .r4).toNat := hin
    simp only [execute, request, perform, hid, if_pos hinside]
    split
    · exact ⟨_, rfl, rfl⟩
    · exact ⟨_, rfl, rfl⟩

/-- An access that is not inside is a fault. -/
theorem Accesses.execute_of_outside (h : m.Accesses i a) (hout : ¬a.Inside m.memory) :
    m.execute left i = .error a.fault := by
  cases h with
  | move =>
    rw [execute, value?_of_outside hout]
    rfl
  | arith =>
    rw [execute, value?_of_outside hout]
    rfl
  | cmp =>
    rw [execute, value?_of_outside hout]
    rfl
  | @store address src =>
    have hstore : m.memory.store? address (m.value src) = none := if_neg hout
    rw [execute, hstore]
    rfl
  | send hid =>
    have houtside : ¬m.memory.Inside (m.get .r3).toNat (m.get .r4).toNat := hout
    simp only [execute, request, hid, if_neg houtside]
    rfl
  | receive hid =>
    have houtside : ¬m.memory.Inside (m.get .r3).toNat (m.get .r4).toNat := hout
    simp only [execute, request, hid, if_neg houtside]
    rfl

/-- The other instructions leave the memory alone, and need nothing of it. -/
theorem execute_of_no_access (left : Register → Word) (h : ∀ a, ¬m.Accesses i a) :
    (∃ after, m.execute left i = .ok (.done after) ∧ after.memory = m.memory) ∨
      m.execute left i = .error .badInstruction := by
  cases i with
  | nop => exact Or.inl ⟨_, rfl, rfl⟩
  | move dst src =>
    cases src with
    | memory address => exact absurd .move (h _)
    | _ => exact Or.inl ⟨_, rfl, rfl⟩
  | arith op dst src =>
    cases src with
    | memory address => exact absurd .arith (h _)
    | _ => exact Or.inl ⟨_, rfl, rfl⟩
  | cmp r src =>
    cases src with
    | memory address => exact absurd .cmp (h _)
    | _ => exact Or.inl ⟨_, rfl, rfl⟩
  | store address src => exact absurd .store (h _)
  | branch b target =>
    refine Or.inl ⟨_, rfl, ?_⟩
    unfold branch
    split <;> rfl
  | syscall =>
    cases hid : Syscall.ofId? (m.get .r1) with
    | none =>
      right
      simp only [execute, request, hid]
    | some id =>
      cases id with
      | exit =>
        left
        simp only [execute, request, hid]
        exact ⟨_, rfl, rfl⟩
      | write => exact absurd (.send hid) (h _)
      | read => exact absurd (.receive hid) (h _)
      | openFile =>
        left
        simp only [execute, request, hid]
        exact ⟨_, rfl, rfl⟩

/-! ### What a step makes of an access -/

section

variable {κ : Type} [Console κ] {c : κ} {s : Step κ}

/-- In this step, the instruction at `IP` has been fetched and carried out, or has faulted. -/
structure Fetches (m : Machine) (c : κ) (i : Instruction Word) (s : Step κ) : Prop where
  step : m.step? c = some s
  inCode : m.ip < m.memory.codeSize
  found : (m.memory.decode m.ip).instruction? = some i

/-- The access has been performed. Nothing but refused fetches is among the faults of the step. -/
structure Performs (m : Machine) (c : κ) (i : Instruction Word) (a : Access) (s : Step κ) :
    Prop where
  result : ∃ outcome, m.decoded.perform m.registers.leftValue i a = .ok outcome ∧
    s.machine = (outcome.serve c).machine ∧ (outcome.serve c).events ⊆ s.events
  faults : ∀ f ip, Event.fault f ip ∈ s.events → f = .pointerOutOfBounds

/-- A step performs the access or faults. Which of both it does depends on the access only. -/
structure Settles (m : Machine) (c : κ) (i : Instruction Word) (a : Access) (s : Step κ) :
    Prop where
  performed : m.Performs c i a s ↔ a.Inside m.memory
  faulted : (∃ ip, Event.fault a.fault ip ∈ s.events) ↔ ¬a.Inside m.memory
  aborted : ¬a.Inside m.memory → m.Aborts c a.fault s

/-- The step does not access the memory, and none of its faults is one of an access. -/
structure Abstains (m : Machine) (s : Step κ) : Prop where
  memory : s.machine.memory = m.memory
  faults : ∀ f ip, Event.fault f ip ∈ s.events → f = .pointerOutOfBounds ∨ f = .badInstruction

theorem Fetches.eq_serve (h : m.Fetches c i s) :
    s = (m.decoded.turnOf m.refusals (m.ip, (m.memory.decode m.ip).opcode) i.opcode
      (m.decoded.execute m.registers.leftValue i)).serve c := by
  obtain ⟨-, turn, hturn, rfl⟩ := turns_of_step h.step
  cases hturn with
  | outside hip => exact absurd h.inCode hip
  | undecodable hip hi => cases hi.symm.trans h.found
  | fetched hip hi =>
    cases hi.symm.trans h.found
    rfl

theorem Fetches.faults (h : m.Fetches c i s) {f : Fault} {ip : Word}
    (hf : Event.fault f ip ∈ s.events) :
    f = .pointerOutOfBounds ∨ m.decoded.execute m.registers.leftValue i = .error f := by
  rw [h.eq_serve] at hf
  obtain hf | ⟨hfault, -⟩ := fault_mem_turnOf.1 (Turn.fault_mem_serve.1 hf)
  · exact Or.inl (eq_pointer_of_mem_refusals hf)
  · exact Or.inr hfault

theorem events_serve_subset {turn : Turn} {outcome : Outcome} (h : turn.outcome = outcome)
    (c : κ) : (outcome.serve c).events ⊆ (turn.serve c).events := by
  subst h
  intro e he
  rw [Turn.events_serve]
  exact List.mem_append_left _ (List.mem_append_right _ he)

theorem Accesses.performs (ha : m.decoded.Accesses i a) (h : m.Fetches c i s)
    (hin : a.Inside m.memory) : m.Performs c i a s := by
  rw [← m.memory_decoded] at hin
  obtain ⟨outcome, hperform, hexecute⟩ := ha.execute_of_inside hin m.registers.leftValue
  have hserve := h.eq_serve
  have houtcome : (m.decoded.turnOf m.refusals (m.ip, (m.memory.decode m.ip).opcode) i.opcode
      (.ok outcome)).outcome = outcome := rfl
  rw [hexecute] at hserve
  refine ⟨⟨outcome, hperform, ?_, ?_⟩, ?_⟩
  · rw [hserve, Turn.machine_serve, houtcome]
  · rw [hserve]
    exact events_serve_subset houtcome c
  · intro f ip hf
    obtain hf | hfault := h.faults hf
    · exact hf
    · cases hexecute.symm.trans hfault

theorem Accesses.faults (ha : m.decoded.Accesses i a) (h : m.Fetches c i s)
    (hout : ¬a.Inside m.memory) : Event.fault a.fault m.decoded.ip ∈ s.events := by
  rw [← m.memory_decoded] at hout
  have hexecute : m.decoded.execute m.registers.leftValue i = .error a.fault :=
    ha.execute_of_outside hout
  rw [h.eq_serve, hexecute]
  exact Turn.fault_mem_serve.2 (fault_mem_turnOf.2 (Or.inr ⟨rfl, rfl⟩))

/-- The bound decides. No step both performs an access and raises its fault, so each of the two
happens exactly if the other does not. -/
theorem Accesses.settles (ha : m.decoded.Accesses i a) (h : m.Fetches c i s) :
    m.Settles c i a s := by
  constructor
  · constructor
    · intro hperforms
      refine Decidable.byContradiction ?_
      intro hout
      exact a.fault_ne_pointer (hperforms.faults _ _ (ha.faults h hout))
    · exact ha.performs h
  · constructor
    · rintro ⟨ip, hfault⟩ hin
      exact a.fault_ne_pointer ((ha.performs h hin).faults _ _ hfault)
    · intro hout
      exact ⟨_, ha.faults h hout⟩
  · intro hout
    exact aborts_of_fault h.step (ha.faults h hout) a.fault_ne_pointer

theorem Fetches.abstains (h : m.Fetches c i s) (ha : ∀ a, ¬m.decoded.Accesses i a) :
    m.Abstains s := by
  have hresult := execute_of_no_access m.registers.leftValue ha
  constructor
  · rw [h.eq_serve, Turn.machine_serve]
    obtain ⟨after, hexecute, hafter⟩ | hexecute := hresult
    · rw [hexecute]
      exact hafter.trans m.memory_decoded
    · rw [hexecute]
      exact m.memory_decoded
  · intro f ip hf
    obtain hf | hfault := h.faults hf
    · exact Or.inl hf
    · obtain ⟨after, hexecute, -⟩ | hexecute := hresult
      · cases hexecute.symm.trans hfault
      · cases hexecute.symm.trans hfault
        exact Or.inr rfl

/-- A step without an instruction accesses nothing either. -/
theorem abstains_of_no_access (hs : m.step? c = some s)
    (ha : ∀ i a, m.Fetches c i s → ¬m.decoded.Accesses i a) : m.Abstains s := by
  by_cases hip : m.ip < m.memory.codeSize
  · cases hi : (m.memory.decode m.ip).instruction? with
    | some i =>
      -- only here is there an instruction that could have made an access
      have hfetches : m.Fetches c i s := ⟨hs, hip, hi⟩
      exact hfetches.abstains fun a => ha i a hfetches
    | none =>
      obtain ⟨-, turn, hturn, rfl⟩ := turns_of_step hs
      cases hturn with
      | outside hout => exact absurd hip hout
      | fetched _ hsome => cases hi.symm.trans hsome
      | undecodable _ _ =>
        constructor
        · rw [Turn.machine_serve]
          exact m.memory_decoded
        · intro f ip hf
          obtain hf | hf := List.mem_append.1 (Turn.fault_mem_serve.1 hf)
          · exact Or.inl (eq_pointer_of_mem_refusals hf)
          · cases List.mem_singleton.1 hf
            exact Or.inr rfl
  · rw [step_of_outside hs hip]
    refine ⟨rfl, ?_⟩
    intro f ip hf
    cases List.mem_singleton.1 hf
    exact Or.inl rfl

end

end Machine

/-! ### Machines in use -/

/-- What can be done to a machine. Every step may be given another console. -/
inductive Use : Type 1
  | step {κ : Type} [Console κ] (console : κ)
  | set (r : Register) (w : Word)
  | tracing (on : Bool)

namespace Use

/-- The machine afterwards. -/
def apply (m : Machine) : Use → Machine
  | step console =>
    match m.step? console with
    | some s => s.machine
    | none => m
  | set r w => m.set r w
  | tracing on => m.withTracing on

/-- The machine afterwards, if every access of a step is checked. -/
def guarded (m : Machine) : Use → Except Crash Machine
  | step console => do
    match ← m.guardedStep? console with
    | some s => pure s.machine
    | none => pure m
  | set r w => pure (m.set r w)
  | tracing on => pure (m.withTracing on)

theorem guarded_eq (m : Machine) (use : Use) : use.guarded m = .ok (use.apply m) := by
  cases use with
  | set r w => rfl
  | tracing on => rfl
  | step console =>
    simp only [guarded, apply, Machine.guardedStep?_eq]
    cases m.step? console with
    | none => rfl
    | some s => rfl

theorem sameExtent_apply (m : Machine) (use : Use) :
    (use.apply m).memory.SameExtent m.memory := by
  cases use with
  | set r w => exact .refl _
  | tracing on => exact .refl _
  | step console =>
    simp only [apply]
    cases h : m.step? console with
    | none => exact .refl _
    | some s => exact Machine.sameExtent_of_step h

end Use

/-- The next step of a machine, taken with a console, is safe. -/
structure Machine.Safe {κ : Type} [Console κ] (m : Machine) (c : κ) : Prop where
  /-- No check fails. -/
  guarded : m.guardedStep? c = .ok (m.step? c)
  /-- With the same code, the same would be decoded. -/
  code {n : Memory} : n.SameCode m.memory → n.decode m.ip = m.memory.decode m.ip
  /-- An access is performed if it is inside, and else it is a fault. -/
  access {s : Step κ} {i : Instruction Word} {a : Access} : m.Fetches c i s →
    m.decoded.Accesses i a → m.Settles c i a s
  /-- There is no other access. -/
  other {s : Step κ} : m.step? c = some s →
    (∀ i a, m.Fetches c i s → ¬m.decoded.Accesses i a) → m.Abstains s

namespace Machine

/-- The machine after it has been used. -/
def after (m : Machine) (uses : List Use) : Machine := uses.foldl Use.apply m

/-- The machine after it has been used, if every access of a step is checked. -/
def guardedAfter (m : Machine) (uses : List Use) : Except Crash Machine :=
  uses.foldlM Use.guarded m

/-- No use crashes. -/
theorem guardedAfter_eq (m : Machine) (uses : List Use) :
    m.guardedAfter uses = .ok (m.after uses) := by
  unfold guardedAfter after
  induction uses generalizing m with
  | nil => rfl
  | cons use uses ih =>
    rw [List.foldlM_cons, Use.guarded_eq]
    exact ih (use.apply m)

theorem sameExtent_after (m : Machine) (uses : List Use) :
    (m.after uses).memory.SameExtent m.memory := by
  unfold after
  induction uses generalizing m with
  | nil => exact .refl _
  | cons use uses ih =>
    rw [List.foldl_cons]
    exact (ih (use.apply m)).trans (Use.sameExtent_apply m use)

theorem safe (m : Machine) {κ : Type} [Console κ] (c : κ) : m.Safe c where
  guarded := guardedStep?_eq m c
  code hn := hn.decode _
  access h ha := ha.settles h
  other hs ha := abstains_of_no_access hs ha

/-- Whatever has been done to a machine that was made for an image, nothing has crashed, its
memory is as long as in the beginning, and its next step is safe with any console. -/
theorem safe_of_uses (image : Image) (uses : List Use) {κ : Type} [Console κ] (c : κ) :
    (ofImage image).guardedAfter uses = .ok ((ofImage image).after uses) ∧
      ((ofImage image).after uses).memory.size = image.code.length + image.data.length ∧
      ((ofImage image).after uses).memory.codeSize = UInt32.ofNat image.code.length ∧
      ((ofImage image).after uses).memory.codeSize.toNat ≤
        ((ofImage image).after uses).memory.size ∧
      ((ofImage image).after uses).Safe c := by
  have hextent := (ofImage image).sameExtent_after uses
  have hsize : (ofImage image).memory.size = image.code.length + image.data.length :=
    image.length_memory
  refine ⟨guardedAfter_eq _ uses, ?_, ?_, ?_, ?_⟩
  · exact hextent.size.trans hsize
  · exact hextent.codeSize
  · exact Memory.codeSize_le _
  · exact safe _ c

end Machine

/-- A console that says that it has read more than it was asked for. -/
structure Babbler where
  said : Byte

instance : Console Babbler where
  write b _ _ := (none, b)
  read b count := (⟨List.replicate (count + 3) b.said, none⟩, b)
  trace b _ := b

/-- Two bytes are asked for, five are claimed, and two are copied to the end of the memory. -/
example :
    let m := (((Machine.ofImage ⟨0, [0x0B], [0, 0]⟩).set .r1 2).set .r3 1).set .r4 2
    (m.guardedStep? (Babbler.mk 0x21)).map
        (Option.map fun s => (s.machine.memory.bytes, s.machine.get .r1)) =
      .ok (some (#[0x0B, 0x21, 0x21], 2)) := by
  rfl

end RegisterMachine
