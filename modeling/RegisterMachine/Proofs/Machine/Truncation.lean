import RegisterMachine.Proofs.Machine.Fields
import RegisterMachine.Proofs.Machine.Operands
import RegisterMachine.Proofs.Machine.Refusals

/-!
# RegisterMachine.Proofs.Machine.Truncation

Instructions that the end of the code cuts off. An operand whose field is not
wholly inside the code is zero, and the instruction is carried out with it
(`Memory.Completed`, `Machine.truncated_completes`).

A field that is missing takes no bytes, so what follows it is looked for in its
place. This makes a difference only if the following field is smaller, and there
is one instruction with such fields: in `mov [a], r` the register takes one of
the bytes that are left of the address (`Memory.CutStore`).

So the operands that are fetched (`Memory.FetchesAll`) are compared with the ones
in their own places (`Memory.HoldsAll`), field by field and without regard to
operations. That the machine does the same with them although `IP` and the flags
are not the same is `Machine.SameData.completion`.
-/

namespace RegisterMachine

namespace Memory

/-- The operand with a field at this address, if it is zero where the field is not wholly inside
the code. -/
def Holds (m : Memory) (address : Nat) (o : Operand Word) : Prop :=
  m.CodeAt address o.encode ∨ m.codeSize.toNat < address + o.size ∧ o.Blank

/-- The operands with fields one behind the other from this address on. -/
def HoldsAll (m : Memory) : Nat → List (Operand Word) → Prop
  | _, [] => True
  | address, o :: os => m.Holds address o ∧ m.HoldsAll (address + o.size) os

/-- The instruction whose operation and mode byte are at this address, with every operand in the
place that they give it, or zero. -/
def Completed (m : Memory) (address : Nat) (i : Instruction Word) : Prop :=
  m.Begins address i ∧ m.HoldsAll (address + 2) i.operands

/-- A register is stored at an address of which some bytes are in the code, but not all. -/
def CutStore (m : Memory) (address : Nat) : Prop :=
  m.CodeAt address [Opcode.mov.toByte, (Mode.ofKinds .memory .register).byte] ∧
    address + 2 < m.codeSize.toNat ∧ m.codeSize.toNat < address + 6

end Memory

/-- Only a store has an operand that is larger than the one behind it. -/
theorem Instruction.eq_store_of_size_lt {i : Instruction Word} {o o' : Operand Word}
    (hi : i.operands = [o, o']) (h : o'.size < o.size) :
    ∃ address r, i = .store address (.register r) := by
  have hpos : 1 ≤ o'.size := by cases o' <;> simp
  have hregister (r : Register) (ho : Operand.register r = o) :
      ∃ address r, i = .store address (.register r) := by
    rw [← ho, Operand.size_register] at h
    omega
  cases i with
  | nop => cases hi
  | syscall => cases hi
  | branch c target => cases hi
  | move dst src => exact hregister dst (List.cons_eq_cons.1 hi).1
  | arith op dst src => exact hregister dst (List.cons_eq_cons.1 hi).1
  | cmp left right => exact hregister left (List.cons_eq_cons.1 hi).1
  | store address src =>
    cases src with
    | register r => exact ⟨address, r, rfl⟩
    | immediate v =>
      cases hi
      exact absurd h (Nat.lt_irrefl 4)

namespace Memory

variable {m : Memory} {cursor next last : Cursor} {ip : Word} {i : Instruction Word}

/-! ### Operands in their own places -/

theorem Fetches.holds {o : Operand Word} (h : m.Fetches cursor o next) :
    m.Holds cursor.ip.toNat o := by
  cases h with
  | found hcode => exact Or.inl hcode
  | missing hout ho => exact Or.inr ⟨hout, ho⟩

theorem Holds.exists_fetches {o : Operand Word} (h : m.Holds cursor.ip.toNat o) :
    ∃ next, m.Fetches cursor o next := by
  obtain hcode | ⟨hout, ho⟩ := h
  · exact ⟨_, .found hcode⟩
  · exact ⟨_, .missing hout ho⟩

theorem CodeAt.inside_operand {address : Nat} {o : Operand Word}
    (h : m.CodeAt address o.encode) : address + o.size ≤ m.codeSize.toNat :=
  o.length_encode ▸ h.inside

/-- Two operands that are fetched are those in their own places, unless the first one is missing
and there is room for the second one in its place. -/
theorem exists_fetchesAll_two_iff {o o' : Operand Word}
    (hroom : m.codeSize.toNat < cursor.ip.toNat + o.size →
      m.codeSize.toNat < cursor.ip.toNat + o'.size) :
    (∃ last, m.FetchesAll cursor [o, o'] last) ↔ m.HoldsAll cursor.ip.toNat [o, o'] := by
  have hskip (hcode : m.CodeAt cursor.ip.toNat o.encode) :
      (cursor.skip o.size).ip.toNat = cursor.ip.toNat + o.size :=
    Cursor.toNat_ip_skip (Nat.lt_of_le_of_lt hcode.inside_operand m.codeSize.toNat_lt)
  simp only [fetchesAll_two_iff]
  constructor
  · rintro ⟨last, next, ho, ho'⟩
    refine ⟨ho.holds, ?_, trivial⟩
    cases ho with
    | found hcode => exact hskip hcode ▸ ho'.holds
    | missing hout _ =>
      cases ho' with
      | found hcode => exact absurd hcode.inside_operand (Nat.not_le_of_lt (hroom hout))
      | missing _ hblank => exact Or.inr ⟨by omega, hblank⟩
  · rintro ⟨hcode | ⟨hout, hblank⟩, ho', -⟩
    · rw [← hskip hcode] at ho'
      obtain ⟨last, hlast⟩ := ho'.exists_fetches
      exact ⟨last, _, .found hcode, hlast⟩
    · refine ⟨_, _, .missing hout hblank, .missing (hroom hout) ?_⟩
      obtain hcode | ⟨-, hblank'⟩ := ho'
      · have := hcode.inside_operand
        omega
      · exact hblank'

/-- Where there is no room for the first of two operands, there is none for the second one in its
place, unless the instruction is a store that is cut off. -/
theorem Begins.room {address : Nat} {o o' : Operand Word} (h : m.Begins address i)
    (hcut : ¬m.CutStore address) (hi : i.operands = [o, o'])
    (hout : m.codeSize.toNat < address + 2 + o.size) :
    m.codeSize.toNat < address + 2 + o'.size := by
  obtain ⟨mode, hcode, hkinds⟩ := h
  refine Nat.lt_of_not_le fun hin => hcut ?_
  have hpos : 1 ≤ o'.size := by cases o' <;> simp
  obtain ⟨a, r, rfl⟩ := Instruction.eq_store_of_size_lt hi (by omega)
  obtain ⟨hdst, hsrc⟩ := hkinds.of_two rfl
  rw [Mode.eq_ofKinds hdst hsrc] at hcode
  cases hi
  exact ⟨hcode, hin, hout⟩

/-- The operands that are fetched behind a mode byte are those in their own places, unless the
instruction is a store that is cut off. -/
theorem Begins.exists_fetchesAll_iff (h : m.Begins ip.toNat i)
    (hcode : ip.toNat + 2 ≤ m.codeSize.toNat) (hcut : ¬m.CutStore ip.toNat) :
    (∃ last, m.FetchesAll (Cursor.skip ⟨ip, []⟩ 2) i.operands last) ↔
      m.HoldsAll (ip.toNat + 2) i.operands := by
  have hroom {o o' : Operand Word} := @room m i ip.toNat o o' h hcut
  rw [← m.toNat_ip_skip_of_le hcode] at hroom ⊢
  obtain hi | ⟨o, hi⟩ | ⟨o, o', hi⟩ := i.operands_cases
  · rw [hi]
    exact iff_of_true ⟨_, .nil⟩ trivial
  · rw [hi]
    simp only [fetchesAll_one_iff]
    constructor
    · rintro ⟨last, hlast⟩
      exact ⟨hlast.holds, trivial⟩
    · rintro ⟨ho, -⟩
      exact ho.exists_fetches
  · rw [hi]
    exact exists_fetchesAll_two_iff (hroom hi)

/-- What is decoded is the instruction with every operand in its own place, unless it is a store
that is cut off. -/
theorem decode_eq_some_iff_completed (h : ip.toNat + 2 ≤ m.codeSize.toNat)
    (hcut : ¬m.CutStore ip.toNat) :
    (m.decode ip).instruction? = some i ↔ m.Completed ip.toNat i := by
  constructor
  · intro hi
    obtain ⟨hbegins, last, hoperands, -⟩ := exists_fetchesAll_of_decode h hi
    exact ⟨hbegins, (hbegins.exists_fetchesAll_iff h hcut).1 ⟨last, hoperands⟩⟩
  · rintro ⟨hbegins, hoperands⟩
    obtain ⟨last, hlast⟩ := (hbegins.exists_fetchesAll_iff h hcut).2 hoperands
    exact decode_of_fetchesAll h hbegins hlast

/-- If a fetch is refused, the last operand is zero, unless the instruction is a store that is cut
off. -/
theorem blank_of_refused (h : ip.toNat + 2 ≤ m.codeSize.toNat) (hcut : ¬m.CutStore ip.toNat)
    (hi : (m.decode ip).instruction? = some i) (hrefused : (m.decode ip).cursor.refused ≠ []) :
    ∃ o, i.operands.getLast? = some o ∧ o.Blank := by
  obtain ⟨hbegins, last, hoperands, hlast⟩ := exists_fetchesAll_of_decode h hi
  have hroom {o o' : Operand Word} := @Begins.room m i ip.toNat o o' hbegins hcut
  rw [← m.toNat_ip_skip_of_le h] at hroom
  rw [← hlast] at hrefused
  obtain hi | ⟨o, hi⟩ | ⟨o, o', hi⟩ := i.operands_cases
  · rw [hi] at hoperands
    cases hoperands
    exact absurd rfl hrefused
  · rw [hi] at hoperands ⊢
    refine ⟨o, rfl, ?_⟩
    cases fetchesAll_one_iff.1 hoperands with
    | found _ => exact absurd rfl hrefused
    | missing _ hblank => exact hblank
  · rw [hi] at hoperands ⊢
    refine ⟨o', rfl, ?_⟩
    obtain ⟨next, hfirst, hsecond⟩ := fetchesAll_two_iff.1 hoperands
    cases hsecond with
    | missing _ hblank => exact hblank
    | found hfound =>
      cases hfirst with
      | found _ => exact absurd rfl hrefused
      | missing hout _ =>
        exact absurd hfound.inside_operand (Nat.not_le_of_lt (hroom hi hout))

theorem CodeAt.unique {address : Nat} {bs cs : List Byte} (hb : m.CodeAt address bs)
    (hc : m.CodeAt address cs) (hlen : bs.length = cs.length) : bs = cs := by
  rw [← hb.slice, ← hc.slice, hlen]

/-- What begins as a store that is cut off is the store of a register. -/
theorem CutStore.exists_store {address : Nat} (hcut : m.CutStore address)
    (h : m.Begins address i) : ∃ a r, i = .store a (.register r) := by
  obtain ⟨mode, hcode, hkinds⟩ := h
  obtain ⟨hop, hmode⟩ := List.cons_eq_cons.1 (hcode.unique hcut.1 rfl)
  obtain rfl : mode = .ofKinds .memory .register :=
    congrArg Mode.mk (List.singleton_inj.1 hmode)
  have htwo : i.operands.length = 2 := by
    have hlen := congrArg List.length hkinds
    rw [List.length_map, Opcode.toByte_injective hop] at hlen
    exact hlen.symm
  obtain hi | ⟨o, hi⟩ | ⟨o, o', hi⟩ := i.operands_cases
  · rw [hi] at htwo
    cases htwo
  · rw [hi] at htwo
    cases htwo
  · obtain ⟨hdst, hsrc⟩ := hkinds.of_two hi
    rw [Mode.dst?_ofKinds, Option.some.injEq] at hdst
    rw [Mode.src?_ofKinds, Option.some.injEq] at hsrc
    refine Instruction.eq_store_of_size_lt hi ?_
    rw [Operand.size, Operand.size, ← hdst, ← hsrc]
    decide

/-- A store that is cut off has zero for its address, and takes its register from the first byte
that is left. -/
theorem CutStore.decode_eq_iff (hcut : m.CutStore ip.toNat) :
    ((m.decode ip).instruction? = some i ∧ (m.decode ip).cursor = last) ↔
      ∃ r, i = .store 0 (.register r) ∧ m.CodeAt (ip.toNat + 2) [r.toByte] ∧
        last = ⟨ip + 3, [ip + 2]⟩ := by
  obtain ⟨hcode, hleft, hout⟩ := id hcut
  have h : ip.toNat + 2 ≤ m.codeSize.toNat := Nat.le_of_lt hleft
  have hnext : (Cursor.skip ⟨ip, []⟩ 2).ip.toNat = ip.toNat + 2 := m.toNat_ip_skip_of_le h
  have hlast : (Cursor.skip ⟨ip, []⟩ 2).refuse.skip 1 = ⟨ip + 3, [ip + 2]⟩ := by
    rw [Cursor.refuse, Cursor.skip, Cursor.skip, UInt32.add_assoc]
    rfl
  constructor
  · rintro ⟨hi, rfl⟩
    obtain ⟨hbegins, -⟩ := exists_fetchesAll_of_decode h hi
    obtain ⟨address, r, rfl⟩ := hcut.exists_store hbegins
    obtain ⟨-, hoperands⟩ := (Memory.decode_eq_iff h rfl).1 ⟨hi, rfl⟩
    obtain ⟨middle, hfirst, hsecond⟩ := fetchesAll_two_iff.1 hoperands
    -- there is no room for the address, but for the register in its place
    cases hfirst with
    | found hfound =>
      have := hfound.inside_operand
      rw [hnext, Operand.size_memory] at this
      omega
    | missing _ hblank =>
      cases hblank
      generalize (m.decode ip).cursor = last at hsecond ⊢
      cases hsecond with
      | found hfound => exact ⟨r, rfl, hnext ▸ hfound, hlast⟩
      | missing hroom _ =>
        have : m.codeSize.toNat < ip.toNat + 2 + 1 := hnext ▸ hroom
        omega
  · rintro ⟨r, rfl, hr, rfl⟩
    refine (Memory.decode_eq_iff h rfl).2
      ⟨⟨_, hcode, rfl⟩, fetchesAll_two_iff.2 ⟨_, .missing ?_ .memory, ?_⟩⟩
    · rw [hnext]
      exact hout
    · rw [← hlast]
      exact .found (hnext.symm ▸ hr)

end Memory

namespace Machine

variable {κ : Type} [Console κ] {m n next next' : Machine} {c : κ} {i : Instruction Word}

/-! ### What is carried out -/

/-- The machines have the same memory and the same registers but for `IP` and the flags. -/
structure SameData (m n : Machine) : Prop where
  registers : ∀ r, r ≠ .ip → r ≠ .rF → m.get r = n.get r
  memory : m.memory = n.memory

namespace SameData

theorem refl (m : Machine) : m.SameData m := ⟨fun _ _ _ => rfl, rfl⟩

theorem symm (h : m.SameData n) : n.SameData m :=
  ⟨fun r hip hflags => (h.registers r hip hflags).symm, h.memory.symm⟩

theorem trans (h : m.SameData n) (h' : n.SameData next) : m.SameData next :=
  ⟨fun r hip hflags => (h.registers r hip hflags).trans (h'.registers r hip hflags),
    h.memory.trans h'.memory⟩

/-- Both may be given a word, which may be another one if it is for `IP` or the flags. -/
theorem set (h : m.SameData n) {r : Register} {v w : Word}
    (hvw : r ≠ .ip → r ≠ .rF → v = w) : (m.set r v).SameData (n.set r w) where
  registers t hip hflags := by
    by_cases ht : t = r
    · subst ht
      rw [get_set_self, get_set_self, hvw hip hflags]
    · rw [get_set_of_ne _ _ ht, get_set_of_ne _ _ ht, h.registers t hip hflags]
  memory := h.memory

theorem withFlags (h : m.SameData n) (flags flags' : Flags) :
    (m.withFlags flags).SameData (n.withFlags flags') :=
  h.set fun _ hflags => absurd rfl hflags

theorem raise (h : m.SameData n) (f : Fault) : (m.raise f).SameData (n.raise f) :=
  have hflags := h.withFlags (m.flags.insert (.ofFlag f.flag)) (n.flags.insert (.ofFlag f.flag))
  ⟨hflags.registers, hflags.memory⟩

theorem advance (m : Machine) (cursor : Cursor) : (m.advance cursor).SameData m :=
  ⟨fun _ hip hflags => m.get_advance_of_ne cursor hip hflags, m.memory_advance cursor⟩

theorem skip (m : Machine) (count : Nat) : (m.skip count).SameData m :=
  ⟨fun _ hip _ => m.get_skip_of_ne count hip, rfl⟩

theorem branch (h : m.SameData n) (b : Condition) (v w : Word) :
    (m.branch b v).SameData (n.branch b w) := by
  have hbranch (m : Machine) (v : Word) : (m.branch b v).SameData m := by
    unfold Machine.branch
    split
    · exact ⟨fun _ hip hflags => (get_set_of_ne _ _ hip).trans (get_set_of_ne m _ hflags), rfl⟩
    · exact ⟨fun _ _ hflags => get_set_of_ne m _ hflags, rfl⟩
  exact ((hbranch m v).trans h).trans (hbranch n w).symm

theorem value?_eq (h : m.SameData n) {o : Operand Word} (ho : o.Blank) :
    m.value? o = n.value? o := by
  cases ho with
  | register => exact congrArg some (h.registers .r1 (by decide) (by decide))
  | immediate => rfl
  | memory => rw [value?, value?, h.memory]

end SameData

/-- What is carried out depends neither on `IP` nor on the flags if the last operand is zero. -/
theorem SameData.completion (h : next.SameData next')
    (hlast : ∃ o, i.operands.getLast? = some o ∧ o.Blank) :
    (m.completion next c i).SameData (m.completion next' c i) := by
  obtain ⟨o, ho, hblank⟩ := hlast
  unfold Machine.completion
  rw [Turn.machine_serve, Turn.machine_serve]
  cases i with
  | nop => cases ho
  | syscall => cases ho
  | move dst src =>
    obtain rfl : src = o := Option.some.inj ho
    rw [execute, execute, h.value?_eq hblank]
    cases next'.value? src with
    | none => exact h.raise .readOutOfBounds
    | some v => exact h.set fun _ _ => rfl
  | store address src =>
    obtain rfl : src.toOperand = o := Option.some.inj ho
    have hvalue : next.value src = next'.value src := by
      have := h.value?_eq hblank
      cases src with
      | register r => exact Option.some.inj this
      | immediate v => rfl
    rw [execute, execute, hvalue, h.memory]
    cases next'.memory.store? address (next'.value src) with
    | none => exact h.raise .writeOutOfBounds
    | some memory => exact ⟨h.registers, rfl⟩
  | arith op dst src =>
    obtain rfl : src = o := Option.some.inj ho
    rw [execute, execute, h.value?_eq hblank]
    cases next'.value? src with
    | none => exact h.raise .readOutOfBounds
    | some v =>
      refine h.set fun hip hflags => ?_
      rw [h.registers dst hip hflags]
  | cmp left right =>
    obtain rfl : right = o := Option.some.inj ho
    rw [execute, execute, h.value?_eq hblank]
    cases next'.value? right with
    | none => exact h.raise .readOutOfBounds
    | some v => exact h.withFlags _ _
  | branch b target => exact h.branch b _ _

/-- What becomes of a machine with an instruction does not depend on what was refused before. -/
theorem machine_serve_turnOf {refusals : List Event} {fetched : Word × Byte} :
    ((next.turnOf refusals fetched i.opcode
      (next.execute m.registers.leftValue i)).serve c).machine = m.completion next c i := by
  unfold completion
  rw [Turn.machine_serve, Turn.machine_serve]
  cases next.execute m.registers.leftValue i <;> rfl

/-! ### The step -/

/-- How the step `s` of `m`, whose operation and mode byte are in the code, deals with operands
that are not. -/
structure CompletesCutOff (m : Machine) (c : κ) (s : Step κ) : Prop where
  /-- The instruction with every missing operand zero is carried out, as it would be if all of it
  were in the code. -/
  completed : ¬m.memory.CutStore m.ip.toNat → ∀ i, m.memory.Completed m.ip.toNat i →
    s.machine.SameData (m.completion (m.skip i.size) c i)
  /-- If this is no instruction, nothing is carried out. -/
  refused : ¬m.memory.CutStore m.ip.toNat → (∀ i, ¬m.memory.Completed m.ip.toNat i) →
    s.machine.SameData m
  /-- A store that is cut off has its missing address zero, and its register in the first byte
  that is left. -/
  cut : m.memory.CutStore m.ip.toNat → ∀ r, m.memory.CodeAt (m.ip.toNat + 2) [r.toByte] →
    s.machine.SameData (m.completion ((m.skip 3).raise .pointerOutOfBounds) c
      (.store 0 (.register r)))
  /-- If this byte is no register, nothing is carried out. -/
  cutRefused : m.memory.CutStore m.ip.toNat →
    (∀ r : Register, ¬m.memory.CodeAt (m.ip.toNat + 2) [r.toByte]) → s.machine.SameData m
  /-- No byte is part of two operands. -/
  once : ∀ i, (m.memory.decode m.ip).instruction? = some i → ∃ last,
    m.memory.FetchesAll (Cursor.skip ⟨m.ip, []⟩ 2) i.operands last

/-- The step of a machine that is at an instruction is to carry it out after decoding. -/
theorem step_of_decoded (hrun : m.status = .running) (hip : m.ip < m.memory.codeSize)
    (hi : (m.memory.decode m.ip).instruction? = some i) :
    ∃ s, m.step? c = some s ∧ s.machine = m.completion m.decoded c i :=
  ⟨_, step?_of_turn? (turn?_of_fetched hrun hip hi) c, machine_serve_turnOf⟩

theorem step_of_undecodable (hrun : m.status = .running) (hip : m.ip < m.memory.codeSize)
    (hi : (m.memory.decode m.ip).instruction? = none) :
    ∃ s, m.step? c = some s ∧ s.machine.SameData m := by
  refine ⟨_, step?_of_turn? (turn?_of_undecodable hrun hip hi) c, ?_⟩
  rw [Turn.machine_serve]
  have hraise := (SameData.advance m (m.memory.decode m.ip).cursor).raise .badInstruction
  exact hraise.trans ⟨fun r _ hflags => m.get_raise_of_ne .badInstruction hflags, rfl⟩

/-- Where a fetch is refused, the data is the same as if the machine were behind the whole
instruction. -/
theorem sameData_completion_decoded (hcode : m.ip.toNat + 2 ≤ m.memory.codeSize.toNat)
    (hcut : ¬m.memory.CutStore m.ip.toNat)
    (hi : (m.memory.decode m.ip).instruction? = some i) :
    (m.completion m.decoded c i).SameData (m.completion (m.skip i.size) c i) := by
  have hip : m.ip < m.memory.codeSize := UInt32.lt_iff_toNat_lt.2 (by omega)
  by_cases hnone : (m.memory.decode m.ip).cursor.refused = []
  · have hdecoded : m.decoded = m.skip i.size := by
      rw [decoded, advance_eq, if_pos hnone, Memory.ip_decode_of_accepted hip hi hnone]
      rfl
    rw [hdecoded]
    exact .refl _
  · have hsame : m.decoded.SameData (m.skip i.size) :=
      (SameData.advance m _).trans (SameData.skip m i.size).symm
    exact hsame.completion (Memory.blank_of_refused hcode hcut hi hnone)

/-- A machine whose `IP` is at an operation and a mode byte takes a step, with any console, and it
completes the instruction with zero for every operand whose field is not wholly inside the code;
but for the store of a register at an address that is cut off, where the register is looked for in
place of the address. No byte is part of two operands. -/
theorem truncated_completes (c : κ) (hrun : m.status = .running)
    (hcode : m.ip.toNat + 2 ≤ m.memory.codeSize.toNat) :
    ∃ s, m.step? c = some s ∧ m.CompletesCutOff c s := by
  have hip : m.ip < m.memory.codeSize := UInt32.lt_iff_toNat_lt.2 (by omega)
  cases hi : (m.memory.decode m.ip).instruction? with
  | none =>
    obtain ⟨s, hs, hsame⟩ := step_of_undecodable (c := c) hrun hip hi
    refine ⟨s, hs, fun hcut i hcompleted => ?_, fun _ _ => hsame, fun hcut r hr => ?_,
      fun _ _ => hsame, fun i hsome => ?_⟩
    · cases hi.symm.trans ((Memory.decode_eq_some_iff_completed hcode hcut).2 hcompleted)
    · cases hi.symm.trans (hcut.decode_eq_iff.2 ⟨r, rfl, hr, rfl⟩).1
    · cases hi.symm.trans hsome
  | some i =>
    obtain ⟨s, hs, hmachine⟩ := step_of_decoded (c := c) hrun hip hi
    refine ⟨s, hs, fun hcut j hcompleted => ?_, fun hcut hnone => ?_, fun hcut r hr => ?_,
      fun hcut hnone => ?_, fun j hj => ?_⟩
    · have hj := (Memory.decode_eq_some_iff_completed hcode hcut).2 hcompleted
      obtain rfl := Option.some.inj (hi.symm.trans hj)
      rw [hmachine]
      exact sameData_completion_decoded hcode hcut hi
    · exact absurd ((Memory.decode_eq_some_iff_completed hcode hcut).1 hi) (hnone i)
    · obtain ⟨hstore, hcursor⟩ := hcut.decode_eq_iff.2 ⟨r, rfl, hr, rfl⟩
      obtain rfl := Option.some.inj (hi.symm.trans hstore)
      have hdecoded : m.decoded = (m.skip 3).raise .pointerOutOfBounds := by
        rw [decoded, hcursor, advance_eq, if_neg (List.cons_ne_nil _ _)]
        rfl
      rw [hmachine, hdecoded]
      exact .refl _
    · obtain ⟨r, -, hr, -⟩ := hcut.decode_eq_iff.1 ⟨hi, rfl⟩
      exact absurd hr (hnone r)
    · obtain ⟨-, last, hoperands, -⟩ := Memory.exists_fetchesAll_of_decode hcode hj
      exact ⟨last, hoperands⟩

/-- `mov r3, [a]`, with two of the four bytes of the address. -/
def cutLoad : Image := ⟨0, [0x01, 0x13, 0x02, 0x07, 0x00], [0xFF]⟩

/-- The word is loaded from the address zero, so it is the first four bytes of the code. -/
theorem truncated_completes_cutLoad :
    ∃ s, (ofImage cutLoad).step? (Buffer.ofInput []) = some s ∧
      s.machine.get .r3 = 0x07021301 := by
  obtain ⟨s, hs, h⟩ := truncated_completes (m := ofImage cutLoad) (Buffer.ofInput []) rfl
    (by decide)
  have hcompleted : (ofImage cutLoad).memory.Completed 0 (.move .r3 (.memory 0)) :=
    ⟨⟨.ofKinds .register .memory, ⟨by decide, by decide⟩, by decide⟩,
      Or.inl ⟨by decide, by decide⟩, Or.inr ⟨by decide, .memory⟩, trivial⟩
  have hcut : ¬(ofImage cutLoad).memory.CutStore 0 := fun hcut =>
    absurd (hcut.1.bytes 1 (by decide)) (by decide)
  exact ⟨s, hs, (h.completed hcut _ hcompleted).registers .r3 (by decide) (by decide)⟩

/-- `mov [a], r` with one of the four bytes of the address, and then data, at a machine with two
different words in its registers. -/
def cutStore : Machine :=
  ((ofImage ⟨0, [0x01, 0x31, 0x01], [0, 0, 0, 0]⟩).set .r1 0x11111111).set .r2 0xAABBCCDD

/-- In their own places neither the address nor the register has all of its bytes in the code, and
yet it is not the first register that is stored: the byte of the address that is left is taken
for a register. -/
theorem cutStore_misread :
    cutStore.memory.Completed 0 (.store 0 (.register .r1)) ∧
      ∃ s, cutStore.step? (Buffer.ofInput []) = some s ∧
        s.machine.memory.bytes = #[0xDD, 0xCC, 0xBB, 0xAA, 0, 0, 0] ∧
        ¬s.machine.SameData (cutStore.completion (cutStore.skip 7) (Buffer.ofInput [])
          (.store 0 (.register .r1))) := by
  have hcompleted : cutStore.memory.Completed 0 (.store 0 (.register .r1)) :=
    ⟨⟨.ofKinds .memory .register, ⟨by decide, by decide⟩, by decide⟩,
      Or.inr ⟨by decide, .memory⟩, Or.inr ⟨by decide, .register⟩, trivial⟩
  refine ⟨hcompleted, _, rfl, rfl, fun h => ?_⟩
  have hbyte := congrArg (fun memory => memory.bytes[0]?) h.memory
  exact absurd hbyte (by decide)

end Machine

end RegisterMachine
