import RegisterMachine.Proofs.Machine.Turn

/-!
# RegisterMachine.Proofs.Machine.Execution

Support lemmas for **carrying an instruction out**. `Machine.Commits` lists what
an instruction can do to the machine if it does not fault; nothing after
`Machine.commits_of_execute` looks at `Machine.execute` again. From the list are
read off where `IP` is afterwards (`Commits.ip`), what becomes of the flags of
earlier faults (`Commits.has`), and that a stopped machine stays stopped
(`Commits.status`).

The only instructions that assign to a register of their choice are `mov` and
the arithmetic, and `Machine.assigned?` is what they assign.
-/

namespace RegisterMachine

variable {α : Type}

/-! ### Flags that are left alone -/

theorem Flag.bit_and_bit_of_ne {f g : Flag} (h : f ≠ g) : f.bit &&& g.bit = 0 := by
  revert h
  cases f <;> cases g <;> decide

namespace Flags

/-- A flag is in two sets of flags alike if they agree on its bit. -/
theorem has_congr {flags other : Flags} {f : Flag}
    (h : ∀ i (hi : i < 32), f.bit.toBitVec[i] = true →
      flags.word.toBitVec[i] = other.word.toBitVec[i]) : flags.has f = other.has f := by
  have hword : flags.word &&& f.bit = other.word &&& f.bit := by
    apply UInt32.toBitVec_inj.1
    ext i hi
    have hbit := h i hi
    simp only [UInt32.toBitVec_and, BitVec.getElem_and]
    cases hf : f.bit.toBitVec[i] with
    | false => simp
    | true => rw [hbit hf]
  rw [Bool.eq_iff_iff, has_iff, has_iff, hword]

theorem bit_eq_false_of_disjoint {w : Word} {f : Flag} (h : w &&& f.bit = 0) {i : Nat}
    (hi : i < 32) (hf : f.bit.toBitVec[i] = true) : w.toBitVec[i] = false := by
  have hbit : (w &&& f.bit).toBitVec[i] = false := by
    rw [h]
    simp
  rw [UInt32.toBitVec_and, BitVec.getElem_and, hf, Bool.and_true] at hbit
  exact hbit

/-- Setting other bits does not set the flag. -/
theorem has_insert_of_disjoint {flags other : Flags} {f : Flag}
    (h : other.word &&& f.bit = 0) : (flags.insert other).has f = flags.has f := by
  refine has_congr ?_
  intro i hi hf
  simp [bit_eq_false_of_disjoint h hi hf]

/-- Clearing other bits does not clear the flag. -/
theorem has_remove_of_disjoint {flags other : Flags} {f : Flag}
    (h : other.word &&& f.bit = 0) : (flags.remove other).has f = flags.has f := by
  refine has_congr ?_
  intro i hi hf
  simp [bit_eq_false_of_disjoint h hi hf]

end Flags

theorem comparisonFlag_ne (signed : Bool) (a b : Word) (f : Fault) :
    comparisonFlag signed a b ≠ f.flag := by
  unfold comparisonFlag
  by_cases hab : a = b
  · rw [if_pos hab]
    cases f <;> decide
  rw [if_neg hab]
  by_cases hlt : if signed then a.toInt32 < b.toInt32 else a < b
  · rw [if_pos hlt]
    cases f <;> decide
  · rw [if_neg hlt]
    cases f <;> decide

/-! ### Instructions that go on elsewhere -/

/-- The instruction goes on elsewhere than right behind itself. -/
def Instruction.Redirects (i : Instruction α) (flags : Flags) : Prop :=
  i.target? = some .ip ∨ ∃ c, i.opcode = .branch c ∧ c.holds flags = true

theorem Instruction.redirects_resolve {β ε : Type} {f : α → Except ε β} {i : Instruction α}
    {i' : Instruction β} (h : i.resolve f = .ok i') (flags : Flags) :
    i'.Redirects flags ↔ i.Redirects flags := by
  obtain ⟨hop, htarget⟩ := head_resolve h
  rw [Redirects, Redirects, hop, htarget]

theorem Instruction.eq_syscall_of_opcode {i : Instruction α} (h : i.opcode = .syscall) :
    i = .syscall := by
  cases i with
  | syscall => rfl
  | _ => cases h

namespace Machine

variable {m : Machine} {left : Register → Word} {i : Instruction Word}

@[simp] theorem ip_withFlags (m : Machine) (flags : Flags) : (m.withFlags flags).ip = m.ip :=
  get_set_of_ne m _ (by decide)

@[simp] theorem ip_raise (m : Machine) (f : Fault) : (m.raise f).ip = m.ip :=
  get_raise_of_ne m f (by decide)

theorem ip_set_of_ne (m : Machine) {r : Register} (w : Word) (h : r ≠ .ip) :
    (m.set r w).ip = m.ip :=
  get_set_of_ne m w h.symm

theorem flags_set_of_ne (m : Machine) {r : Register} (w : Word) (h : r ≠ .rF) :
    (m.set r w).flags = m.flags :=
  congrArg Flags.mk (m.get_set_of_ne w h.symm)

theorem has_compare (m : Machine) (a b : Word) (f : Fault) :
    (m.compare a b).flags.has f.flag = m.flags.has f.flag := by
  have hcomparison : Flags.comparison.word &&& f.flag.bit = 0 := by
    cases f <;> decide
  have hresult : (Flags.ofFlag (comparisonFlag m.signed a b)).word &&& f.flag.bit = 0 :=
    Flag.bit_and_bit_of_ne (comparisonFlag_ne m.signed a b f)
  rw [compare, flags_withFlags, Flags.has_insert_of_disjoint hresult,
    Flags.has_remove_of_disjoint hcomparison]

theorem has_branch (m : Machine) (c : Condition) (target : Word) (f : Fault) :
    (m.branch c target).flags.has f.flag = m.flags.has f.flag := by
  have htest : (Flags.ofFlag .test).word &&& f.flag.bit = 0 := by
    cases f <;> decide
  unfold branch
  split
  · rw [flags_set_of_ne _ _ (by decide), flags_withFlags, Flags.has_insert_of_disjoint htest]
  · rw [flags_withFlags, Flags.has_remove_of_disjoint htest]

/-! ### What an instruction commits -/

/-- What an instruction puts into the register that it names, if it is carried out. -/
def assigned? (m : Machine) : Instruction Word → Option (Register × Word)
  | .move dst src => (m.value? src).map fun v => (dst, if dst = .rS then v &&& 1 else v)
  | .arith op dst src => (m.value? src).map fun v => (dst, op.apply (m.get dst) v)
  | _ => none

/-- The word that an instruction puts into `rF`, if it is carried out and puts one there. A
comparison or a branch does not: of `rF` it only changes single bits. -/
def flagsPut? (m : Machine) (i : Instruction Word) : Option Word :=
  (m.assigned? i).bind fun p => if p.1 = .rF then some p.2 else none

theorem target?_of_assigned {r : Register} {w : Word} (h : m.assigned? i = some (r, w)) :
    i.target? = some r := by
  cases i with
  | move dst src =>
    obtain ⟨v, -, hv⟩ := Option.map_eq_some_iff.1 h
    cases hv
    rfl
  | arith op dst src =>
    obtain ⟨v, -, hv⟩ := Option.map_eq_some_iff.1 h
    cases hv
    rfl
  | _ => cases h

/-- What a served request makes of the machine before the host has answered. -/
inductive Grants (m : Machine) : Outcome → Prop
  | exit : Grants m (.done m.halt)
  | answer (w : Word) : Grants m (.done (m.set .r1 w))
  | write (descriptor : Word) (bytes : List Byte) (w : Word) :
      Grants m (.write descriptor bytes (m.set .r1 w))
  | read (address count : Word) : Grants m (.read address count m)

/-- What an instruction that does not fault makes of the machine. -/
inductive Commits (m : Machine) (left : Register → Word) : Instruction Word → Outcome → Prop
  | nop : Commits m left .nop (.done m)
  | syscall {outcome : Outcome} : m.Grants outcome → Commits m left .syscall outcome
  | assign {i : Instruction Word} {r : Register} {w : Word} :
      m.assigned? i = some (r, w) → Commits m left i (.done (m.set r w))
  | store {address : Word} {src : Direct Word} {memory : Memory} :
      m.memory.store? address (m.value src) = some memory →
      Commits m left (.store address src) (.done { m with memory })
  | cmp {r : Register} {right : Operand Word} {v : Word} :
      m.value? right = some v → Commits m left (.cmp r right) (.done (m.compare (left r) v))
  | branch {c : Condition} {target : Direct Word} :
      Commits m left (.branch c target) (.done (m.branch c (m.value target)))

theorem grants_of_request {outcome : Outcome} (h : m.request = .ok outcome) :
    m.Grants outcome := by
  unfold request at h
  dsimp only at h
  split at h
  · cases h
  · cases h
    exact .exit
  · split at h
    · cases h
      exact .write _ _ _
    · cases h
  · split at h
    · split at h
      · cases h
        exact .read _ _
      · cases h
        exact .answer 0
    · cases h
  · cases h
    exact .answer _

theorem commits_of_execute {outcome : Outcome} (h : m.execute left i = .ok outcome) :
    m.Commits left i outcome := by
  cases i with
  | nop =>
    cases h
    exact .nop
  | syscall => exact .syscall (grants_of_request h)
  | move dst src =>
    rw [execute] at h
    split at h
    · rename_i v hv
      cases h
      exact .assign (by rw [assigned?, hv]; rfl)
    · cases h
  | store address src =>
    rw [execute] at h
    split at h
    · rename_i memory hm
      cases h
      exact .store hm
    · cases h
  | arith op dst src =>
    rw [execute] at h
    split at h
    · rename_i v hv
      cases h
      exact .assign (by rw [assigned?, hv]; rfl)
    · cases h
  | cmp r right =>
    rw [execute] at h
    split at h
    · rename_i v hv
      cases h
      exact .cmp hv
    · cases h
  | branch c target =>
    cases h
    exact .branch

/-- An instruction faults before it has assigned anything. Only a request can be a bad
instruction at this point. -/
theorem fault_of_execute {f : Fault} (h : m.execute left i = .error f) :
    m.assigned? i = none ∧ (f = .readOutOfBounds ∨ f = .writeOutOfBounds ∨
      f = .badInstruction ∧ i = .syscall ∧ 3 < m.get .r1) := by
  cases i with
  | nop => cases h
  | syscall =>
    refine ⟨rfl, ?_⟩
    change m.request = .error f at h
    unfold request at h
    dsimp only at h
    split at h
    · rename_i hid
      cases h
      exact Or.inr (Or.inr ⟨rfl, rfl, Syscall.ofId?_eq_none_iff.1 hid⟩)
    · cases h
    · split at h
      · cases h
      · cases h
        exact Or.inl rfl
    · split at h
      · split at h <;> cases h
      · cases h
        exact Or.inr (Or.inl rfl)
    · cases h
  | move dst src =>
    rw [execute] at h
    split at h
    · cases h
    · rename_i hv
      cases h
      exact ⟨by rw [assigned?, hv]; rfl, Or.inl rfl⟩
  | store address src =>
    rw [execute] at h
    split at h
    · cases h
    · cases h
      exact ⟨rfl, Or.inr (Or.inl rfl)⟩
  | arith op dst src =>
    rw [execute] at h
    split at h
    · cases h
    · rename_i hv
      cases h
      exact ⟨by rw [assigned?, hv]; rfl, Or.inl rfl⟩
  | cmp r right =>
    rw [execute] at h
    split at h
    · cases h
    · cases h
      exact ⟨rfl, Or.inl rfl⟩
  | branch c target => cases h

/-! ### What is left alone -/

variable {outcome : Outcome}

theorem Grants.get (h : m.Grants outcome) {r : Register} (hr : r ≠ .r1) :
    outcome.machine.get r = m.get r := by
  cases h with
  | exit => rfl
  | answer w => exact get_set_of_ne m w hr
  | write descriptor bytes w => exact get_set_of_ne m w hr
  | read address count => rfl

theorem Grants.flags (h : m.Grants outcome) : outcome.machine.flags = m.flags :=
  congrArg Flags.mk (h.get (by decide))

theorem Grants.status (h : m.Grants outcome) (hm : m.status = .halted) :
    outcome.machine.status = .halted := by
  cases h with
  | exit => rfl
  | answer w => exact hm
  | write descriptor bytes w => exact hm
  | read address count => exact hm

/-- Nothing but a jump moves `IP`. -/
theorem Commits.ip (h : m.Commits left i outcome) (hi : ¬i.Redirects m.flags) :
    outcome.machine.ip = m.ip := by
  cases h with
  | nop => rfl
  | syscall hg => exact hg.get (by decide)
  | assign ha =>
    refine ip_set_of_ne m _ ?_
    rintro rfl
    exact hi (Or.inl (target?_of_assigned ha))
  | store hm => rfl
  | cmp hv => exact ip_withFlags m _
  | @branch c target =>
    have hc : c.holds m.flags = false := by
      rw [Bool.eq_false_iff]
      intro hc
      exact hi (Or.inr ⟨c, rfl, hc⟩)
    show (m.branch c (m.value target)).ip = m.ip
    rw [Machine.branch, hc]
    exact ip_withFlags m _

/-- The flags of faults are left alone, unless the instruction puts a word into `rF`. -/
theorem Commits.has (h : m.Commits left i outcome) (f : Fault) :
    outcome.machine.flags.has f.flag =
      (((m.flagsPut? i).map Flags.mk).getD m.flags).has f.flag := by
  cases h with
  | nop => rfl
  | syscall hg =>
    rw [hg.flags]
    rfl
  | @assign i r w ha =>
    rw [flagsPut?, ha]
    -- the only way to lose a flag is to overwrite all of `rF`
    by_cases hr : r = .rF
    · subst hr
      exact congrArg (fun word => (Flags.mk word).has f.flag) (get_set_self m _ w)
    · have hnone : (if r = .rF then some w else none) = none := if_neg hr
      rw [Option.bind_some, hnone]
      exact congrArg (Flags.has · f.flag) (flags_set_of_ne m w hr)
  | store hm => rfl
  | cmp hv => exact has_compare m _ _ f
  | branch => exact has_branch m _ _ f

/-- A machine that has stopped does not start again. -/
theorem Commits.status (h : m.Commits left i outcome) (hm : m.status = .halted) :
    outcome.machine.status = .halted := by
  cases h with
  | nop => exact hm
  | syscall hg => exact hg.status hm
  | assign ha => exact hm
  | store hs => exact hm
  | cmp hv => exact hm
  | @branch c target =>
    show (m.branch c (m.value target)).status = .halted
    unfold Machine.branch
    split <;> exact hm

end Machine

end RegisterMachine
