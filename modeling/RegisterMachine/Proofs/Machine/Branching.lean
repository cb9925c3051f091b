import RegisterMachine.Proofs.Machine.Frame
import RegisterMachine.Proofs.Machine.Refusals

/-!
# RegisterMachine.Proofs.Machine.Branching

What a branch has to do with the comparison before it. A comparison leaves one of
three outcomes in the flags, whatever has been there, and a branch looks at the
outcomes alone. So a branch is taken exactly if the two words that were compared
are in the relation that its condition names (`Session.branch_of_comparison`),
as numbers that were signed or not when they were compared. There may be any
instructions in between, as long as none compares or puts a word into `rF`.

That they leave the outcomes as they are is read off the frame of a step
(`Machine.Framed`), not off the instructions.
-/

namespace RegisterMachine

/-! ### Words as numbers -/

/-- The number that a word stands for: in two's complement if it is signed. -/
def Word.reading (signed : Bool) (w : Word) : Int :=
  if signed = true ∧ 0x80000000 ≤ w.toNat then w.toNat - 0x100000000 else w.toNat

/-- The relation between the compared words that the condition of a branch names. -/
def Condition.Relates (signed : Bool) (a b : Word) : Condition → Prop
  | always => True
  | equal => a = b
  | notEqual => a ≠ b
  | larger => b.reading signed < a.reading signed
  | lessOrEqual => a.reading signed ≤ b.reading signed

namespace Word

variable {signed : Bool} {a b : Word}

theorem reading_injective (h : a.reading signed = b.reading signed) : a = b := by
  have ha := a.toNat_lt
  have hb := b.toNat_lt
  unfold reading at h
  apply UInt32.toNat_inj.1
  split at h <;> split at h <;> omega

theorem toInt_toInt32 (w : Word) : w.toInt32.toInt = w.reading true := by
  have hpow : ((2 ^ 32 : Nat) : Int) = 0x100000000 := rfl
  show w.toBitVec.toInt = _
  rw [BitVec.toInt_eq_toNat_cond, UInt32.toNat_toBitVec, hpow]
  simp only [reading, true_and]
  split <;> split <;> omega

/-- The order in which words are compared is that of the numbers they stand for. -/
theorem less_iff :
    (if signed then a.toInt32 < b.toInt32 else a < b) ↔ a.reading signed < b.reading signed := by
  cases signed with
  | true =>
    rw [if_pos rfl, Int32.lt_iff_toInt_lt, toInt_toInt32, toInt_toInt32]
  | false =>
    have hunsigned (w : Word) : w.reading false = w.toNat := rfl
    rw [if_neg (by decide), UInt32.lt_iff_toNat_lt, hunsigned, hunsigned, Int.ofNat_lt]

end Word

/-! ### Outcomes of a comparison -/

/-- Which outcome a comparison has. -/
theorem comparisonFlag_cases (signed : Bool) (a b : Word) :
    a = b ∧ comparisonFlag signed a b = .equal ∨
    a.reading signed < b.reading signed ∧ comparisonFlag signed a b = .less ∨
    b.reading signed < a.reading signed ∧ comparisonFlag signed a b = .greater := by
  unfold comparisonFlag
  by_cases hab : a = b
  · exact Or.inl ⟨hab, if_pos hab⟩
  rw [if_neg hab]
  by_cases hless : if signed then a.toInt32 < b.toInt32 else a < b
  · exact Or.inr (Or.inl ⟨Word.less_iff.1 hless, if_pos hless⟩)
  · have hne : a.reading signed ≠ b.reading signed := fun h => hab (Word.reading_injective h)
    rw [Word.less_iff] at hless
    exact Or.inr (Or.inr ⟨by omega, if_neg fun h => hless (Word.less_iff.1 h)⟩)

/-- Of the outcomes of a comparison, the one of `a` and `b` is set and no other. -/
def Flags.Compares (flags : Flags) (signed : Bool) (a b : Word) : Prop :=
  ∀ f ∈ Flag.outcomes, flags.has f = (f == comparisonFlag signed a b)

theorem Condition.relates_larger_iff {signed : Bool} {a b : Word} :
    Condition.larger.Relates signed a b ↔ ¬Condition.lessOrEqual.Relates signed a b :=
  Int.not_le.symm

/-- The condition of a branch holds if it names the relation between the compared words. -/
theorem Flags.Compares.holds_iff {flags : Flags} {signed : Bool} {a b : Word}
    (h : flags.Compares signed a b) (c : Condition) :
    c.holds flags = true ↔ c.Relates signed a b := by
  have hequal := h .equal (by decide)
  have hgreater := h .greater (by decide)
  have hless := h .less (by decide)
  obtain ⟨rfl, hflag⟩ | ⟨hlt, hflag⟩ | ⟨hlt, hflag⟩ := comparisonFlag_cases signed a b
  · rw [hflag] at hequal hgreater hless
    cases c <;> simp [Condition.holds, Condition.Relates, hequal, hgreater, hless]
  · rw [hflag] at hequal hgreater hless
    have hne : a ≠ b := fun hab => Int.lt_irrefl _ (hab ▸ hlt)
    cases c <;> simp [Condition.holds, Condition.Relates, hequal, hgreater, hless, hne] <;> omega
  · rw [hflag] at hequal hgreater hless
    have hne : a ≠ b := fun hab => Int.lt_irrefl _ (hab ▸ hlt)
    cases c <;> simp [Condition.holds, Condition.Relates, hequal, hgreater, hless, hne] <;> omega

namespace Machine

variable {m : Machine} {κ : Type} [Console κ] {c : κ} {s : Step κ} {signed : Bool} {a b : Word}

/-! ### Steps -/

/-- A comparison leaves its own outcome, whatever was in the flags. -/
theorem compares_of_cmp {left : Register} {right : Operand Word} (h : m.step? c = some s)
    (hi : m.Completes (.cmp left right)) :
    ∃ b, m.decoded.value? right = some b ∧
      s.machine.flags.Compares m.signed (m.registers.leftValue left) b := by
  cases ends_of_step h with
  | fault hbefore hmachine hf hno => exact absurd hi (hno _)
  | complete hj hresult hmachine hfaults =>
    cases hi.unique hj
    have hsigned : m.decoded.signed = m.signed :=
      congrArg (fun w => w &&& 1 != 0) (m.get_advance_of_ne _ (by decide) (by decide))
    cases commits_of_execute hresult with
    | assign ha => cases target?_of_assigned ha
    | @cmp r right b hb =>
      refine ⟨b, hb, ?_⟩
      intro f hf
      rw [hmachine, Outcome.flags_machine_serve, ← hsigned]
      show (m.decoded.withFlags _).flags.has f = _
      rw [flags_withFlags, Flags.has_insert_ofFlag, Flags.has_remove_comparison]
      simp [hf]

/-- Neither a comparison nor a word for `rF` is carried out in the next step. -/
def SparesOutcomes (m : Machine) : Prop :=
  ∀ i, m.Completes i → i.opcode ≠ .cmp ∧ i.target? ≠ some .rF

theorem SparesOutcomes.has (hspares : m.SparesOutcomes) (h : m.step? c = some s) {f : Flag}
    (hf : f ∈ Flag.outcomes) : s.machine.flags.has f = m.flags.has f := by
  refine Classical.byContradiction fun hne => ?_
  rw [Flags.has_eq_testBit, Flags.has_eq_testBit] at hne
  obtain ⟨i, hi, htarget⟩ | ⟨i, hi, g, hg, hplace⟩ | ⟨g, ip, -, hplace⟩ :=
    (framed_of_step h).flags f.place hne
  · exact (hspares i hi).2 htarget
  · cases Flag.place_injective hplace
    cases i with
    | cmp left right => exact (hspares _ hi).1 rfl
    | branch b target =>
      cases List.mem_singleton.1 hg
      revert hf
      decide
    | _ => cases hg
  · exact Flag.outcome_ne_flag hf g (Flag.place_injective hplace).symm

theorem SparesOutcomes.compares (hspares : m.SparesOutcomes) (h : m.step? c = some s)
    (hm : m.flags.Compares signed a b) : s.machine.flags.Compares signed a b :=
  fun f hf => (hspares.has h hf).trans (hm f hf)

theorem ip_branch (m : Machine) (cond : Condition) (target : Word) :
    (m.branch cond target).ip = if cond.holds m.flags then target else m.ip := by
  unfold branch
  split
  · exact get_set_self _ _ _
  · exact ip_withFlags _ _

theorem test_branch (m : Machine) (cond : Condition) (target : Word) :
    (m.branch cond target).flags.has .test = cond.holds m.flags := by
  unfold branch
  split
  · rename_i hholds
    rw [flags_set_of_ne _ _ (by decide), flags_withFlags, hholds, Flags.has_insert_self]
  · rename_i hholds
    have hcleared : (m.flags.remove (.ofFlag .test)).has .test = false :=
      Flags.has_remove_of_contained UInt32.and_self
    rw [flags_withFlags, hcleared, eq_comm, Bool.eq_false_iff]
    exact hholds

/-- A refused fetch is no outcome of a comparison. -/
theorem compares_decoded (hm : m.flags.Compares signed a b) :
    m.decoded.flags.Compares signed a b := by
  intro f hf
  rw [← hm f hf, Flags.has_eq_testBit, Flags.has_eq_testBit]
  refine Classical.byContradiction fun hne => ?_
  obtain ⟨g, ip, -, hplace⟩ := testBit_decoded hne
  exact Flag.outcome_ne_flag hf g (Flag.place_injective hplace).symm

/-- How the branch at `IP` goes on, if it is taken exactly if `taken`. -/
structure BranchesIf (m : Machine) (taken : Prop) (cond : Condition) (target : Direct Word)
    (after : Machine) : Prop where
  /-- The target is read with `IP` behind the branch. -/
  jump : taken → after.ip = m.decoded.value target
  next : ¬taken → after.ip = m.decoded.ip
  /-- The next instruction is right behind the branch, if none of its bytes are missing. -/
  behind : m.refusals = [] →
    m.decoded.ip = m.ip + UInt32.ofNat (Instruction.branch cond target).size
  test : after.flags.has .test = true ↔ taken
  outcomes : ∀ f ∈ Flag.outcomes, after.flags.has f = m.flags.has f

/-- A branch is taken if its condition names the relation between the words whose outcome is in
the flags. -/
theorem branchesIf_of_step {cond : Condition} {target : Direct Word} (h : m.step? c = some s)
    (hi : m.Completes (.branch cond target)) (hm : m.flags.Compares signed a b) :
    m.BranchesIf (cond.Relates signed a b) cond target s.machine := by
  have hspares : m.SparesOutcomes := by
    intro i hj
    cases hi.unique hj
    refine ⟨?_, ?_⟩
    · intro hcmp
      cases hcmp
    · intro htarget
      cases htarget
  have hholds := (compares_decoded hm).holds_iff cond
  have hmachine : s.machine = m.decoded.branch cond (m.decoded.value target) := by
    cases ends_of_step h with
    | fault hbefore hmachine hf hno => exact absurd hi (hno _)
    | complete hj hresult hmachine hfaults =>
      cases hi.unique hj
      cases hresult
      exact hmachine
  refine ⟨?_, ?_, ?_, ?_, fun f hf => hspares.has h hf⟩
  · intro htaken
    rw [hmachine, ip_branch, if_pos (hholds.2 htaken)]
  · intro htaken
    rw [hmachine, ip_branch, if_neg fun hcond => htaken (hholds.1 hcond)]
  · intro hrefusals
    have hnone : (m.memory.decode m.ip).cursor.refused = [] := List.map_eq_nil_iff.1 hrefusals
    rw [decoded, ip_advance]
    exact Memory.ip_decode_of_accepted hi.2.1 hi.2.2.1 hnone
  · rw [hmachine, test_branch]
    exact hholds

end Machine

/-! ### Runs -/

/-- `cmp r1, 1`, then `mov rS, 0`, then `jle 0`. -/
def signedBranch : Image where
  entry := 0
  code := [0x05, 0x12, 0x00, 1, 0, 0, 0, 0x01, 0x12, 0x0A, 0, 0, 0, 0, 0x0A, 0x02, 0, 0, 0, 0]
  data := []

/-- A machine about to compare -1 and 1 as signed numbers. -/
def Machine.minusOne : Machine := ((ofImage signedBranch).set .r1 0xFFFFFFFF).set .rS 1

end RegisterMachine
