import RegisterMachine.Proofs.Machine.Execution

/-!
# RegisterMachine.Proofs.Machine.Flags

Support lemmas for **single flags**. Whether a flag is set after some flags have
been set or cleared is one equation for each operation; the number of outcomes
of a comparison that are set, and whether a fault has left its flag, are read off
these equations. The bits that are no flags are told apart by their numbers
(`Flags.testBit`), and only `Flags.word_lt_insert` and `Flags.word_lt_remove` look
at the word as a whole.
-/

namespace RegisterMachine

/-- The flags that a comparison sets and clears. -/
def Flag.outcomes : List Flag := [.equal, .greater, .less]

theorem Flag.bit_lt (f : Flag) : f.bit.toNat < 256 := by cases f <;> decide

/-- The number of the flag's bit. -/
def Flag.place : Flag → Nat
  | equal => 0
  | greater => 1
  | less => 2
  | test => 3
  | bad => 4
  | pointer => 5
  | read => 6
  | write => 7

theorem Flag.place_lt (f : Flag) : f.place < 32 := by cases f <;> decide

theorem Flag.place_injective {f g : Flag} (h : f.place = g.place) : f = g := by
  revert h
  cases f <;> cases g <;> decide

/-- A flag is a single bit. -/
theorem Flag.toBitVec_bit (f : Flag) : f.bit.toBitVec = BitVec.twoPow 32 f.place := by
  cases f <;> rfl

theorem Flag.outcome_ne_flag {f : Flag} (h : f ∈ Flag.outcomes) (g : Fault) : f ≠ g.flag := by
  revert h
  cases f <;> cases g <;> decide

theorem comparisonFlag_mem (signed : Bool) (a b : Word) :
    comparisonFlag signed a b ∈ Flag.outcomes := by
  unfold comparisonFlag
  by_cases hab : a = b
  · rw [if_pos hab]
    decide
  · rw [if_neg hab]
    by_cases hlt : if signed then a.toInt32 < b.toInt32 else a < b
    · rw [if_pos hlt]
      decide
    · rw [if_neg hlt]
      decide

namespace Flags

variable {flags other : Flags} {f g : Flag}

/-! ### Flags that are set and cleared -/

theorem has_insert_ofFlag (flags : Flags) (f g : Flag) :
    (flags.insert (ofFlag g)).has f = (f == g || flags.has f) := by
  by_cases h : f = g
  · subst h
    simp
  · have hdisjoint : (ofFlag g).word &&& f.bit = 0 := Flag.bit_and_bit_of_ne (Ne.symm h)
    rw [has_insert_of_disjoint hdisjoint, beq_false_of_ne h, Bool.false_or]

/-- A flag that is cleared with others is not set any more. -/
theorem has_remove_of_contained (h : other.word &&& f.bit = f.bit) :
    (flags.remove other).has f = false := by
  have hnone : (flags.remove other).word &&& f.bit = 0 := by
    rw [remove_word, ← h, UInt32.and_assoc, ← UInt32.and_assoc (~~~ other.word)]
    simp
  rw [Bool.eq_false_iff, ne_eq, has_iff, hnone]
  cases f <;> decide

theorem has_remove_comparison (flags : Flags) (f : Flag) :
    (flags.remove comparison).has f = (!Flag.outcomes.contains f && flags.has f) := by
  by_cases h : f ∈ Flag.outcomes
  · have hcontained : comparison.word &&& f.bit = f.bit := by
      revert h
      cases f <;> decide
    simp [has_remove_of_contained hcontained, h]
  · have hdisjoint : comparison.word &&& f.bit = 0 := by
      revert h
      cases f <;> decide
    simp [has_remove_of_disjoint hdisjoint, h]

/-! ### Bits by their numbers -/

/-- Is the bit with this number set, be it a flag or not? -/
def testBit (flags : Flags) (k : Nat) : Bool := flags.word.toBitVec.getLsbD k

theorem testBit_insert (flags other : Flags) (k : Nat) :
    (flags.insert other).testBit k = (flags.testBit k || other.testBit k) :=
  BitVec.getLsbD_or

theorem testBit_remove (flags other : Flags) (k : Nat) :
    (flags.remove other).testBit k = (flags.testBit k && !other.testBit k) := by
  show (flags.word.toBitVec &&& ~~~ other.word.toBitVec).getLsbD k = _
  rw [BitVec.getLsbD_and, BitVec.getLsbD_not]
  by_cases hk : k < 32
  · simp [testBit, hk]
  · have hflags : flags.testBit k = false := BitVec.getLsbD_of_ge _ _ (Nat.le_of_not_lt hk)
    rw [hflags]
    simp [hk]

theorem testBit_ofFlag (f : Flag) (k : Nat) : (ofFlag f).testBit k = (k == f.place) := by
  unfold testBit ofFlag
  rw [f.toBitVec_bit, BitVec.getLsbD_twoPow]
  simp [f.place_lt, Bool.beq_eq_decide_eq, eq_comm]

/-- Setting a flag changes no bit but its own. -/
theorem place_of_insert {k : Nat} (h : (flags.insert (ofFlag f)).testBit k ≠ flags.testBit k) :
    f.place = k := by
  refine Classical.byContradiction fun hne => h ?_
  rw [testBit_insert, testBit_ofFlag, beq_false_of_ne (Ne.symm hne), Bool.or_false]

/-- Clearing a flag changes no bit but its own. -/
theorem place_of_remove {k : Nat} (h : (flags.remove (ofFlag f)).testBit k ≠ flags.testBit k) :
    f.place = k := by
  refine Classical.byContradiction fun hne => h ?_
  rw [testBit_remove, testBit_ofFlag, beq_false_of_ne (Ne.symm hne), Bool.not_false, Bool.and_true]

theorem testBit_comparison (k : Nat) :
    comparison.testBit k = Flag.outcomes.any fun f => k == f.place := by
  have hthree : comparison = ((ofFlag .equal).insert (ofFlag .greater)).insert (ofFlag .less) := rfl
  rw [hthree, testBit_insert, testBit_insert, testBit_ofFlag, testBit_ofFlag, testBit_ofFlag]
  simp [Flag.outcomes, Bool.or_assoc]

theorem and_bit (flags : Flags) (f : Flag) :
    flags.word &&& f.bit = if flags.testBit f.place then f.bit else 0 := by
  have hand := BitVec.and_twoPow flags.word.toBitVec f.place
  rw [← f.toBitVec_bit] at hand
  apply UInt32.toBitVec_inj.1
  rw [UInt32.toBitVec_and, hand]
  unfold testBit
  split <;> rfl

/-- A comparison changes no bits but those of its outcomes. -/
theorem exists_place_of_comparison (h : g ∈ Flag.outcomes) {k : Nat}
    (hk : ((flags.remove comparison).insert (ofFlag g)).testBit k ≠ flags.testBit k) :
    ∃ f ∈ Flag.outcomes, f.place = k := by
  refine Classical.byContradiction fun hno => hk ?_
  have hother (f : Flag) (hf : f ∈ Flag.outcomes) : (k == f.place) = false :=
    beq_false_of_ne fun heq => hno ⟨f, hf, heq.symm⟩
  have hcleared : comparison.testBit k = false := by
    rw [testBit_comparison, List.any_eq_false]
    intro f hf
    simp [hother f hf]
  rw [testBit_insert, testBit_remove, hcleared, testBit_ofFlag, hother g h, Bool.not_false,
    Bool.and_true, Bool.or_false]

/-- A flag is set if its bit is. -/
theorem has_eq_testBit (flags : Flags) (f : Flag) : flags.has f = flags.testBit f.place := by
  have hbit : (0 : Word) ≠ f.bit := by cases f <;> decide
  rw [Bool.eq_iff_iff, has_iff, and_bit]
  split <;> simp [*]

/-- If a flag is not set, its bit is zero. -/
theorem and_bit_eq_zero (h : flags.has f = false) : flags.word &&& f.bit = 0 := by
  rw [and_bit, ← has_eq_testBit, h]
  rfl

/-! ### The outcomes of a comparison -/

/-- The outcomes of a comparison that are set. -/
def outcomes (flags : Flags) : List Flag := Flag.outcomes.filter flags.has

/-- Flags that do not differ in an outcome have the same ones. -/
theorem outcomes_congr (h : ∀ f ∈ Flag.outcomes, flags.has f = other.has f) :
    flags.outcomes = other.outcomes :=
  List.filter_congr h

theorem outcomes_insert (h : g ∉ Flag.outcomes) :
    (flags.insert (ofFlag g)).outcomes = flags.outcomes := by
  refine outcomes_congr ?_
  intro f hf
  have hne : f ≠ g := fun heq => h (heq ▸ hf)
  rw [has_insert_ofFlag, beq_false_of_ne hne, Bool.false_or]

theorem outcomes_remove (h : g ∉ Flag.outcomes) :
    (flags.remove (ofFlag g)).outcomes = flags.outcomes := by
  refine outcomes_congr ?_
  intro f hf
  refine has_remove_of_disjoint (Flag.bit_and_bit_of_ne ?_)
  rintro rfl
  exact h hf

/-- After a comparison its outcome is set, and no other. -/
theorem outcomes_comparison (h : g ∈ Flag.outcomes) :
    ((flags.remove comparison).insert (ofFlag g)).outcomes = [g] := by
  have hhas (f : Flag) (hf : f ∈ Flag.outcomes) :
      ((flags.remove comparison).insert (ofFlag g)).has f = (f == g) := by
    rw [has_insert_ofFlag, has_remove_comparison]
    simp [hf]
  unfold outcomes
  rw [List.filter_congr hhas]
  revert h
  cases g <;> decide

/-! ### The flags of faults -/

theorem and_or_distrib (a b c : Word) : a &&& (b ||| c) = (a &&& b) ||| (a &&& c) := by
  apply UInt32.toBitVec_inj.1
  simp only [UInt32.toBitVec_and, UInt32.toBitVec_or, BitVec.and_or_distrib_left]

/-- The flags of faults are those of the four faults. -/
theorem hasFault_iff : flags.hasFault = true ↔ ∃ f : Fault, flags.has f.flag = true := by
  unfold hasFault intersects
  rw [bne_iff_ne, ne_eq]
  constructor
  · intro hsome
    refine Classical.byContradiction fun hnone => hsome ?_
    have hzero (f : Fault) : flags.word &&& f.flag.bit = 0 :=
      and_bit_eq_zero (Bool.eq_false_iff.2 fun hf => hnone ⟨f, hf⟩)
    have hfour : faults.word = Fault.badInstruction.flag.bit |||
        (Fault.pointerOutOfBounds.flag.bit |||
          (Fault.readOutOfBounds.flag.bit ||| Fault.writeOutOfBounds.flag.bit)) := rfl
    rw [hfour]
    simp only [and_or_distrib, hzero, UInt32.or_zero]
  · rintro ⟨f, hf⟩ hzero
    have hamong : faults.word &&& f.flag.bit = f.flag.bit := by cases f <;> decide
    have hbit : f.flag.bit = 0 := by
      rw [← has_iff.1 hf, ← hamong, ← UInt32.and_assoc, hzero, UInt32.zero_and]
    revert hbit
    cases f <;> decide

/-! ### The word -/

theorem word_lt_insert (h : flags.word.toNat < 256) (f : Flag) :
    (flags.insert (ofFlag f)).word.toNat < 256 := by
  rw [insert_word, UInt32.toNat_or]
  exact Nat.or_lt_two_pow (n := 8) h f.bit_lt

theorem word_lt_remove (h : flags.word.toNat < 256) (other : Flags) :
    (flags.remove other).word.toNat < 256 := by
  rw [remove_word, UInt32.toNat_and]
  exact Nat.lt_of_le_of_lt Nat.and_le_left h

end Flags

end RegisterMachine
