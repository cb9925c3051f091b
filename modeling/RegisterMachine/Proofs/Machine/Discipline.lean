import RegisterMachine.Proofs.Machine.Completion
import RegisterMachine.Proofs.Machine.Flags

/-!
# RegisterMachine.Proofs.Machine.Discipline

What the two status registers can hold while a program leaves them to the
machine. As long as no instruction names `rF` as its destination, the flags say
what they are meant to say: at most one outcome of a comparison, and a fault
exactly on a machine that has been stopped by one (`Session.Disciplined`). As
long as no arithmetic is done in `rS`, it is zero or one.

Of `rF`, a step sets the flag of a fault, sets or clears the flag of a branch, or
replaces the outcome of a comparison. A property of flags that these three keep
is `Flags.Kept`, and `Flags.Kept.step` is the step lemma for all of them.
-/

namespace RegisterMachine

/-! ### What a step does to the flags -/

/-- A property of flags that is kept by all that a step does to them one by one. -/
structure Flags.Kept (P : Flags → Prop) : Prop where
  raise : ∀ flags (f : Fault), P flags → P (flags.insert (.ofFlag f.flag))
  test : ∀ flags, P flags → P (flags.insert (.ofFlag .test))
  clear : ∀ flags, P flags → P (flags.remove (.ofFlag .test))
  compare : ∀ flags, ∀ f ∈ Flag.outcomes, P flags →
    P ((flags.remove .comparison).insert (.ofFlag f))

/-- Nothing is put into `rF` by an instruction that is carried out. -/
def Machine.SparesFlags (m : Machine) : Prop := ∀ i, m.Completes i → i.target? ≠ some .rF

/-- Nothing is put into `rS` by arithmetic that is carried out. -/
def Machine.SparesMode (m : Machine) : Prop := ∀ op src, ¬m.Completes (.arith op .rS src)

namespace Machine

variable {m : Machine} {κ : Type} [Console κ] {c : κ} {s : Step κ} {P : Flags → Prop}

theorem flagsPut?_eq_none {i : Instruction Word} (hi : i.target? ≠ some .rF) :
    m.flagsPut? i = none := by
  unfold flagsPut?
  cases ha : m.assigned? i with
  | none => rfl
  | some p =>
    rw [target?_of_assigned ha] at hi
    exact if_neg fun hr => hi (congrArg some hr)

end Machine

namespace Flags.Kept

variable {m : Machine} {κ : Type} [Console κ] {c : κ} {s : Step κ} {P : Flags → Prop}

theorem decoded (hP : Kept P) (h : P m.flags) : P m.decoded.flags := by
  have hflags : m.decoded.flags = _ := m.flags_advance _
  rw [hflags]
  split
  · exact h
  · exact hP.raise _ .pointerOutOfBounds h

theorem commits (hP : Kept P) {left : Register → Word} {i : Instruction Word} {outcome : Outcome}
    (hc : m.Commits left i outcome) (hi : i.target? ≠ some .rF) (h : P m.flags) :
    P outcome.machine.flags := by
  cases hc with
  | nop => exact h
  | syscall hg =>
    rwa [hg.flags]
  | @assign i r w ha =>
    have hr : r ≠ .rF := by
      rintro rfl
      exact hi (Machine.target?_of_assigned ha)
    show P (m.set r w).flags
    rwa [m.flags_set_of_ne w hr]
  | store hm => exact h
  | @cmp r right v hv =>
    show P (m.withFlags _).flags
    rw [Machine.flags_withFlags]
    exact hP.compare _ _ (comparisonFlag_mem _ _ _) h
  | @branch b target =>
    show P (m.branch b (m.value target)).flags
    unfold Machine.branch
    split
    · rw [Machine.flags_set_of_ne _ _ (by decide), Machine.flags_withFlags]
      exact hP.test _ h
    · rw [Machine.flags_withFlags]
      exact hP.clear _ h

/-- A step that puts no word into `rF` keeps the property. -/
theorem step (hP : Kept P) (hs : m.step? c = some s) (hspares : m.SparesFlags) (h : P m.flags) :
    P s.machine.flags := by
  cases Machine.ends_of_step hs with
  | fault hbefore hmachine hf hno =>
    rw [hmachine, Machine.flags_raise]
    obtain rfl | rfl := hbefore
    · exact hP.raise _ _ h
    · exact hP.raise _ _ (hP.decoded h)
  | complete hi hresult hmachine hfaults =>
    rw [hmachine, Outcome.flags_machine_serve]
    exact hP.commits (Machine.commits_of_execute hresult) (hspares _ hi) (hP.decoded h)

end Flags.Kept

/-- The flags fit into a byte. -/
theorem Flags.kept_word_lt : Kept fun flags => flags.word.toNat < 256 where
  raise _ f h := word_lt_insert h f.flag
  test _ h := word_lt_insert h .test
  clear _ h := word_lt_remove h _
  compare _ f _ h := word_lt_insert (word_lt_remove h _) f

/-- How many outcomes of a comparison are set is changed by a comparison only, and then to one. -/
theorem Flags.kept_outcomes {Q : Nat → Prop} (hQ : Q 1) :
    Kept fun flags => Q flags.outcomes.length where
  raise _ f h := by
    have hf : f.flag ∉ Flag.outcomes := fun hmem => Flag.outcome_ne_flag hmem f rfl
    rwa [outcomes_insert hf]
  test _ h := by rwa [outcomes_insert (by decide)]
  clear _ h := by rwa [outcomes_remove (by decide)]
  compare _ f hf _ := by rwa [outcomes_comparison hf]

namespace Machine

variable {m : Machine} {κ : Type} [Console κ] {c : κ} {s : Step κ}

/-- After a comparison exactly one outcome is set. -/
theorem outcomes_of_cmp {left : Register} {right : Operand Word} (h : m.step? c = some s)
    (hi : m.Completes (.cmp left right)) : s.machine.flags.outcomes.length = 1 := by
  cases ends_of_step h with
  | fault hbefore hmachine hf hno => exact absurd hi (hno _)
  | complete hj hresult hmachine hfaults =>
    cases hi.unique hj
    rw [hmachine, Outcome.flags_machine_serve]
    cases commits_of_execute hresult with
    | assign ha => cases target?_of_assigned ha
    | cmp hv =>
      show (m.decoded.withFlags _).flags.outcomes.length = 1
      rw [flags_withFlags, Flags.outcomes_comparison (comparisonFlag_mem _ _ _)]
      rfl

theorem flags_decoded_of_accepted (h : ∀ f ip, Event.fault f ip ∉ m.refusals) :
    m.decoded.flags = m.flags := by
  have hflags : m.decoded.flags = _ := m.flags_advance _
  rw [hflags]
  unfold refusals at h
  cases hrefused : (m.memory.decode m.ip).cursor.refused with
  | nil => exact if_pos rfl
  | cons address refused =>
    rw [hrefused] at h
    exact absurd List.mem_cons_self (h .pointerOutOfBounds address)

/-- After a step that puts no word into `rF`, the flag of a fault is set exactly if there was a
fault. -/
theorem hasFault_of_step (h : m.step? c = some s) (hspares : m.SparesFlags)
    (hm : m.flags.hasFault = false) : s.machine.flags.hasFault = s.faulted := by
  rw [Bool.eq_iff_iff, Step.faulted_iff]
  constructor
  · intro hset
    cases ends_of_step h with
    | fault hbefore hmachine hf hno => exact ⟨_, _, hf⟩
    | @complete i outcome hi hresult hmachine hfaults =>
      simp only [hfaults]
      refine Classical.byContradiction fun hno => ?_
      have haccepted (f : Fault) (ip : Word) : Event.fault f ip ∉ m.refusals :=
        fun hf => hno ⟨f, ip, hf⟩
      obtain ⟨f, hf⟩ := Flags.hasFault_iff.1 hset
      rw [hmachine, Outcome.flags_machine_serve, (commits_of_execute hresult).has,
        flagsPut?_eq_none (hspares i hi)] at hf
      -- so the flag was set before the step
      have hbefore : m.flags.has f.flag = true := by
        rw [← flags_decoded_of_accepted haccepted]
        exact hf
      cases hm.symm.trans (Flags.hasFault_iff.2 ⟨f, hbefore⟩)
  · rintro ⟨f, ip, hf⟩
    have hflag := (latches_of_step h hf).flag
    rw [flagsAssigned?_eq_none (turns_of_step h).1 hspares] at hflag
    exact Flags.hasFault_iff.2 ⟨f, hflag⟩

/-! ### What a step does to the mode register -/

/-- What is assigned to `rS`, but for the result of arithmetic, is zero or one. -/
theorem bit_of_assigned {i : Instruction Word} {w : Word} (h : m.assigned? i = some (.rS, w))
    (hi : ∀ op src, i ≠ .arith op .rS src) : w = 0 ∨ w = 1 := by
  cases i with
  | move dst src =>
    obtain ⟨v, -, hv⟩ := Option.map_eq_some_iff.1 h
    cases hv
    have hbit : (v &&& 1).toNat = v.toNat % 2 := by
      rw [UInt32.toNat_and]
      exact Nat.and_one_is_mod _
    rw [if_pos rfl, ← UInt32.toNat_inj, ← UInt32.toNat_inj, hbit]
    exact Nat.mod_two_eq_zero_or_one _
  | arith op dst src =>
    obtain ⟨v, -, hv⟩ := Option.map_eq_some_iff.1 h
    cases hv
    exact absurd rfl (hi op src)
  | _ => cases h

theorem Commits.mode {left : Register → Word} {i : Instruction Word} {outcome : Outcome}
    (h : m.Commits left i outcome) (hi : ∀ op src, i ≠ .arith op .rS src)
    (hm : m.get .rS = 0 ∨ m.get .rS = 1) :
    outcome.machine.get .rS = 0 ∨ outcome.machine.get .rS = 1 := by
  have hflags (flags : Flags) : (m.withFlags flags).get .rS = m.get .rS :=
    m.get_set_of_ne _ (by decide)
  cases h with
  | nop => exact hm
  | syscall hg => rwa [hg.get (by decide)]
  | @assign i r w ha =>
    show (m.set r w).get .rS = 0 ∨ (m.set r w).get .rS = 1
    by_cases hr : r = .rS
    · subst hr
      rw [get_set_self]
      exact bit_of_assigned ha hi
    · rwa [m.get_set_of_ne w (Ne.symm hr)]
  | store hm' => exact hm
  | @cmp r right v hv =>
    show (m.withFlags _).get .rS = 0 ∨ (m.withFlags _).get .rS = 1
    rwa [hflags]
  | @branch b target =>
    show (m.branch b (m.value target)).get .rS = 0 ∨ (m.branch b (m.value target)).get .rS = 1
    unfold Machine.branch
    split
    · rwa [get_set_of_ne _ _ (by decide), hflags]
    · rwa [hflags]

theorem mode_of_step (h : m.step? c = some s) (hspares : m.SparesMode)
    (hm : m.get .rS = 0 ∨ m.get .rS = 1) : s.machine.get .rS = 0 ∨ s.machine.get .rS = 1 := by
  have hdecoded : m.decoded.get .rS = m.get .rS := m.get_advance_of_ne _ (by decide) (by decide)
  cases ends_of_step h with
  | fault hbefore hmachine hf hno =>
    rw [hmachine, get_raise_of_ne _ _ (by decide)]
    obtain rfl | rfl := hbefore
    · exact hm
    · rwa [hdecoded]
  | complete hi hresult hmachine hfaults =>
    rw [hmachine, Outcome.get_machine_serve_of_ne _ c (by decide)]
    refine (commits_of_execute hresult).mode ?_ (by rwa [hdecoded])
    rintro op src rfl
    exact hspares op src hi

end Machine

/-! ### Runs -/

namespace Session

variable {κ : Type} [Console κ] {s : Session κ} {n : Nat}

/-- A run that has come to its end has taken a last step. -/
theorem exists_last_step (hstart : s.machine.status = .running)
    (h : (s.run n).machine.status = .halted) :
    ∃ k < n, (s.run k).machine.status = .running ∧ s.run n = (s.run k).advance := by
  induction n with
  | zero => cases hstart.symm.trans h
  | succ n ih =>
    cases hn : (s.run n).machine.status with
    | running => exact ⟨n, Nat.lt_succ_self n, hn, s.run_succ n⟩
    | halted =>
      obtain ⟨k, hk, hrun, hlast⟩ := ih hn
      refine ⟨k, Nat.lt_succ_of_lt hk, hrun, ?_⟩
      rw [run_succ, advance_of_halted (Machine.step?_of_halted hn _), hlast]

/-- The flags after `n` steps say what they are meant to say. -/
structure Disciplined (s : Session κ) (n : Nat) : Prop where
  byte : (s.run n).machine.flags.word < 256
  outcomes : (s.run n).machine.flags.outcomes.length ≤ 1
  /-- Once there was a comparison, its outcome or that of a later one is set. -/
  compared : (∃ k < n, ∃ left right, (s.run k).machine.Completes (.cmp left right)) →
    (s.run n).machine.flags.outcomes.length = 1
  running : (s.run n).machine.status = .running → (s.run n).machine.flags.hasFault = false
  /-- If the machine has halted, its last step has left the flag of a fault, unless it was the
  request to exit. -/
  halted : (s.run n).machine.status = .halted → ∃ k < n, (s.run k).machine.status = .running ∧
    s.run n = (s.run k).advance ∧
    ((s.run n).machine.flags.hasFault = true ↔ ¬(s.run k).machine.Exits)

/-- A property of flags that is kept holds from one point of a run on. -/
theorem run_kept {P : Flags → Prop} (hP : Flags.Kept P) {k : Nat} (hk : k ≤ n)
    (hspares : ∀ j < n, (s.run j).machine.SparesFlags) (h : P (s.run k).machine.flags) :
    P (s.run n).machine.flags :=
  run_induction (P := fun m => P m.flags) hk h fun j hj _ hstep => hP.step hstep (hspares j hj)

/-- While a machine is running, no fault has left its flag. -/
theorem hasFault_of_running (hspares : ∀ j < n, (s.run j).machine.SparesFlags)
    (hstart : s.machine.flags.hasFault = false) (h : (s.run n).machine.status = .running) :
    (s.run n).machine.flags.hasFault = false := by
  revert h
  refine run_induction (P := fun m => m.status = .running → m.flags.hasFault = false)
    (Nat.zero_le n) (fun _ => hstart) ?_
  intro j hj step hstep hbefore hafter
  have hflags := hbefore (Machine.turns_of_step hstep).1
  rw [Machine.hasFault_of_step hstep (hspares j hj) hflags, Bool.eq_false_iff]
  intro hfaulted
  cases hafter.symm.trans ((Machine.halted_of_step_iff hstep).2 (Or.inl hfaulted))

theorem disciplined (hspares : ∀ j < n, (s.run j).machine.SparesFlags)
    (hflags : s.machine.flags.word = 0) (hstart : s.machine.status = .running) :
    s.Disciplined n := by
  have hzero : s.machine.flags = ⟨0⟩ := congrArg Flags.mk hflags
  have hnofault : s.machine.flags.hasFault = false := by
    rw [hzero]
    rfl
  have hfew : s.machine.flags.outcomes.length ≤ 1 := by
    rw [hzero]
    exact Nat.zero_le 1
  constructor
  · rw [UInt32.lt_iff_toNat_lt]
    refine run_kept Flags.kept_word_lt (Nat.zero_le n) hspares ?_
    show s.machine.flags.word.toNat < 256
    rw [hflags]
    decide
  · exact run_kept (Flags.kept_outcomes (Q := fun count => count ≤ 1) (Nat.le_refl 1))
      (Nat.zero_le n) hspares hfew
  · rintro ⟨k, hk, left, right, hi⟩
    refine run_kept (Flags.kept_outcomes (Q := fun count => count = 1) rfl) hk hspares ?_
    obtain ⟨step, hstep⟩ := Machine.exists_step_of_running hi.1 (s.run k).console
    rw [run_succ, advance_of_step hstep]
    exact Machine.outcomes_of_cmp hstep hi
  · exact hasFault_of_running hspares hnofault
  · intro h
    obtain ⟨k, hk, hrun, hlast⟩ := exists_last_step hstart h
    refine ⟨k, hk, hrun, hlast, ?_⟩
    obtain ⟨step, hstep⟩ := Machine.exists_step_of_running hrun (s.run k).console
    have hbefore := hasFault_of_running (n := k)
      (fun j hj => hspares j (Nat.lt_trans hj hk)) hnofault hrun
    have hmachine : (s.run n).machine = step.machine := by rw [hlast, advance_of_step hstep]
    rw [hmachine, Machine.hasFault_of_step hstep (hspares k hk) hbefore]
    rw [hmachine, Machine.halted_of_step_iff hstep] at h
    constructor
    · intro hfaulted hexits
      cases hfaulted.symm.trans (Machine.faulted_of_exits hstep hexits)
    · exact h.resolve_right

/-- As long as a program leaves the two status registers to the machine, they hold what they are
meant to hold, whatever the image and the console. This is a statement about each register by
itself: a word that is put into the one does not matter for the other. -/
theorem status_discipline (image : Image) (c : κ) (n : Nat) :
    ((∀ k < n, ((start (.ofImage image) c).run k).machine.SparesFlags) →
      (start (.ofImage image) c).Disciplined n) ∧
    ((∀ k < n, ((start (.ofImage image) c).run k).machine.SparesMode) →
      ((start (.ofImage image) c).run n).machine.get .rS = 0 ∨
        ((start (.ofImage image) c).run n).machine.get .rS = 1) := by
  have hget {r : Register} (hr : r ≠ .ip) : (Machine.ofImage image).get r = 0 := by
    rw [Machine.ofImage]
    exact (Registers.get_set_of_ne _ _ hr).trans (Registers.get_zero r)
  constructor
  · intro hspares
    exact disciplined hspares (hget (by decide)) rfl
  · intro hspares
    refine run_induction (P := fun m => m.get .rS = 0 ∨ m.get .rS = 1) (Nat.zero_le n)
      (Or.inl (hget (by decide))) ?_
    intro j hj step hstep hbefore
    exact Machine.mode_of_step hstep (hspares j hj) hbefore

/-- `mov rS, 3`, `cmp r1, -1`, `jla 20`, `mov r1, [0xFFFFFFFF]`. -/
def signedLoad : Image where
  entry := 0
  code := [0x01, 0x12, 0x0A, 3, 0, 0, 0, 0x05, 0x12, 0x00, 0xFF, 0xFF, 0xFF, 0xFF,
    0x09, 0x02, 20, 0, 0, 0, 0x01, 0x13, 0x00, 0xFF, 0xFF, 0xFF, 0xFF]
  data := []

/-- Zero is greater than minus one, and the branch leads to a load that faults. -/
theorem status_discipline_signedLoad :
    let s := start (.ofImage signedLoad) (Buffer.ofInput [])
    s.Disciplined 4 ∧ ((s.run 4).machine.get .rS = 0 ∨ (s.run 4).machine.get .rS = 1) ∧
      (s.run 4).machine.status = .halted ∧
      (s.run 4).machine.flags.names = ["GT".toList, "TEST".toList, "R_OOB".toList] ∧
      (s.run 4).machine.get .rS = 1 := by
  intro s
  have hcode : ∀ k < 4, ((s.run k).machine.memory.decode (s.run k).machine.ip).instruction?.map
      (fun i => (i.opcode, i.target?)) =
        [(.mov, some .rS), (.cmp, none), (.branch .larger, none), (.mov, some .r1)][k]? := by
    decide +kernel
  have hmem {k : Nat} (hk : k < 4) {i : Instruction Word} (hi : (s.run k).machine.Completes i) :
      (i.opcode, i.target?) ∈
        [(.mov, some .rS), (.cmp, none), (.branch .larger, none), (.mov, some .r1)] := by
    have hat := hcode k hk
    rw [hi.2.2.1] at hat
    exact List.mem_of_getElem? hat.symm
  obtain ⟨hflags, hmode⟩ := status_discipline signedLoad (Buffer.ofInput []) 4
  refine ⟨hflags ?_, hmode ?_, by decide +kernel, by decide +kernel, by decide +kernel⟩
  · intro k hk i hi htarget
    have hnamed := hmem hk hi
    rw [htarget] at hnamed
    simp at hnamed
  · intro k hk op src hi
    have hnamed := hmem hk hi
    simp [Instruction.opcode] at hnamed

end Session

end RegisterMachine
