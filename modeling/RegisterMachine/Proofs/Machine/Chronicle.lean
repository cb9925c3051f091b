import RegisterMachine.Proofs.Machine.Atomicity
import RegisterMachine.Proofs.Machine.Isolation

/-!
# RegisterMachine.Proofs.Machine.Chronicle

The trace as a record of the run. A step hands over one record (`Session.recorded`),
unless it finds no code at `IP`, and then it is the last step. So the records that
a console in memory has kept after `n` steps are those of the machines before and
after each of them (`Session.traces_run`), and every record begins where the one
before it has ended.

The first byte of an instruction is looked up in the memory of its own step, so a
program that writes over its code is recorded as it was when it ran.
-/

namespace RegisterMachine

/-! ### The record of a step -/

/-- There is a record of every turn that has fetched something. -/
theorem Machine.Turns.record? {m : Machine} {turn : Turn} (h : m.Turns turn) (after : Machine) :
    turn.record? after =
      if m.ip < m.memory.codeSize ∧ after.tracing = true then some (m.recordOf after)
      else none := by
  cases h with
  | outside hip =>
    rw [if_neg fun hboth => hip hboth.1]
    rfl
  | undecodable hip hi =>
    simp only [Turn.record?, hip, true_and]
    rfl
  | @fetched i hip hi =>
    simp only [Turn.record?, hip, true_and]
    cases m.decoded.execute m.registers.leftValue i <;> rfl

namespace Session

section

variable {κ : Type} [Console κ] {s : Session κ} {n : Nat}

/-- The next step finds no code at `IP`. -/
def Strays (s : Session κ) : Prop := s.machine.memory.codeSize ≤ s.machine.ip

instance (s : Session κ) : Decidable s.Strays := inferInstanceAs (Decidable (_ ≤ _))

/-- The record that the next step hands over, if it does. -/
def recorded (s : Session κ) : List TraceRecord :=
  if s.machine.status = .running ∧ s.machine.ip < s.machine.memory.codeSize ∧
      s.machine.tracing = true then
    [s.machine.recordOf s.advance.machine]
  else []

theorem console_advance {turn : Turn} (h : s.machine.turn? = some turn) :
    s.advance.console =
      s.recorded.foldl Console.trace (turn.outcome.serve s.console).console := by
  have hstep := Machine.step?_of_turn? h s.console
  obtain ⟨hrun, hturn⟩ := Machine.turns_of_turn? h
  have htracing := s.tracing_advance
  have hmachine := (advance_of_turn h).1
  have hconsole : s.advance.console = (turn.serve s.console).console := by
    rw [advance_of_step hstep]
  rw [hconsole, Turn.console_serve, hturn.record?, ← hmachine, htracing]
  simp only [recorded, hrun, true_and]
  split <;> rfl

theorem recorded_of_halted (h : s.machine.turn? = none) : s.recorded = [] := by
  refine if_neg fun hboth => ?_
  obtain ⟨step, hstep⟩ := Machine.exists_step_of_running hboth.1 s.console
  cases hstep.symm.trans (Machine.step?_of_turn?_eq_none h s.console)

/-! ### Runs without a gap -/

theorem steps_advance (s : Session κ) :
    s.advance.steps = s.steps + if s.machine.status = .running then 1 else 0 := by
  cases hstatus : s.machine.status with
  | halted =>
    rw [advance_of_halted (Machine.step?_of_halted hstatus _)]
    rfl
  | running =>
    obtain ⟨step, hstep⟩ := Machine.exists_step_of_running hstatus s.console
    rw [advance_of_step hstep]
    rfl

theorem steps_run_le (s : Session κ) (n : Nat) : (s.run n).steps ≤ s.steps + n := by
  induction n with
  | zero => exact Nat.le_refl _
  | succ n ih =>
    rw [run_succ, steps_advance]
    split <;> omega

/-- If all steps were performed, the machine was running before each of them. -/
theorem running_of_performed (h : (s.run n).steps = s.steps + n) {k : Nat} (hk : k < n) :
    (s.run k).machine.status = .running := by
  cases hstatus : (s.run k).machine.status with
  | running => rfl
  | halted =>
    have hrun : s.run n = s.run k := by
      obtain ⟨rest, rfl⟩ := Nat.exists_eq_add_of_lt hk
      rw [Nat.add_assoc, run_add, run_of_step?_eq_none]
      rw [step?, Machine.step?_of_halted hstatus]
      rfl
    have hfew := s.steps_run_le k
    rw [← hrun, h] at hfew
    omega

theorem tracing_run (s : Session κ) (n : Nat) :
    (s.run n).machine.tracing = s.machine.tracing :=
  run_induction (P := fun m => m.tracing = s.machine.tracing) (Nat.zero_le n) rfl
    fun _ _ _ hstep hbefore => (Machine.tracing_of_step hstep).trans hbefore

theorem codeSize_run (s : Session κ) (n : Nat) :
    (s.run n).machine.memory.codeSize = s.machine.memory.codeSize :=
  run_induction (P := fun m => m.memory.codeSize = s.machine.memory.codeSize) (Nat.zero_le n) rfl
    fun _ _ _ hstep hbefore => (Machine.sameExtent_of_step hstep).codeSize.trans hbefore

/-- A step that finds no code leaves everything but the flags as it is, and is the last one. -/
theorem advance_of_strays (hrun : s.machine.status = .running) (h : s.Strays) :
    s.advance.machine = s.machine.raise .pointerOutOfBounds := by
  obtain ⟨step, hstep⟩ := Machine.exists_step_of_running hrun s.console
  rw [advance_of_step hstep, Machine.step_of_outside hstep (UInt32.not_lt.2 h)]

/-- Of some steps that were performed, only the last can have found no code. -/
theorem not_strays_of_performed (h : (s.run n).steps = s.steps + n) {k : Nat} (hk : k + 1 < n) :
    ¬(s.run k).Strays := by
  intro hstrays
  have hrun := running_of_performed h (Nat.lt_of_succ_lt hk)
  have hnext := running_of_performed h hk
  rw [run_succ, advance_of_strays hrun hstrays] at hnext
  cases hnext

theorem recorded_of_strays (h : s.Strays) : s.recorded = [] :=
  if_neg fun hboth => UInt32.not_lt.2 h hboth.2.1

/-- How many of `n` steps have found code, if only the last of them can have found none. -/
def coded (s : Session κ) (n : Nat) : Nat :=
  if 0 < n ∧ (s.run (n - 1)).Strays then n - 1 else n

theorem coded_le (s : Session κ) (n : Nat) : s.coded n ≤ n := by
  unfold coded
  split
  · exact Nat.sub_le n 1
  · exact Nat.le_refl n

theorem not_strays_of_lt_coded (h : (s.run n).steps = s.steps + n) {k : Nat}
    (hk : k < s.coded n) : ¬(s.run k).Strays := by
  intro hstrays
  have hlast : n = k + 1 := by
    refine Classical.byContradiction fun hne => ?_
    have hle := s.coded_le n
    exact not_strays_of_performed h (by omega) hstrays
  subst hlast
  rw [coded, if_pos ⟨Nat.succ_pos k, hstrays⟩] at hk
  exact Nat.lt_irrefl k hk

end

/-! ### The records of a run -/

section

variable {s : Session Buffer} {n : Nat}

theorem traces_advance (s : Session Buffer) :
    s.advance.console.traces.toList = s.console.traces.toList ++ s.recorded := by
  cases h : s.machine.turn? with
  | none =>
    rw [recorded_of_halted h, List.append_nil,
      advance_of_halted (Machine.step?_of_turn?_eq_none h s.console)]
  | some turn =>
    have hserved : (turn.outcome.serve s.console).console.traces = s.console.traces := by
      cases turn.outcome with
      | write descriptor bytes m =>
        show (Console.write s.console (.ofDescriptor descriptor) bytes).2.traces = _
        cases Stream.ofDescriptor descriptor <;> rfl
      | _ => rfl
    rw [console_advance h, ← hserved]
    unfold recorded
    split
    · exact Array.toList_push
    · exact (List.append_nil _).symm

/-- There is a record of every step of a machine that was running and found code. -/
theorem traces_of_code (htracing : s.machine.tracing = true)
    (hrun : ∀ k < n, (s.run k).machine.status = .running) (hcode : ∀ k < n, ¬(s.run k).Strays) :
    (s.run n).console.traces.toList = s.console.traces.toList ++
      (List.range n).map fun k => (s.run k).machine.recordOf (s.run (k + 1)).machine := by
  induction n with
  | zero => exact (List.append_nil _).symm
  | succ n ih =>
    have hbefore := ih (fun k hk => hrun k (Nat.lt_succ_of_lt hk))
      fun k hk => hcode k (Nat.lt_succ_of_lt hk)
    have hlast : (s.run n).recorded = [(s.run n).machine.recordOf (s.run (n + 1)).machine] := by
      rw [recorded, if_pos ⟨hrun n (Nat.lt_succ_self n),
        UInt32.not_le.1 (hcode n (Nat.lt_succ_self n)), (s.tracing_run n).trans htracing⟩, run_succ]
    rw [run_succ, traces_advance, hbefore, hlast, List.range_succ, List.map_append,
      List.append_assoc]
    rfl

theorem traces_of_performed (h : (s.run n).steps = s.steps + n)
    (htracing : s.machine.tracing = true) :
    (s.run n).console.traces.toList = s.console.traces.toList ++
      (List.range (s.coded n)).map fun k =>
        (s.run k).machine.recordOf (s.run (k + 1)).machine := by
  have hrecords := s.traces_of_code htracing
    (fun k hk => running_of_performed h (Nat.lt_of_lt_of_le hk (s.coded_le n)))
    fun k hk => not_strays_of_lt_coded h hk
  rw [← hrecords]
  unfold coded
  split
  · rename_i hend
    obtain ⟨hpos, hstrays⟩ := hend
    obtain ⟨k, rfl⟩ := Nat.exists_eq_succ_of_ne_zero (Nat.pos_iff_ne_zero.1 hpos)
    rw [Nat.succ_sub_one] at hstrays ⊢
    rw [run_succ, traces_advance, recorded_of_strays hstrays, List.append_nil]
  · rfl

/-- The records of `n` steps of an image are faithful, and none is missing. -/
structure Chronicles (image : Image) (s : Session Buffer) (n : Nat) : Prop where
  /-- Only the last step can have found no code. -/
  inside : ∀ k, k + 1 < n → ¬(s.run k).Strays
  /-- There is one record per step, but none of a step that has found no code. -/
  size : (s.run n).console.traces.size = s.coded n
  /-- The first instruction is at the entry. -/
  entry : ∀ r, (s.run n).console.traces[0]? = some r → r.ipBefore = image.entry
  /-- Every other one is where the one before it has left off. -/
  linked : ∀ k r next, (s.run n).console.traces[k]? = some r →
    (s.run n).console.traces[k + 1]? = some next → next.ipBefore = r.ipAfter
  /-- An instruction is in the code, and its first byte is what was there when its step began. -/
  fetched : ∀ k r, (s.run n).console.traces[k]? = some r →
    r.ipBefore < UInt32.ofNat image.code.length ∧
      (s.run k).machine.memory.bytes[r.ipBefore.toNat]? = some r.opcode
  /-- The last record shows the registers as they are in the end. Only the flag that a last step
  without code has left is not in it. -/
  last : ∀ r, (s.run n).console.traces.back? = some r →
    r.general.toList = TraceRecord.generalRegisters.map (s.run n).machine.get ∧
      r.ipAfter = (s.run n).machine.ip ∧
      r.signed = ((s.run n).machine.get .rS &&& 1 != 0) ∧
      (s.run n).machine.flags =
        if s.coded n < n then r.flags.insert (.ofFlag .pointer) else r.flags

theorem record_of_getElem? (h : (s.run n).steps = s.steps + n)
    (htracing : s.machine.tracing = true) (hempty : s.console.traces = #[]) {k : Nat}
    {r : TraceRecord} (hk : (s.run n).console.traces[k]? = some r) :
    k < s.coded n ∧ r = (s.run k).machine.recordOf (s.run (k + 1)).machine := by
  have htraces := traces_of_performed h htracing
  rw [hempty, List.nil_append] at htraces
  rw [← Array.getElem?_toList, htraces, List.getElem?_map, Option.map_eq_some_iff] at hk
  obtain ⟨j, hj, rfl⟩ := hk
  obtain ⟨hlt, rfl⟩ := List.getElem?_eq_some_iff.1 hj
  rw [List.length_range] at hlt
  rw [List.getElem_range]
  exact ⟨hlt, rfl⟩

/-- The machine in the end is that behind the last record, but for a last step without code. -/
theorem machine_of_performed (h : (s.run n).steps = s.steps + n) :
    (s.run n).machine =
      if s.coded n < n then (s.run (s.coded n)).machine.raise .pointerOutOfBounds
      else (s.run (s.coded n)).machine := by
  by_cases hend : 0 < n ∧ (s.run (n - 1)).Strays
  · obtain ⟨hpos, hstrays⟩ := hend
    obtain ⟨k, rfl⟩ := Nat.exists_eq_succ_of_ne_zero (Nat.pos_iff_ne_zero.1 hpos)
    have hcoded : s.coded (k + 1) = k := if_pos ⟨hpos, hstrays⟩
    rw [hcoded, if_pos (Nat.lt_succ_self k), run_succ]
    exact advance_of_strays (running_of_performed h (Nat.lt_succ_self k)) hstrays
  · have hcoded : s.coded n = n := if_neg hend
    rw [hcoded, if_neg (Nat.lt_irrefl n)]

theorem last_of_performed (h : (s.run n).steps = s.steps + n) (htracing : s.machine.tracing = true)
    (hempty : s.console.traces = #[]) {r : TraceRecord}
    (hr : (s.run n).console.traces.back? = some r) :
    r.general.toList = TraceRecord.generalRegisters.map (s.run n).machine.get ∧
      r.ipAfter = (s.run n).machine.ip ∧
      r.signed = ((s.run n).machine.get .rS &&& 1 != 0) ∧
      (s.run n).machine.flags =
        if s.coded n < n then r.flags.insert (.ofFlag .pointer) else r.flags := by
  have hsize := congrArg List.length (traces_of_performed h htracing)
  rw [hempty, List.nil_append, List.length_map, List.length_range, Array.length_toList] at hsize
  rw [Array.back?_eq_getElem?, hsize] at hr
  obtain ⟨hlt, rfl⟩ := record_of_getElem? h htracing hempty hr
  -- the last record is that of the machine before a last step without code
  have hnext : s.coded n - 1 + 1 = s.coded n := Nat.sub_add_cancel (Nat.zero_lt_of_lt hlt)
  rw [hnext, machine_of_performed h]
  split
  · have hget {r : Register} (hne : r ≠ .rF) :
        ((s.run (s.coded n)).machine.raise .pointerOutOfBounds).get r =
          (s.run (s.coded n)).machine.get r := Machine.get_raise_of_ne _ _ hne
    have hgeneral : TraceRecord.generalRegisters.map (s.run (s.coded n)).machine.get =
        TraceRecord.generalRegisters.map
          ((s.run (s.coded n)).machine.raise .pointerOutOfBounds).get := by
      refine List.map_congr_left fun r hmem => (hget ?_).symm
      rintro rfl
      revert hmem
      decide
    refine ⟨?_, (hget (by decide)).symm, ?_, Machine.flags_raise _ _⟩
    · rw [← hgeneral]
      rfl
    · rw [hget (by decide)]
      rfl
  · exact ⟨rfl, rfl, rfl, rfl⟩

/-- The trace is a faithful record of the run, without a gap. If `n` steps of an image were
performed, whatever the input, the console has got one record of each of them, unless the last one
has found no code at `IP`. Each instruction begins at the address where the one before it has left
off, with the byte that the memory held there, and the last record shows the registers as they are
in the end. -/
theorem trace_chronicles (image : Image) (input : List Byte) (n : Nat)
    (h : ((start (.ofImage image) (Buffer.ofInput input)).run n).steps = n) :
    (start (.ofImage image) (Buffer.ofInput input)).Chronicles image n := by
  generalize hs : start (.ofImage image) (Buffer.ofInput input) = s at h ⊢
  have htracing : s.machine.tracing = true := hs ▸ rfl
  have hempty : s.console.traces = #[] := hs ▸ rfl
  have hsteps : s.steps = 0 := hs ▸ rfl
  have hentry : s.machine.ip = image.entry := by
    rw [← hs]
    exact Registers.get_set_self _ _ _
  have hsize (k : Nat) :
      (s.run k).machine.memory.codeSize = UInt32.ofNat image.code.length := by
    rw [codeSize_run, ← hs]
    rfl
  have hperformed : (s.run n).steps = s.steps + n := by rw [h, hsteps, Nat.zero_add]
  have hrecord {k : Nat} {r : TraceRecord} (hr : (s.run n).console.traces[k]? = some r) :=
    record_of_getElem? hperformed htracing hempty hr
  constructor
  · intro k hk
    exact not_strays_of_performed hperformed hk
  · have hlength := congrArg List.length (traces_of_performed hperformed htracing)
    rwa [hempty, List.nil_append, List.length_map, List.length_range, Array.length_toList]
      at hlength
  · intro r hr
    obtain ⟨-, rfl⟩ := hrecord hr
    exact hentry
  · intro k r next hr hnext
    obtain ⟨-, rfl⟩ := hrecord hr
    obtain ⟨-, rfl⟩ := hrecord hnext
    rfl
  · intro k r hr
    obtain ⟨hlt, rfl⟩ := hrecord hr
    have hip := UInt32.not_le.1 (not_strays_of_lt_coded hperformed hlt)
    exact ⟨hsize k ▸ hip, Memory.opcode_decode hip⟩
  · intro r hr
    exact last_of_performed hperformed htracing hempty hr

end

/-- A store of zero over the four requests that follow it, which are then none. -/
def erasedRequests : Image where
  entry := 0
  code := [0x01, 0x32, 10, 0, 0, 0, 0, 0, 0, 0, 0x0B, 0x0B, 0x0B, 0x0B]
  data := []

/-- The record shows the bytes that were stored, and nothing of the step behind the code. -/
theorem trace_chronicles_erasedRequests :
    let s := start (.ofImage erasedRequests) (Buffer.ofInput [])
    s.Chronicles erasedRequests 6 ∧
      (s.run 6).console.traces.toList.map (fun r => (r.ipBefore, r.opcode)) =
        [(0, 1), (10, 0), (11, 0), (12, 0), (13, 0)] ∧
      (s.run 6).machine.flags.names = ["IP_OOB".toList] := by
  intro s
  exact ⟨trace_chronicles erasedRequests [] 6 (by decide +kernel), by decide +kernel,
    by decide +kernel⟩

end Session

end RegisterMachine
