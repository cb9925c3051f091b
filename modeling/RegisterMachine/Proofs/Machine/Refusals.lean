import RegisterMachine.Proofs.Machine.Fetching

/-!
# RegisterMachine.Proofs.Machine.Refusals

Support lemmas for **fetches that are refused**. Decoding goes on behind a refused
fetch, which has read as zero, so it may be refused more than one.

It is never refused more than two (`Memory.length_refused_decode`), although an
instruction has up to three fields behind its first byte. The mode byte is the
first of them, and if it is refused it reads as zero, which is the mode of no
instruction with operands.

If none is refused, the cursor is behind the whole instruction
(`Memory.ip_decode_of_accepted`), however many bytes of the code are left.
-/

namespace RegisterMachine

namespace Memory

variable {m : Memory} {α β : Type}

/-! ### How many fetches are refused -/

/-- The decoder is refused at most `n` fetches, whatever it finds. -/
def RefusedAtMost (n : Nat) (d : Decoder α) : Prop :=
  ∀ cursor : Cursor, (d.run cursor).2.refused.length ≤ cursor.refused.length + n

namespace RefusedAtMost

variable {d : Decoder α} {n k : Nat}

theorem widen (h : RefusedAtMost n d) (hle : n ≤ k) : RefusedAtMost k d := by
  intro cursor
  have := h cursor
  omega

theorem pure (a : α) : RefusedAtMost 0 (Pure.pure a : Decoder α) := fun _ => Nat.le_refl _

theorem failure : RefusedAtMost n (failure : Decoder α) := fun _ => Nat.le_add_right _ _

theorem bind {f : α → Decoder β} (hd : RefusedAtMost n d) (hf : ∀ a, RefusedAtMost k (f a)) :
    RefusedAtMost (n + k) (d >>= f) := by
  intro cursor
  have hfirst := hd cursor
  cases hrun : d.run cursor with
  | mk a? next =>
    rw [hrun] at hfirst
    cases a? with
    | none =>
      rw [run_bind_of_none hrun]
      dsimp only at hfirst ⊢
      omega
    | some a =>
      have hrest := hf a next
      rw [run_bind_of_some hrun]
      dsimp only at hfirst
      omega

theorem map (f : α → β) (h : RefusedAtMost n d) : RefusedAtMost n (f <$> d) := by
  rw [map_eq_pure_bind]
  exact h.bind fun a => pure (f a)

end RefusedAtMost

theorem refusedAtMost_fetch (m : Memory) (count : Nat) (cursor : Cursor) :
    (m.fetch count cursor).2.refused.length ≤ cursor.refused.length + 1 := by
  by_cases hin : cursor.ip.toNat + count ≤ m.codeSize.toNat
  · rw [fetch_of_inside hin]
    exact Nat.le_succ _
  · rw [fetch_of_outside hin]
    exact Nat.le_of_eq List.length_append

theorem refusedAtMost_fetchByte (m : Memory) : RefusedAtMost 1 m.fetchByte :=
  m.refusedAtMost_fetch 1

theorem refusedAtMost_fetchWord (m : Memory) : RefusedAtMost 1 m.fetchWord :=
  m.refusedAtMost_fetch 4

theorem refusedAtMost_fetchRegister (m : Memory) : RefusedAtMost 1 m.fetchRegister := by
  refine m.refusedAtMost_fetchByte.bind (k := 0) fun b => ?_
  cases Register.ofByte? b with
  | none => exact .failure
  | some r => exact .pure r

theorem refusedAtMost_fetchOperand (m : Memory) (kind : Option OperandKind) :
    RefusedAtMost 1 (m.fetchOperand kind) := by
  unfold fetchOperand
  split
  · exact m.refusedAtMost_fetchRegister.map _
  · exact m.refusedAtMost_fetchWord.map _
  · exact m.refusedAtMost_fetchWord.map _
  · exact .failure

theorem refusedAtMost_fetchDirect (m : Memory) (kind : Option OperandKind) :
    RefusedAtMost 1 (m.fetchDirect kind) := by
  unfold fetchDirect
  split
  · exact m.refusedAtMost_fetchRegister.map _
  · exact m.refusedAtMost_fetchWord.map _
  · exact .failure

theorem refusedAtMost_fetchDestination (m : Memory) (kind : Option OperandKind) :
    RefusedAtMost 1 (m.fetchDestination kind) := by
  unfold fetchDestination
  split
  · exact m.refusedAtMost_fetchRegister
  · exact .failure

/-- A mode byte that is refused is zero, so what is done with a zero mode byte has one refusal
less to its name. -/
theorem RefusedAtMost.fetchMode_bind {f : Mode → Decoder α} {n : Nat}
    (hzero : RefusedAtMost n (f ⟨0⟩)) (hf : ∀ mode, RefusedAtMost (n + 1) (f mode)) :
    RefusedAtMost (n + 1) (m.fetchMode >>= f) := by
  intro cursor
  by_cases hin : cursor.ip.toNat + 1 ≤ m.codeSize.toNat
  · have hrun : m.fetchMode.run cursor =
        (some ⟨UInt8.ofNat (Word.fromLittleEndian (m.slice cursor.ip.toNat 1))⟩,
          cursor.skip 1) := by
      show (some (Mode.mk (UInt8.ofNat (m.fetch 1 cursor).1)), (m.fetch 1 cursor).2) = _
      rw [fetch_of_inside hin]
    rw [run_bind_of_some hrun]
    exact hf _ (cursor.skip 1)
  · have hrun : m.fetchMode.run cursor =
        (some ⟨0⟩, { cursor with refused := cursor.refused ++ [cursor.ip] }) := by
      show (some (Mode.mk (UInt8.ofNat (m.fetch 1 cursor).1)), (m.fetch 1 cursor).2) = _
      rw [fetch_of_outside hin]
      rfl
    have hrest := hzero { cursor with refused := cursor.refused ++ [cursor.ip] }
    rw [run_bind_of_some hrun]
    rw [List.length_append, List.length_singleton] at hrest
    omega

theorem refusedAtMost_fetchFields (m : Memory) (op : Opcode) :
    RefusedAtMost 2 (m.fetchFields op) := by
  cases op with
  | nop => exact (RefusedAtMost.pure _).widen (Nat.zero_le 2)
  | syscall => exact (RefusedAtMost.pure _).widen (Nat.zero_le 2)
  | mov =>
    refine .fetchMode_bind .failure fun mode => ?_
    split
    · refine m.refusedAtMost_fetchRegister.bind fun dst => ?_
      exact (m.refusedAtMost_fetchOperand mode.src?).bind fun src => .pure _
    · refine m.refusedAtMost_fetchWord.bind fun address => ?_
      exact (m.refusedAtMost_fetchDirect mode.src?).bind fun src => .pure _
    · exact .failure
  | arith op =>
    refine .fetchMode_bind ?_ fun mode => ?_
    · exact (RefusedAtMost.failure (n := 0)).bind (k := 1) fun dst =>
        (m.refusedAtMost_fetchOperand _).bind fun src => .pure _
    · refine (m.refusedAtMost_fetchDestination mode.dst?).bind fun dst => ?_
      exact (m.refusedAtMost_fetchOperand mode.src?).bind fun src => .pure _
  | cmp =>
    refine .fetchMode_bind ?_ fun mode => ?_
    · exact (RefusedAtMost.failure (n := 0)).bind (k := 1) fun left =>
        (m.refusedAtMost_fetchOperand _).bind fun right => .pure _
    · refine (m.refusedAtMost_fetchDestination mode.dst?).bind fun left => ?_
      exact (m.refusedAtMost_fetchOperand mode.src?).bind fun right => .pure _
  | branch c =>
    have htarget (mode : Mode) : RefusedAtMost 1
        (m.fetchDirect mode.src? >>= fun target => Pure.pure (Instruction.branch c target)) :=
      (m.refusedAtMost_fetchDirect mode.src?).bind fun target => .pure _
    exact .fetchMode_bind (htarget _) fun mode => (htarget mode).widen (Nat.le_succ 1)

/-- Of the fetches of an instruction whose first byte is in the code, at most two are refused. -/
theorem length_refused_decode {ip : Word} (h : ip < m.codeSize) :
    (m.decode ip).cursor.refused.length ≤ 2 := by
  have hrun := run_fetchInstruction_decode h
  have hfields : RefusedAtMost 2 (m.fetchInstruction (m.decode ip).opcode) := by
    unfold fetchInstruction
    split
    · exact m.refusedAtMost_fetchFields _
    · exact .failure
  have hle := hfields (Cursor.skip ⟨ip, []⟩ 1)
  rwa [hrun] at hle

/-! ### Where the cursor is if none is refused -/

/-- The decoder takes no refusal back, and if it is refused nothing, it leaves the cursor behind a
number of bytes with which the value that it finds is in the relation `P`. -/
structure Spans (d : Decoder α) (P : α → Nat → Prop) : Prop where
  grows : ∀ cursor : Cursor, cursor.refused.length ≤ (d.run cursor).2.refused.length
  found : ∀ (cursor next : Cursor) (a : α), d.run cursor = (some a, next) →
    next.refused.length = cursor.refused.length → ∃ n, P a n ∧ next = cursor.skip n

namespace Spans

variable {d : Decoder α} {P : α → Nat → Prop} {Q : β → Nat → Prop}

theorem pure {a : α} (h : P a 0) : Spans (Pure.pure a) P where
  grows _ := Nat.le_refl _
  found cursor next b hrun _ := by
    cases hrun
    exact ⟨0, h, cursor.skip_zero.symm⟩

theorem failure : Spans (failure : Decoder α) P where
  grows _ := Nat.le_refl _
  found _ _ _ hrun _ := by cases hrun

theorem bind {f : α → Decoder β} (hd : Spans d P)
    (hf : ∀ a, Spans (f a) fun b k => ∀ n, P a n → Q b (n + k)) : Spans (d >>= f) Q where
  grows cursor := by
    have hfirst := hd.grows cursor
    cases hrun : d.run cursor with
    | mk a? next =>
      rw [hrun] at hfirst
      cases a? with
      | none => rwa [run_bind_of_none hrun]
      | some a =>
        rw [run_bind_of_some hrun]
        exact Nat.le_trans hfirst ((hf a).grows next)
  found cursor last b hrun hnone := by
    obtain ⟨a, next, hfirst, hlast⟩ := exists_of_run_bind hrun
    -- neither part can have been refused anything
    have hgrows := hd.grows cursor
    have hgrows' := (hf a).grows next
    rw [hfirst] at hgrows
    rw [hlast] at hgrows'
    dsimp only at hgrows hgrows'
    obtain ⟨n, hn, rfl⟩ := hd.found cursor next a hfirst (by omega)
    obtain ⟨k, hk, rfl⟩ := (hf a).found _ last b hlast (by omega)
    exact ⟨n + k, hk n hn, cursor.skip_skip n k⟩

theorem map {f : α → β} (h : Spans d P) (hf : ∀ a n, P a n → Q (f a) n) : Spans (f <$> d) Q := by
  rw [map_eq_pure_bind]
  exact h.bind fun a => pure fun n hn => hf a n hn

end Spans

theorem spans_fetch (m : Memory) (count : Nat) (cursor : Cursor) :
    cursor.refused.length ≤ (m.fetch count cursor).2.refused.length ∧
      ((m.fetch count cursor).2.refused.length = cursor.refused.length →
        (m.fetch count cursor).2 = cursor.skip count) := by
  by_cases hin : cursor.ip.toNat + count ≤ m.codeSize.toNat
  · rw [fetch_of_inside hin]
    exact ⟨Nat.le_refl _, fun _ => rfl⟩
  · rw [fetch_of_outside hin]
    dsimp only
    rw [List.length_append, List.length_singleton]
    exact ⟨Nat.le_succ _, fun h => absurd h (Nat.succ_ne_self _)⟩

theorem spans_fetchByte (m : Memory) : Spans m.fetchByte fun _ n => n = 1 where
  grows cursor := (m.spans_fetch 1 cursor).1
  found cursor next b hrun hnone := by
    cases hrun
    exact ⟨1, rfl, (m.spans_fetch 1 cursor).2 hnone⟩

theorem spans_fetchWord (m : Memory) : Spans m.fetchWord fun _ n => n = 4 where
  grows cursor := (m.spans_fetch 4 cursor).1
  found cursor next w hrun hnone := by
    cases hrun
    exact ⟨4, rfl, (m.spans_fetch 4 cursor).2 hnone⟩

theorem spans_fetchMode (m : Memory) : Spans m.fetchMode fun _ n => n = 1 :=
  m.spans_fetchByte.map fun _ _ hn => hn

theorem spans_fetchRegister (m : Memory) : Spans m.fetchRegister fun _ n => n = 1 := by
  refine m.spans_fetchByte.bind fun b => ?_
  cases Register.ofByte? b with
  | none => exact .failure
  | some r => exact .pure fun n hn => hn

theorem spans_fetchOperand (m : Memory) (kind : Option OperandKind) :
    Spans (m.fetchOperand kind) fun o n => n = o.size := by
  unfold fetchOperand
  split
  · exact m.spans_fetchRegister.map fun _ _ hn => hn
  · exact m.spans_fetchWord.map fun _ _ hn => hn
  · exact m.spans_fetchWord.map fun _ _ hn => hn
  · exact .failure

theorem spans_fetchDirect (m : Memory) (kind : Option OperandKind) :
    Spans (m.fetchDirect kind) fun o n => n = o.toOperand.size := by
  unfold fetchDirect
  split
  · exact m.spans_fetchRegister.map fun _ _ hn => hn
  · exact m.spans_fetchWord.map fun _ _ hn => hn
  · exact .failure

theorem spans_fetchDestination (m : Memory) (kind : Option OperandKind) :
    Spans (m.fetchDestination kind) fun _ n => n = 1 := by
  unfold fetchDestination
  split
  · exact m.spans_fetchRegister
  · exact .failure

/-- The fields of an instruction are as long as its size says, without the first byte. -/
theorem spans_fetchFields (m : Memory) (op : Opcode) :
    Spans (m.fetchFields op) fun i n => i.size = 1 + n := by
  cases op with
  | nop => exact .pure rfl
  | syscall => exact .pure rfl
  | mov =>
    refine m.spans_fetchMode.bind fun mode => ?_
    split
    · refine m.spans_fetchRegister.bind fun dst => ?_
      refine (m.spans_fetchOperand mode.src?).bind fun src => .pure ?_
      intro k hk n hn l hl
      simp only [Instruction.size]
      omega
    · refine m.spans_fetchWord.bind fun address => ?_
      refine (m.spans_fetchDirect mode.src?).bind fun src => .pure ?_
      intro k hk n hn l hl
      simp only [Instruction.size]
      omega
    · exact .failure
  | arith op =>
    refine m.spans_fetchMode.bind fun mode => ?_
    refine (m.spans_fetchDestination mode.dst?).bind fun dst => ?_
    refine (m.spans_fetchOperand mode.src?).bind fun src => .pure ?_
    intro k hk n hn l hl
    simp only [Instruction.size]
    omega
  | cmp =>
    refine m.spans_fetchMode.bind fun mode => ?_
    refine (m.spans_fetchDestination mode.dst?).bind fun left => ?_
    refine (m.spans_fetchOperand mode.src?).bind fun right => .pure ?_
    intro k hk n hn l hl
    simp only [Instruction.size]
    omega
  | branch c =>
    refine m.spans_fetchMode.bind fun mode => ?_
    refine (m.spans_fetchDirect mode.src?).bind fun target => .pure ?_
    intro k hk n hn
    simp only [Instruction.size]
    omega

/-- An instruction of which no fetch is refused is followed by the next one, as far behind it as
its size says. -/
theorem ip_decode_of_accepted {ip : Word} {i : Instruction Word} (h : ip < m.codeSize)
    (hi : (m.decode ip).instruction? = some i) (hnone : (m.decode ip).cursor.refused = []) :
    (m.decode ip).cursor.ip = ip + UInt32.ofNat i.size := by
  have hrun := run_fetchInstruction_decode h
  rw [hi, fetchInstruction] at hrun
  cases hop : Opcode.ofByte? (m.decode ip).opcode with
  | none =>
    rw [hop] at hrun
    cases hrun
  | some op =>
    rw [hop] at hrun
    obtain ⟨n, hn, hcursor⟩ := (m.spans_fetchFields op).found _ _ i hrun (by rw [hnone]; rfl)
    rw [hcursor, Cursor.skip_skip, hn]
    rfl

end Memory

end RegisterMachine
