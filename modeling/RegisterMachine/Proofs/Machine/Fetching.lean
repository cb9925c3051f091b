import RegisterMachine.Proofs.Machine.Decoding

/-!
# RegisterMachine.Proofs.Machine.Fetching

Support lemmas for **decoding any bytes**, whether they were encoded or not.

Decoding is a sequence of fetches, so a property of cursors that every fetch
keeps is kept by the whole (`Memory.FetchesKeep.fetchInstruction`). The bounds of the
cursor are such a property: it never goes back and never leaves the code
(`Memory.cursor_decode`), however many fetches are refused on the way. What is
found is an instruction of the operation whose byte comes first
(`Memory.opcode_of_decode`).
-/

namespace RegisterMachine

namespace Memory

variable {m : Memory} {α β : Type} {P : Cursor → Prop}

/-- The decoder keeps a property of cursors, whether it finds something or not. -/
def Keeps (P : Cursor → Prop) (d : Decoder α) : Prop :=
  ∀ cursor, P cursor → P (d.run cursor).2

theorem run_bind_of_none {d : Decoder α} {f : α → Decoder β} {cursor next : Cursor}
    (h : d.run cursor = (none, next)) : (d >>= f).run cursor = (none, next) := by
  rw [OptionT.run_bind, Option.elimM]
  show (d.run cursor).1.elim (Pure.pure none) (fun x => (f x).run) (d.run cursor).2 = _
  rw [h]
  rfl

/-- A decoder that finds something has found all on the way to it. -/
theorem exists_of_run_bind {d : Decoder α} {f : α → Decoder β} {cursor last : Cursor} {b : β}
    (h : (d >>= f).run cursor = (some b, last)) :
    ∃ a next, d.run cursor = (some a, next) ∧ (f a).run next = (some b, last) := by
  cases hfirst : d.run cursor with
  | mk a? next =>
    cases a? with
    | none =>
      rw [run_bind_of_none hfirst] at h
      cases h
    | some a =>
      rw [run_bind_of_some hfirst] at h
      exact ⟨a, next, rfl, h⟩

/-! ### Decoders that keep a property -/

theorem Keeps.pure (a : α) : Keeps P (Pure.pure a : Decoder α) := fun _ h => h

theorem Keeps.failure : Keeps P (failure : Decoder α) := fun _ h => h

theorem Keeps.bind {d : Decoder α} {f : α → Decoder β} (hd : Keeps P d)
    (hf : ∀ a, Keeps P (f a)) : Keeps P (d >>= f) := by
  intro cursor h
  have hnext := hd cursor h
  cases ha : (d.run cursor).1 with
  | none =>
    rw [run_bind_of_none (Prod.ext ha rfl)]
    exact hnext
  | some a =>
    rw [run_bind_of_some (Prod.ext ha rfl)]
    exact hf a _ hnext

theorem Keeps.map {d : Decoder α} (f : α → β) (hd : Keeps P d) : Keeps P (f <$> d) := by
  rw [map_eq_pure_bind]
  exact hd.bind fun a => Keeps.pure (f a)

/-- A property of cursors that every fetch keeps. -/
def FetchesKeep (m : Memory) (P : Cursor → Prop) : Prop :=
  ∀ count cursor, P cursor → P (m.fetch count cursor).2

theorem FetchesKeep.fetchByte (h : m.FetchesKeep P) : Keeps P m.fetchByte := h 1

theorem FetchesKeep.fetchWord (h : m.FetchesKeep P) : Keeps P m.fetchWord := h 4

theorem FetchesKeep.fetchMode (h : m.FetchesKeep P) : Keeps P m.fetchMode :=
  h.fetchByte.map Mode.mk

theorem FetchesKeep.fetchRegister (h : m.FetchesKeep P) : Keeps P m.fetchRegister := by
  refine h.fetchByte.bind ?_
  intro b
  cases Register.ofByte? b with
  | none => exact Keeps.failure
  | some r => exact Keeps.pure r

theorem FetchesKeep.fetchOperand (h : m.FetchesKeep P) (kind : Option OperandKind) :
    Keeps P (m.fetchOperand kind) := by
  unfold Memory.fetchOperand
  split
  · exact h.fetchRegister.map _
  · exact h.fetchWord.map _
  · exact h.fetchWord.map _
  · exact Keeps.failure

theorem FetchesKeep.fetchDirect (h : m.FetchesKeep P) (kind : Option OperandKind) :
    Keeps P (m.fetchDirect kind) := by
  unfold Memory.fetchDirect
  split
  · exact h.fetchRegister.map _
  · exact h.fetchWord.map _
  · exact Keeps.failure

theorem FetchesKeep.fetchDestination (h : m.FetchesKeep P) (kind : Option OperandKind) :
    Keeps P (m.fetchDestination kind) := by
  unfold Memory.fetchDestination
  split
  · exact h.fetchRegister
  · exact Keeps.failure

theorem FetchesKeep.fetchFields (h : m.FetchesKeep P) (op : Opcode) :
    Keeps P (m.fetchFields op) := by
  cases op with
  | nop => exact Keeps.pure _
  | syscall => exact Keeps.pure _
  | mov =>
    refine h.fetchMode.bind fun mode => ?_
    split
    · refine h.fetchRegister.bind fun dst => ?_
      exact (h.fetchOperand mode.src?).bind fun src => Keeps.pure _
    · refine h.fetchWord.bind fun address => ?_
      exact (h.fetchDirect mode.src?).bind fun src => Keeps.pure _
    · exact Keeps.failure
  | arith op =>
    refine h.fetchMode.bind fun mode => ?_
    refine (h.fetchDestination mode.dst?).bind fun dst => ?_
    exact (h.fetchOperand mode.src?).bind fun src => Keeps.pure _
  | cmp =>
    refine h.fetchMode.bind fun mode => ?_
    refine (h.fetchDestination mode.dst?).bind fun left => ?_
    exact (h.fetchOperand mode.src?).bind fun right => Keeps.pure _
  | branch c =>
    refine h.fetchMode.bind fun mode => ?_
    exact (h.fetchDirect mode.src?).bind fun target => Keeps.pure _

theorem FetchesKeep.fetchInstruction (h : m.FetchesKeep P) (opcode : Byte) :
    Keeps P (m.fetchInstruction opcode) := by
  unfold Memory.fetchInstruction
  split
  · exact h.fetchFields _
  · exact Keeps.failure

/-! ### Where the cursor is -/

theorem fetch_of_inside {count : Nat} {cursor : Cursor}
    (h : cursor.ip.toNat + count ≤ m.codeSize.toNat) :
    m.fetch count cursor =
      (Word.fromLittleEndian (m.slice cursor.ip.toNat count), cursor.skip count) := by
  rw [fetch, if_pos h]
  rfl

theorem fetch_of_outside {count : Nat} {cursor : Cursor}
    (h : ¬cursor.ip.toNat + count ≤ m.codeSize.toNat) :
    m.fetch count cursor = (0, { cursor with refused := cursor.refused ++ [cursor.ip] }) := by
  rw [fetch, if_neg h]

/-- No fetch goes back, and none goes beyond the code. -/
theorem fetchesKeep_between (m : Memory) (start : Nat) :
    m.FetchesKeep fun cursor =>
      start ≤ cursor.ip.toNat ∧ cursor.ip.toNat ≤ m.codeSize.toNat := by
  intro count cursor h
  by_cases hin : cursor.ip.toNat + count ≤ m.codeSize.toNat
  · have hip : (cursor.skip count).ip.toNat = cursor.ip.toNat + count :=
      Cursor.toNat_ip_skip (Nat.lt_of_le_of_lt hin m.codeSize.toNat_lt)
    rw [fetch_of_inside hin]
    dsimp only
    omega
  · rw [fetch_of_outside hin]
    exact h

/-- What follows the first byte is decoded from behind it. -/
theorem run_fetchInstruction_decode {ip : Word} (h : ip < m.codeSize) :
    (m.fetchInstruction (m.decode ip).opcode).run (Cursor.skip ⟨ip, []⟩ 1) =
      ((m.decode ip).instruction?, (m.decode ip).cursor) := by
  have hin : (⟨ip, []⟩ : Cursor).ip.toNat + 1 ≤ m.codeSize.toNat := UInt32.lt_iff_toNat_lt.1 h
  unfold decode
  rw [fetch_of_inside hin]
  rfl

/-- After decoding, the cursor is behind the first byte and not beyond the code. -/
theorem cursor_decode {ip : Word} (h : ip < m.codeSize) :
    ip.toNat + 1 ≤ (m.decode ip).cursor.ip.toNat ∧
      (m.decode ip).cursor.ip.toNat ≤ m.codeSize.toNat := by
  have hin : ip.toNat + 1 ≤ m.codeSize.toNat := UInt32.lt_iff_toNat_lt.1 h
  have hip : (Cursor.skip ⟨ip, []⟩ 1).ip.toNat = ip.toNat + 1 :=
    Cursor.toNat_ip_skip (Nat.lt_of_le_of_lt hin m.codeSize.toNat_lt)
  have hfirst : m.fetch 1 ⟨ip, []⟩ = _ := fetch_of_inside hin
  unfold decode
  rw [hfirst]
  exact (m.fetchesKeep_between (ip.toNat + 1)).fetchInstruction _ _
    ⟨Nat.le_of_eq hip.symm, hip ▸ hin⟩

/-! ### The first byte of what is found -/

variable {R : β → Prop}

/-- Whatever the decoder finds has the property `R`. -/
def Yields (d : Decoder β) (R : β → Prop) : Prop :=
  ∀ (cursor next : Cursor) (b : β), d.run cursor = (some b, next) → R b

theorem Yields.pure {b : β} (h : R b) : Yields (Pure.pure b) R := by
  intro cursor next _ hrun
  cases hrun
  exact h

theorem Yields.failure : Yields failure R := by
  intro cursor next b hrun
  cases hrun

theorem Yields.bind (d : Decoder α) {f : α → Decoder β} (hf : ∀ a, Yields (f a) R) :
    Yields (d >>= f) R := by
  intro cursor last b hrun
  obtain ⟨a, next, -, hrest⟩ := exists_of_run_bind hrun
  exact hf a next last b hrest

/-- What follows the byte of an operation is an instruction of that operation. -/
theorem yields_fetchFields (m : Memory) (op : Opcode) :
    Yields (m.fetchFields op) fun i => i.opcode = op := by
  cases op with
  | nop => exact .pure rfl
  | syscall => exact .pure rfl
  | mov =>
    refine .bind m.fetchMode fun mode => ?_
    split
    · refine .bind m.fetchRegister fun dst => ?_
      exact .bind (m.fetchOperand mode.src?) fun src => .pure rfl
    · refine .bind m.fetchWord fun address => ?_
      exact .bind (m.fetchDirect mode.src?) fun src => .pure rfl
    · exact .failure
  | arith op =>
    refine .bind m.fetchMode fun mode => ?_
    refine .bind (m.fetchDestination mode.dst?) fun dst => ?_
    exact .bind (m.fetchOperand mode.src?) fun src => .pure rfl
  | cmp =>
    refine .bind m.fetchMode fun mode => ?_
    refine .bind (m.fetchDestination mode.dst?) fun left => ?_
    exact .bind (m.fetchOperand mode.src?) fun right => .pure rfl
  | branch c =>
    refine .bind m.fetchMode fun mode => ?_
    exact .bind (m.fetchDirect mode.src?) fun target => .pure rfl

theorem codeAt_singleton {address : Nat} {b : Byte} (h : address + 1 ≤ m.codeSize.toNat)
    (hb : m.bytes[address]? = some b) : m.CodeAt address [b] := by
  refine ⟨h, ?_⟩
  intro k hk
  obtain rfl : k = 0 := Nat.lt_one_iff.1 hk
  exact hb

theorem opcode_decode {ip : Word} (h : ip < m.codeSize) :
    m.bytes[ip.toNat]? = some (m.decode ip).opcode := by
  have hin : ip.toNat + 1 ≤ m.codeSize.toNat := UInt32.lt_iff_toNat_lt.1 h
  obtain ⟨b, hb⟩ : ∃ b, m.bytes[ip.toNat]? = some b :=
    ⟨_, Array.getElem?_eq_getElem (Nat.le_trans hin m.codeSize_le)⟩
  have hfetch : m.fetch 1 ⟨ip, []⟩ = (Word.fromLittleEndian [b], Cursor.skip ⟨ip, []⟩ 1) :=
    @fetch_of_codeAt m ⟨ip, []⟩ [b] (codeAt_singleton hin hb)
  unfold decode
  rw [hfetch, hb]
  show some b = some (UInt8.ofNat (Word.fromLittleEndian [b]))
  simp [Word.fromLittleEndian]

/-- The first byte of what is decoded is that of its operation. -/
theorem opcode_of_decode {ip : Word} {i : Instruction Word} (hip : ip < m.codeSize)
    (h : (m.decode ip).instruction? = some i) : (m.decode ip).opcode = i.opcode.toByte := by
  have hrun := run_fetchInstruction_decode hip
  rw [h, fetchInstruction] at hrun
  cases hop : Opcode.ofByte? (m.decode ip).opcode with
  | none =>
    rw [hop] at hrun
    cases hrun
  | some op =>
    rw [hop] at hrun
    rw [yields_fetchFields m op _ _ i hrun, Opcode.toByte_of_ofByte? hop]

/-! ### Nothing but the code is looked at -/

/-- The two memories have the same code. -/
structure SameCode (m n : Memory) : Prop where
  codeSize : m.codeSize = n.codeSize
  bytes : ∀ k < n.codeSize.toNat, m.bytes[k]? = n.bytes[k]?

variable {n : Memory}

theorem SameCode.slice (h : m.SameCode n) {address count : Nat}
    (hin : address + count ≤ n.codeSize.toNat) :
    m.slice address count = n.slice address count := by
  refine List.ext_getElem? ?_
  intro k
  simp only [Memory.slice, Array.getElem?_toList, Array.getElem?_extract]
  have hm : m.codeSize.toNat ≤ m.bytes.size := m.codeSize_le
  have hn : n.codeSize.toNat ≤ n.bytes.size := n.codeSize_le
  rw [h.codeSize] at hm
  rw [Nat.min_eq_left (by omega), Nat.min_eq_left (by omega)]
  by_cases hk : k < count
  · rw [if_pos (by omega), if_pos (by omega)]
    exact h.bytes _ (by omega)
  · rw [if_neg (by omega), if_neg (by omega)]

theorem SameCode.fetch (h : m.SameCode n) : m.fetch = n.fetch := by
  funext count cursor
  have hsize : m.codeSize.toNat = n.codeSize.toNat := congrArg UInt32.toNat h.codeSize
  by_cases hin : cursor.ip.toNat + count ≤ n.codeSize.toNat
  · rw [fetch_of_inside (hsize ▸ hin), fetch_of_inside hin, h.slice hin]
  · rw [fetch_of_outside (hsize ▸ hin), fetch_of_outside hin]

/-- A decoder is made of fetches, so it finds the same in both memories. -/
theorem SameCode.fetchInstruction (h : m.SameCode n) (opcode : Byte) :
    m.fetchInstruction opcode = n.fetchInstruction opcode := by
  unfold Memory.fetchInstruction
  cases Opcode.ofByte? opcode with
  | none => rfl
  | some op =>
    unfold Memory.fetchFields Memory.fetchOperand Memory.fetchDirect Memory.fetchDestination
      Memory.fetchRegister Memory.fetchMode Memory.fetchByte Memory.fetchWord
    rw [h.fetch]

theorem SameCode.decode (h : m.SameCode n) (ip : Word) : m.decode ip = n.decode ip := by
  unfold Memory.decode
  simp only [h.fetch, h.fetchInstruction]

end Memory

end RegisterMachine
