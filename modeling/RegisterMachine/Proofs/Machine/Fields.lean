import RegisterMachine.Proofs.Machine.Encodings

/-!
# RegisterMachine.Proofs.Machine.Fields

What is decoded, as a relation. The operands of an instruction are fetched one
after the other, each of them found at the cursor or missing because the code
ends there (`Memory.FetchesAll`); an operand that is missing is zero and takes no
bytes. With the operation and the mode byte in front of them this is all there
is to decoding (`Memory.decode_eq_iff`), for every instruction and wherever the
code ends.

`Memory.Takes` and `Memory.Finds` say the same of operands that are wholly in the
code, in terms of their bytes.
-/

namespace RegisterMachine

/-- The operand whose bytes are all zero: the first register, or a word that is zero. -/
inductive Operand.Blank : Operand Word → Prop
  | register : Blank (.register .r1)
  | immediate : Blank (.immediate 0)
  | memory : Blank (.memory 0)

/-- The kinds of the operands that an operation with this mode byte calls for. -/
def Mode.kinds (mode : Mode) (op : Opcode) : List (Option OperandKind) :=
  if op.isBare then [] else if op.isBranch then [mode.src?] else [mode.dst?, mode.src?]

/-- The mode byte calls for the operands that the instruction has. -/
def Mode.Announces (mode : Mode) (i : Instruction Word) : Prop :=
  mode.kinds i.opcode = i.operands.map fun o => some o.kind

instance (mode : Mode) (i : Instruction Word) : Decidable (mode.Announces i) :=
  inferInstanceAs (Decidable (_ = _))

/-- The cursor after a fetch that was refused. -/
def Cursor.refuse (cursor : Cursor) : Cursor :=
  { cursor with refused := cursor.refused ++ [cursor.ip] }

namespace Memory

/-- The operation and the mode byte of the instruction are at this address. -/
def Begins (m : Memory) (address : Nat) (i : Instruction Word) : Prop :=
  ∃ mode : Mode, m.CodeAt address [i.opcode.toByte, mode.byte] ∧ mode.Announces i

/-- The operand is fetched, and the cursor is then `next`. -/
inductive Fetches (m : Memory) (cursor : Cursor) (o : Operand Word) : Cursor → Prop
  /-- It is found at the cursor, which moves behind it. -/
  | found : m.CodeAt cursor.ip.toNat o.encode → Fetches m cursor o (cursor.skip o.size)
  /-- It is missing, and takes no bytes. -/
  | missing : m.codeSize.toNat < cursor.ip.toNat + o.size → o.Blank →
      Fetches m cursor o cursor.refuse

/-- The operands are fetched one after the other. -/
inductive FetchesAll (m : Memory) : Cursor → List (Operand Word) → Cursor → Prop
  | nil {cursor : Cursor} : FetchesAll m cursor [] cursor
  | cons {cursor middle next : Cursor} {o : Operand Word} {os : List (Operand Word)} :
      m.Fetches cursor o middle → FetchesAll m middle os next →
      FetchesAll m cursor (o :: os) next

end Memory

/-! ### Operations and their operands -/

section

variable {i : Instruction Word} {mode : Mode} {o o' : Operand Word}

theorem Opcode.toByte_injective {op op' : Opcode} (h : op.toByte = op'.toByte) : op = op' := by
  have hread := congrArg Opcode.ofByte? h
  rwa [Opcode.ofByte?_toByte, Opcode.ofByte?_toByte, Option.some.injEq] at hread

namespace Instruction

theorem operands_cases (i : Instruction Word) :
    i.operands = [] ∨ (∃ o, i.operands = [o]) ∨ ∃ o o', i.operands = [o, o'] := by
  cases i with
  | nop => exact Or.inl rfl
  | syscall => exact Or.inl rfl
  | branch c target => exact Or.inr (Or.inl ⟨_, rfl⟩)
  | move dst src => exact Or.inr (Or.inr ⟨_, _, rfl⟩)
  | store address src => exact Or.inr (Or.inr ⟨_, _, rfl⟩)
  | arith op dst src => exact Or.inr (Or.inr ⟨_, _, rfl⟩)
  | cmp left right => exact Or.inr (Or.inr ⟨_, _, rfl⟩)

theorem of_isBare (hop : i.opcode.isBare = true) :
    i.operands = [] ∧ i.encode = [i.opcode.toByte] := by
  cases i with
  | nop => exact ⟨rfl, rfl⟩
  | syscall => exact ⟨rfl, rfl⟩
  | _ => cases hop

end Instruction

theorem Mode.Announces.of_two (h : mode.Announces i) (hi : i.operands = [o, o']) :
    mode.dst? = some o.kind ∧ mode.src? = some o'.kind := by
  have hpair (hkinds : mode.kinds i.opcode = [mode.dst?, mode.src?]) :
      mode.dst? = some o.kind ∧ mode.src? = some o'.kind := by
    rw [Announces, hi, hkinds] at h
    obtain ⟨hdst, hsrc⟩ := List.cons_eq_cons.1 h
    exact ⟨hdst, List.singleton_inj.1 hsrc⟩
  cases i with
  | nop => cases hi
  | syscall => cases hi
  | branch c target => cases hi
  | move dst src => exact hpair rfl
  | store address src => exact hpair rfl
  | arith op dst src => exact hpair rfl
  | cmp left right => exact hpair rfl

end

namespace Memory

variable {m : Memory} {α β : Type} {cursor next last : Cursor}

/-! ### Fetching an operand -/

theorem run_bind_eq_some_iff {d : Decoder α} {f : α → Decoder β} {b : β} :
    (d >>= f).run cursor = (some b, last) ↔
      ∃ a next, d.run cursor = (some a, next) ∧ (f a).run next = (some b, last) := by
  constructor
  · exact exists_of_run_bind
  · rintro ⟨a, next, hfirst, hrest⟩
    rw [run_bind_of_some hfirst, hrest]

theorem run_pure_eq_some_iff {a b : α} :
    (Pure.pure a : Decoder α).run cursor = (some b, last) ↔ a = b ∧ cursor = last := by
  show (some a, cursor) = (some b, last) ↔ _
  rw [Prod.mk.injEq, Option.some.injEq]

theorem run_map_eq_some_iff {d : Decoder α} {f : α → β} {b : β} :
    (f <$> d).run cursor = (some b, last) ↔ ∃ a, d.run cursor = (some a, last) ∧ f a = b := by
  simp only [map_eq_pure_bind, run_bind_eq_some_iff, run_pure_eq_some_iff]
  constructor
  · rintro ⟨a, next, ha, hb, rfl⟩
    exact ⟨a, ha, hb⟩
  · rintro ⟨a, ha, hb⟩
    exact ⟨a, last, ha, hb, rfl⟩

theorem not_run_failure {b : β} : (failure : Decoder β).run cursor ≠ (some b, last) := by
  intro h
  cases h

/-- A word is fetched as an operand that is encoded by its bytes. -/
theorem run_fetchWord_iff {w : Word} {o : Operand Word} (ho : o.encode = w.toBytes)
    (hblank : o.Blank ↔ w = 0) :
    m.fetchWord.run cursor = (some w, next) ↔ m.Fetches cursor o next := by
  have hsize : o.size = 4 := by rw [← o.length_encode, ho, Word.length_toBytes]
  have houtside (hout : ¬cursor.ip.toNat + 4 ≤ m.codeSize.toNat) :
      m.fetchWord.run cursor = (some 0, cursor.refuse) := by
    show (some (UInt32.ofNat (m.fetch 4 cursor).1), (m.fetch 4 cursor).2) = _
    rw [fetch_of_outside hout]
    rfl
  constructor
  · intro hrun
    by_cases hin : cursor.ip.toNat + 4 ≤ m.codeSize.toNat
    · obtain ⟨_, rfl, -, hcode, rfl⟩ := finds_fetchWord m cursor next w hin hrun
      rw [Word.length_toBytes, ← hsize]
      exact .found (ho ▸ hcode)
    · cases (houtside hin).symm.trans hrun
      exact .missing (by omega) (hblank.2 rfl)
  · intro h
    cases h with
    | found hcode =>
      rw [hsize, ← Word.length_toBytes w]
      exact takes_fetchWord m w cursor (ho ▸ hcode)
    | missing hout ho =>
      rw [hblank.1 ho]
      exact houtside (by omega)

theorem run_fetchRegister_iff {r : Register} :
    m.fetchRegister.run cursor = (some r, next) ↔ m.Fetches cursor (.register r) next := by
  have houtside (hout : ¬cursor.ip.toNat + 1 ≤ m.codeSize.toNat) :
      m.fetchRegister.run cursor = (some .r1, cursor.refuse) := by
    have hbyte : m.fetchByte.run cursor = (some 0, cursor.refuse) := by
      show (some (UInt8.ofNat (m.fetch 1 cursor).1), (m.fetch 1 cursor).2) = _
      rw [fetch_of_outside hout]
      rfl
    unfold fetchRegister
    rw [run_bind_of_some hbyte]
    rfl
  constructor
  · intro hrun
    by_cases hin : cursor.ip.toNat + 1 ≤ m.codeSize.toNat
    · obtain ⟨_, rfl, -, hcode, rfl⟩ := finds_fetchRegister m cursor next r hin hrun
      exact .found hcode
    · cases (houtside hin).symm.trans hrun
      exact .missing (Nat.lt_of_not_le hin) .register
  · intro h
    cases h with
    | found hcode => exact takes_fetchRegister m r cursor hcode
    | missing hout ho =>
      cases ho
      exact houtside (Nat.not_le_of_lt hout)

theorem run_fetchImmediate_iff {v : Word} :
    m.fetchWord.run cursor = (some v, next) ↔ m.Fetches cursor (.immediate v) next := by
  refine run_fetchWord_iff rfl ⟨?_, ?_⟩
  · intro h
    cases h
    rfl
  · rintro rfl
    exact .immediate

theorem run_fetchAddress_iff {a : Word} :
    m.fetchWord.run cursor = (some a, next) ↔ m.Fetches cursor (.memory a) next := by
  refine run_fetchWord_iff rfl ⟨?_, ?_⟩
  · intro h
    cases h
    rfl
  · rintro rfl
    exact .memory

theorem run_fetchOperand_iff {kind? : Option OperandKind} {o : Operand Word} :
    (m.fetchOperand kind?).run cursor = (some o, next) ↔
      kind? = some o.kind ∧ m.Fetches cursor o next := by
  constructor
  · intro hrun
    unfold fetchOperand at hrun
    split at hrun
    · obtain ⟨r, hr, rfl⟩ := run_map_eq_some_iff.1 hrun
      exact ⟨rfl, run_fetchRegister_iff.1 hr⟩
    · obtain ⟨v, hv, rfl⟩ := run_map_eq_some_iff.1 hrun
      exact ⟨rfl, run_fetchImmediate_iff.1 hv⟩
    · obtain ⟨a, ha, rfl⟩ := run_map_eq_some_iff.1 hrun
      exact ⟨rfl, run_fetchAddress_iff.1 ha⟩
    · exact absurd hrun not_run_failure
  · rintro ⟨rfl, h⟩
    cases o with
    | register r => exact run_map_eq_some_iff.2 ⟨r, run_fetchRegister_iff.2 h, rfl⟩
    | immediate v => exact run_map_eq_some_iff.2 ⟨v, run_fetchImmediate_iff.2 h, rfl⟩
    | memory a => exact run_map_eq_some_iff.2 ⟨a, run_fetchAddress_iff.2 h, rfl⟩

theorem run_fetchDirect_iff {kind? : Option OperandKind} {d : Direct Word} :
    (m.fetchDirect kind?).run cursor = (some d, next) ↔
      kind? = some d.toOperand.kind ∧ m.Fetches cursor d.toOperand next := by
  constructor
  · intro hrun
    unfold fetchDirect at hrun
    split at hrun
    · obtain ⟨r, hr, rfl⟩ := run_map_eq_some_iff.1 hrun
      exact ⟨rfl, run_fetchRegister_iff.1 hr⟩
    · obtain ⟨v, hv, rfl⟩ := run_map_eq_some_iff.1 hrun
      exact ⟨rfl, run_fetchImmediate_iff.1 hv⟩
    · exact absurd hrun not_run_failure
  · rintro ⟨rfl, h⟩
    cases d with
    | register r => exact run_map_eq_some_iff.2 ⟨r, run_fetchRegister_iff.2 h, rfl⟩
    | immediate v => exact run_map_eq_some_iff.2 ⟨v, run_fetchImmediate_iff.2 h, rfl⟩

theorem run_fetchDestination_iff {kind? : Option OperandKind} {r : Register} :
    (m.fetchDestination kind?).run cursor = (some r, next) ↔
      kind? = some .register ∧ m.Fetches cursor (.register r) next := by
  constructor
  · intro hrun
    unfold fetchDestination at hrun
    split at hrun
    · exact ⟨rfl, run_fetchRegister_iff.1 hrun⟩
    · exact absurd hrun not_run_failure
  · rintro ⟨rfl, h⟩
    exact run_fetchRegister_iff.2 h

/-! ### Fetching the operands of an instruction -/

theorem fetchesAll_one_iff {o : Operand Word} :
    m.FetchesAll cursor [o] last ↔ m.Fetches cursor o last := by
  constructor
  · intro h
    cases h with
    | cons ho hrest =>
      cases hrest
      exact ho
  · exact fun ho => .cons ho .nil

theorem fetchesAll_two_iff {o o' : Operand Word} :
    m.FetchesAll cursor [o, o'] last ↔
      ∃ next, m.Fetches cursor o next ∧ m.Fetches next o' last := by
  constructor
  · intro h
    cases h with
    | cons ho hrest => exact ⟨_, ho, fetchesAll_one_iff.1 hrest⟩
  · rintro ⟨next, ho, ho'⟩
    exact .cons ho (fetchesAll_one_iff.2 ho')

/-- The instruction `i` is fetched behind its first byte, and the cursor is then `last`. -/
def FetchesFields (m : Memory) (cursor : Cursor) (i : Instruction Word) (last : Cursor) : Prop :=
  ∃ mode next, m.fetchMode.run cursor = (some mode, next) ∧ mode.Announces i ∧
    m.FetchesAll next i.operands last

/-- Two fields, and what is made of them. -/
theorem run_pair_iff {γ : Type} {first : Decoder α} {second : Decoder β} {f : α → β → γ} {c : γ} :
    (first >>= fun a => second >>= fun b => Pure.pure (f a b)).run cursor = (some c, last) ↔
      ∃ a b, f a b = c ∧
        ∃ next, first.run cursor = (some a, next) ∧ second.run next = (some b, last) := by
  simp only [run_bind_eq_some_iff, run_pure_eq_some_iff]
  constructor
  · rintro ⟨a, next, ha, b, final, hb, rfl, rfl⟩
    exact ⟨a, b, rfl, next, ha, hb⟩
  · rintro ⟨a, b, rfl, next, ha, hb⟩
    exact ⟨a, next, ha, b, last, hb, rfl, rfl⟩

theorem kinds_eq_pair {mode : Mode} {k l : OperandKind} (hdst : mode.dst? = some k)
    (hsrc : mode.src? = some l) : [mode.dst?, mode.src?] = [some k, some l] := by
  rw [hdst, hsrc]

/-- What is fetched for an operation is a mode byte, and operands of the kinds that it calls
for. -/
theorem fetchesFields_of_run {op : Opcode} {i : Instruction Word} (hop : op.isBare = false)
    (hrun : (m.fetchFields op).run cursor = (some i, last)) : m.FetchesFields cursor i last := by
  cases op with
  | nop => cases hop
  | syscall => cases hop
  | mov =>
    obtain ⟨mode, next, hmode, hrest⟩ := run_bind_eq_some_iff.1 hrun
    refine ⟨mode, next, hmode, ?_⟩
    split at hrest
    · rename_i hdst
      obtain ⟨dst, src, rfl, middle, hfirst, hsecond⟩ := run_pair_iff.1 hrest
      obtain ⟨hsrc, hsecond⟩ := run_fetchOperand_iff.1 hsecond
      exact ⟨kinds_eq_pair hdst hsrc,
        fetchesAll_two_iff.2 ⟨middle, run_fetchRegister_iff.1 hfirst, hsecond⟩⟩
    · rename_i hdst
      obtain ⟨address, src, rfl, middle, hfirst, hsecond⟩ := run_pair_iff.1 hrest
      obtain ⟨hsrc, hsecond⟩ := run_fetchDirect_iff.1 hsecond
      exact ⟨kinds_eq_pair hdst hsrc,
        fetchesAll_two_iff.2 ⟨middle, run_fetchAddress_iff.1 hfirst, hsecond⟩⟩
    · exact absurd hrest not_run_failure
  | arith op =>
    obtain ⟨mode, next, hmode, hrest⟩ := run_bind_eq_some_iff.1 hrun
    obtain ⟨dst, src, rfl, middle, hfirst, hsecond⟩ := run_pair_iff.1 hrest
    obtain ⟨hdst, hfirst⟩ := run_fetchDestination_iff.1 hfirst
    obtain ⟨hsrc, hsecond⟩ := run_fetchOperand_iff.1 hsecond
    exact ⟨mode, next, hmode, kinds_eq_pair hdst hsrc,
      fetchesAll_two_iff.2 ⟨middle, hfirst, hsecond⟩⟩
  | cmp =>
    obtain ⟨mode, next, hmode, hrest⟩ := run_bind_eq_some_iff.1 hrun
    obtain ⟨left, right, rfl, middle, hfirst, hsecond⟩ := run_pair_iff.1 hrest
    obtain ⟨hleft, hfirst⟩ := run_fetchDestination_iff.1 hfirst
    obtain ⟨hright, hsecond⟩ := run_fetchOperand_iff.1 hsecond
    exact ⟨mode, next, hmode, kinds_eq_pair hleft hright,
      fetchesAll_two_iff.2 ⟨middle, hfirst, hsecond⟩⟩
  | branch c =>
    obtain ⟨mode, next, hmode, hrest⟩ := run_bind_eq_some_iff.1 hrun
    obtain ⟨target, final, hfirst, hlast⟩ := run_bind_eq_some_iff.1 hrest
    obtain ⟨rfl, rfl⟩ := run_pure_eq_some_iff.1 hlast
    obtain ⟨hkind, hfirst⟩ := run_fetchDirect_iff.1 hfirst
    exact ⟨mode, next, hmode, congrArg (fun k => [k]) hkind, fetchesAll_one_iff.2 hfirst⟩

/-- Operands of the kinds that the mode byte calls for are fetched as an instruction. -/
theorem FetchesFields.run {i : Instruction Word} (h : m.FetchesFields cursor i last)
    (hop : i.opcode.isBare = false) : (m.fetchFields i.opcode).run cursor = (some i, last) := by
  obtain ⟨mode, next, hmode, hkinds, hoperands⟩ := h
  cases i with
  | nop => cases hop
  | syscall => cases hop
  | move dst src =>
    obtain ⟨middle, hfirst, hsecond⟩ := fetchesAll_two_iff.1 hoperands
    obtain ⟨hdst, hsrc⟩ := hkinds.of_two rfl
    refine run_bind_eq_some_iff.2 ⟨mode, next, hmode, ?_⟩
    rw [hdst, hsrc]
    exact run_pair_iff.2 ⟨dst, src, rfl, middle, run_fetchRegister_iff.2 hfirst,
      run_fetchOperand_iff.2 ⟨rfl, hsecond⟩⟩
  | store address src =>
    obtain ⟨middle, hfirst, hsecond⟩ := fetchesAll_two_iff.1 hoperands
    obtain ⟨hdst, hsrc⟩ := hkinds.of_two rfl
    refine run_bind_eq_some_iff.2 ⟨mode, next, hmode, ?_⟩
    rw [hdst, hsrc]
    exact run_pair_iff.2 ⟨address, src, rfl, middle, run_fetchAddress_iff.2 hfirst,
      run_fetchDirect_iff.2 ⟨rfl, hsecond⟩⟩
  | arith op dst src =>
    obtain ⟨middle, hfirst, hsecond⟩ := fetchesAll_two_iff.1 hoperands
    obtain ⟨hdst, hsrc⟩ := hkinds.of_two rfl
    refine run_bind_eq_some_iff.2 ⟨mode, next, hmode, ?_⟩
    rw [hdst, hsrc]
    exact run_pair_iff.2 ⟨dst, src, rfl, middle, run_fetchRegister_iff.2 hfirst,
      run_fetchOperand_iff.2 ⟨rfl, hsecond⟩⟩
  | cmp left right =>
    obtain ⟨middle, hfirst, hsecond⟩ := fetchesAll_two_iff.1 hoperands
    obtain ⟨hleft, hright⟩ := hkinds.of_two rfl
    refine run_bind_eq_some_iff.2 ⟨mode, next, hmode, ?_⟩
    rw [hleft, hright]
    exact run_pair_iff.2 ⟨left, right, rfl, middle, run_fetchRegister_iff.2 hfirst,
      run_fetchOperand_iff.2 ⟨rfl, hsecond⟩⟩
  | branch c target =>
    have hkind : mode.src? = some target.toOperand.kind := List.singleton_inj.1 hkinds
    refine run_bind_eq_some_iff.2 ⟨mode, next, hmode, ?_⟩
    rw [hkind]
    exact run_bind_eq_some_iff.2 ⟨target, last,
      run_fetchDirect_iff.2 ⟨rfl, fetchesAll_one_iff.1 hoperands⟩, rfl⟩

/-! ### Decoding -/

theorem toNat_ip_skip_of_le {ip : Word} {count : Nat} (m : Memory)
    (h : ip.toNat + count ≤ m.codeSize.toNat) :
    (Cursor.skip ⟨ip, []⟩ count).ip.toNat = ip.toNat + count :=
  Cursor.toNat_ip_skip (Nat.lt_of_le_of_lt h m.codeSize.toNat_lt)

variable {ip : Word} {i : Instruction Word}

theorem codeAt_pair_iff {address : Nat} {b c : Byte} :
    m.CodeAt address [b, c] ↔ m.CodeAt address [b] ∧ m.CodeAt (address + 1) [c] := by
  constructor
  · intro h
    have happend : m.CodeAt address ([b] ++ [c]) := h
    exact ⟨happend.left, happend.right⟩
  · rintro ⟨hb, hc⟩
    exact CodeAt.append hb hc

/-- The first byte of the code at `IP` is the one that is decoded. -/
theorem codeAt_opcode_iff {b : Byte} (h : ip < m.codeSize) :
    m.CodeAt ip.toNat [b] ↔ (m.decode ip).opcode = b := by
  have hbyte := opcode_decode h
  constructor
  · intro hcode
    have hb : m.bytes[ip.toNat + 0]? = some b := hcode.bytes 0 Nat.zero_lt_one
    exact Option.some.inj (hbyte.symm.trans hb)
  · rintro rfl
    exact codeAt_singleton (UInt32.lt_iff_toNat_lt.1 h) hbyte

/-- An instruction with a mode byte is decoded exactly if this is in the code and the operands are
fetched behind it. -/
theorem decode_eq_iff (h : ip.toNat + 2 ≤ m.codeSize.toNat) (hop : i.opcode.isBare = false) :
    ((m.decode ip).instruction? = some i ∧ (m.decode ip).cursor = last) ↔
      m.Begins ip.toNat i ∧ m.FetchesAll (Cursor.skip ⟨ip, []⟩ 2) i.operands last := by
  have hip : ip < m.codeSize := UInt32.lt_iff_toNat_lt.2 (by omega)
  have hnext : (Cursor.skip ⟨ip, []⟩ 1).ip.toNat = ip.toNat + 1 := m.toNat_ip_skip_of_le (by omega)
  have hskip : (Cursor.skip ⟨ip, []⟩ 1).skip 1 = Cursor.skip ⟨ip, []⟩ 2 := Cursor.skip_skip _ 1 1
  have hrun := run_fetchInstruction_decode hip
  simp only [Begins, codeAt_pair_iff, codeAt_opcode_iff hip]
  constructor
  · rintro ⟨hi, rfl⟩
    have hopcode : (m.decode ip).opcode = i.opcode.toByte := opcode_of_decode hip hi
    rw [hopcode, fetchInstruction, Opcode.ofByte?_toByte, hi] at hrun
    obtain ⟨mode, next, hmode, hkinds, hoperands⟩ := fetchesFields_of_run hop hrun
    obtain ⟨_, rfl, -, hcode, rfl⟩ := finds_fetchMode m _ next mode (by omega) hmode
    rw [hnext] at hcode
    rw [List.length_singleton, hskip] at hoperands
    exact ⟨⟨mode, ⟨hopcode, hcode⟩, hkinds⟩, hoperands⟩
  · rintro ⟨⟨mode, ⟨hopcode, hcode⟩, hkinds⟩, hoperands⟩
    have hmode : m.fetchMode.run (Cursor.skip ⟨ip, []⟩ 1) = (some mode, _) :=
      takes_fetchMode m mode _ (by rw [hnext]; exact hcode)
    rw [List.length_singleton, hskip] at hmode
    have hfields : m.FetchesFields (Cursor.skip ⟨ip, []⟩ 1) i last :=
      ⟨mode, _, hmode, hkinds, hoperands⟩
    rw [hopcode, fetchInstruction, Opcode.ofByte?_toByte] at hrun
    have hpair := hrun.symm.trans (hfields.run hop)
    exact ⟨congrArg Prod.fst hpair, congrArg Prod.snd hpair⟩

theorem exists_codeAt_mode {address : Nat} {b : Byte} (h : address + 2 ≤ m.codeSize.toNat)
    (hb : m.CodeAt address [b]) : ∃ mode : Mode, m.CodeAt address [b, mode.byte] := by
  obtain ⟨c, hc⟩ : ∃ c, m.bytes[address + 1]? = some c :=
    ⟨_, Array.getElem?_eq_getElem (Nat.le_trans h m.codeSize_le)⟩
  exact ⟨⟨c⟩, codeAt_pair_iff.2 ⟨hb, codeAt_singleton h hc⟩⟩

/-- What is decoded has its operation and a mode byte in the code, and its operands fetched behind
them. An operation without operands does not look at the mode byte. -/
theorem exists_fetchesAll_of_decode (h : ip.toNat + 2 ≤ m.codeSize.toNat)
    (hi : (m.decode ip).instruction? = some i) :
    m.Begins ip.toNat i ∧ ∃ last, m.FetchesAll (Cursor.skip ⟨ip, []⟩ 2) i.operands last ∧
      last.refused = (m.decode ip).cursor.refused := by
  cases hop : i.opcode.isBare with
  | true =>
    have hip : ip < m.codeSize := UInt32.lt_iff_toNat_lt.2 (by omega)
    have hcode := (codeAt_opcode_iff hip).2 (opcode_of_decode hip hi)
    obtain ⟨hoperands, hencode⟩ := Instruction.of_isBare hop
    obtain ⟨mode, hmode⟩ := exists_codeAt_mode h hcode
    rw [← hencode] at hcode
    have hkinds : mode.Announces i := by
      rw [Mode.Announces, hoperands, Mode.kinds, if_pos hop]
      rfl
    rw [hoperands, decode_of_codeAt hcode]
    exact ⟨⟨mode, hmode, hkinds⟩, _, .nil, rfl⟩
  | false =>
    obtain ⟨hbegins, hoperands⟩ := (decode_eq_iff h hop).1 ⟨hi, rfl⟩
    exact ⟨hbegins, _, hoperands, rfl⟩

theorem decode_of_fetchesAll (h : ip.toNat + 2 ≤ m.codeSize.toNat) (hbegins : m.Begins ip.toNat i)
    (hoperands : m.FetchesAll (Cursor.skip ⟨ip, []⟩ 2) i.operands last) :
    (m.decode ip).instruction? = some i := by
  cases hop : i.opcode.isBare with
  | true =>
    obtain ⟨mode, hcode, -⟩ := hbegins
    have hbyte := (codeAt_pair_iff.1 hcode).1
    rw [← (Instruction.of_isBare hop).2] at hbyte
    rw [decode_of_codeAt hbyte]
  | false => exact ((decode_eq_iff h hop).2 ⟨hbegins, hoperands⟩).1

end Memory

end RegisterMachine
