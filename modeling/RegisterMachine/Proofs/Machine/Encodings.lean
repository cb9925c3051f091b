import RegisterMachine.Proofs.Assembly.Listing
import RegisterMachine.Proofs.Machine.Atomicity

/-!
# RegisterMachine.Proofs.Machine.Encodings

Which bytes are instructions. Where there is room for the longest one, the
machine finds an instruction exactly if the bytes begin with one that the
assembler can emit, with one exception: in the mode byte of a branch the half of
the destination is not looked at, although there is no destination and the
assembler writes zero there (`Machine.undecodable_iff`).

`Memory.Takes` says which bytes a decoder finds a value in, and `Memory.Finds`,
its converse, that it finds the value in no others. Both follow the fields of an
instruction.
-/

namespace RegisterMachine

/-! ### Bytes that are taken for an instruction -/

/-- How many bytes the longest instruction has, `mov [a], v`. -/
def Instruction.longest : Nat := 10

/-- Some line of a program is an instruction with these bytes, if its symbols have the right
places. -/
def Emitted (bs : List Byte) : Prop :=
  ∃ (s : Text) (i : Instruction Text) (layout : Layout) (i' : Instruction Word),
    Statement.ofText (some .main) s = .ok (.instruction i) ∧
      i.resolve layout.value = .ok i' ∧ bs = i'.encode

/-- The mode byte with the given halves. -/
def Mode.ofHalves (dst : Byte) (src : OperandKind) : Mode := ⟨dst * 16 + src.toNibble⟩

/-- The bytes of a branch with something in the half of its mode byte that is for a
destination. -/
inductive StrayBranch : List Byte → Prop
  | intro (c : Condition) (target : Direct Word) (dst : Byte) : 0 < dst → dst < 16 →
      StrayBranch ((Opcode.branch c).toByte ::
        (Mode.ofHalves dst target.toOperand.kind).byte :: target.toOperand.encode)

/-- Bytes that the machine takes for an instruction. -/
def Decodable (bs : List Byte) : Prop :=
  (∃ i : Instruction Word, bs = i.encode) ∨ StrayBranch bs

/-- The assembler can emit the bytes of every instruction, and no others. -/
theorem emitted_iff {bs : List Byte} : Emitted bs ↔ ∃ i : Instruction Word, bs = i.encode := by
  constructor
  · rintro ⟨-, -, -, i, -, -, rfl⟩
    exact ⟨i, rfl⟩
  · rintro ⟨i, rfl⟩
    obtain ⟨s, hs⟩ := i.exists_written
    obtain ⟨i', hstates, hresolve⟩ := hs.exists_states
    exact ⟨s, i', ⟨0, 0, [], [], false⟩, i, hstates, hresolve _, rfl⟩

namespace Mode

theorem src?_ofHalves (dst : Byte) (src : OperandKind) : (ofHalves dst src).src? = some src := by
  have hhalf : (ofHalves dst src).byte % 16 = src.toNibble := by
    apply UInt8.toNat_inj.1
    cases src <;> simp [ofHalves, OperandKind.toNibble]
  rw [src?, hhalf]
  cases src <;> decide

/-- Every mode byte with a source is put together from that source and its upper half. -/
theorem eq_ofHalves {m : Mode} {src : OperandKind} (h : m.src? = some src) :
    m = ofHalves (m.byte / 16) src := by
  have hsrc : src.toNibble = m.byte % 16 := toNibble_of_ofNibble? h
  obtain ⟨b⟩ := m
  rw [ofHalves, hsrc, Mode.mk.injEq]
  apply UInt8.toNat_inj.1
  have hb : b.toNat < 256 := b.toNat_lt
  simp only [UInt8.toNat_add, UInt8.toNat_mul, UInt8.toNat_div, UInt8.toNat_mod]
  simp
  omega

theorem upperHalf_lt (m : Mode) : m.byte / 16 < 16 := by
  have hb : m.byte.toNat < 256 := m.byte.toNat_lt
  rw [UInt8.lt_iff_toNat_lt, UInt8.toNat_div]
  simp
  omega

end Mode

namespace Memory

variable {m : Memory} {α β : Type}

/-! ### Values that are found only in their own bytes -/

theorem CodeAt.append {address : Nat} {bs cs : List Byte} (hb : m.CodeAt address bs)
    (hc : m.CodeAt (address + bs.length) cs) : m.CodeAt address (bs ++ cs) where
  inside := by
    have := hc.inside
    rw [List.length_append]
    omega
  bytes k hk := by
    rw [List.length_append] at hk
    by_cases hleft : k < bs.length
    · rw [hb.bytes k hleft, List.getElem?_append_left hleft]
    · have hright := hc.bytes (k - bs.length) (by omega)
      rw [show address + bs.length + (k - bs.length) = address + k by omega] at hright
      rw [hright, List.getElem?_append_right (by omega)]

/-- Where there is room for `room` bytes, the decoder finds a value only in bytes with which it is
in the relation `P`, and leaves the cursor behind them. -/
def Finds (m : Memory) (room : Nat) (d : Decoder α) (P : α → List Byte → Prop) : Prop :=
  ∀ (cursor next : Cursor) (a : α), cursor.ip.toNat + room ≤ m.codeSize.toNat →
    d.run cursor = (some a, next) →
    ∃ bs, P a bs ∧ bs.length ≤ room ∧ m.CodeAt cursor.ip.toNat bs ∧ next = cursor.skip bs.length

variable {P : α → List Byte → Prop} {R : β → List Byte → Prop} {d : Decoder α} {room more : Nat}

theorem Finds.widen (h : m.Finds room d P) (hroom : room ≤ more) : m.Finds more d P := by
  intro cursor next a hinside hrun
  obtain ⟨bs, hbs, hlen, hcode, hnext⟩ := h cursor next a (by omega) hrun
  exact ⟨bs, hbs, by omega, hcode, hnext⟩

theorem Finds.pure (a : α) (h : P a []) : m.Finds 0 (Pure.pure a) P := by
  intro cursor next b _ hrun
  cases hrun
  refine ⟨[], h, Nat.le_refl 0, ⟨?_, nofun⟩, by simp⟩
  simpa

theorem Finds.failure : m.Finds room (failure : Decoder α) P := by
  intro cursor next a _ hrun
  cases hrun

theorem Finds.bind {f : α → Decoder β} (hd : m.Finds room d P)
    (hf : ∀ a xs, P a xs → m.Finds more (f a) fun b ys => R b (xs ++ ys)) :
    m.Finds (room + more) (d >>= f) R := by
  intro cursor next b hinside hrun
  obtain ⟨a, middle, hfirst, hrest⟩ := exists_of_run_bind hrun
  obtain ⟨xs, hxs, hlen, hcode, rfl⟩ := hd cursor middle a (by omega) hfirst
  have hip : (cursor.skip xs.length).ip.toNat = cursor.ip.toNat + xs.length :=
    Cursor.toNat_ip_skip (Nat.lt_of_le_of_lt hcode.inside m.codeSize.toNat_lt)
  obtain ⟨ys, hys, hlen', hcode', rfl⟩ := hf a xs hxs _ next b (by omega) hrest
  rw [hip] at hcode'
  refine ⟨xs ++ ys, hys, ?_, hcode.append hcode', ?_⟩
  · rw [List.length_append]
    omega
  · rw [Cursor.skip_skip, List.length_append]

theorem Finds.map (f : α → β) (hd : m.Finds room d P) (h : ∀ a bs, P a bs → R (f a) bs) :
    m.Finds room (f <$> d) R := by
  rw [map_eq_pure_bind]
  show m.Finds (room + 0) _ R
  refine hd.bind ?_
  intro a xs hxs
  refine Finds.pure (f a) ?_
  rw [List.append_nil]
  exact h a xs hxs

/-! ### Fields -/

theorem codeAt_slice {address count : Nat} (h : address + count ≤ m.codeSize.toNat) :
    m.CodeAt address (m.slice address count) := by
  have hinside : m.Inside address count := Nat.le_trans h m.codeSize_le
  have hlen : (m.slice address count).length = count := length_slice hinside
  refine ⟨by omega, ?_⟩
  intro k hk
  rw [slice, Array.getElem?_toList, Array.getElem?_extract, if_pos]
  have hsize : address + count ≤ m.bytes.size := hinside
  omega

theorem finds_fetchByte (m : Memory) : m.Finds 1 m.fetchByte fun b bs => bs = [b] := by
  intro cursor next b hroom hrun
  have hlen : (m.slice cursor.ip.toNat 1).length = 1 :=
    length_slice (Nat.le_trans hroom m.codeSize_le)
  obtain ⟨c, hc⟩ := List.length_eq_one_iff.1 hlen
  have hcode := codeAt_slice hroom
  rw [hc] at hcode
  cases (takes_fetchByte m c cursor hcode).symm.trans hrun
  exact ⟨[b], rfl, Nat.le_refl 1, hcode, rfl⟩

theorem finds_fetchWord (m : Memory) : m.Finds 4 m.fetchWord fun w bs => bs = w.toBytes := by
  intro cursor next w hroom hrun
  have hlen : (m.slice cursor.ip.toNat 4).length = 4 :=
    length_slice (Nat.le_trans hroom m.codeSize_le)
  have hcode := codeAt_slice hroom
  rw [← Word.toBytes_ofBytes hlen] at hcode
  cases (takes_fetchWord m _ cursor hcode).symm.trans hrun
  exact ⟨_, rfl, Nat.le_of_eq (Word.length_toBytes _), hcode, rfl⟩

theorem finds_fetchMode (m : Memory) : m.Finds 1 m.fetchMode fun mode bs => bs = [mode.byte] :=
  (finds_fetchByte m).map Mode.mk fun _ _ h => h

theorem finds_fetchRegister (m : Memory) :
    m.Finds 1 m.fetchRegister fun r bs => bs = [r.toByte] := by
  show m.Finds (1 + 0) (m.fetchByte >>= _) _
  refine (finds_fetchByte m).bind ?_
  rintro b _ rfl
  cases hr : Register.ofByte? b with
  | none => exact Finds.failure
  | some r => exact Finds.pure r (by rw [Register.toByte_of_ofByte? hr]; rfl)

theorem finds_fetchOperand (m : Memory) (kind? : Option OperandKind) :
    m.Finds 4 (m.fetchOperand kind?) fun o bs => kind? = some o.kind ∧ bs = o.encode := by
  unfold fetchOperand
  split
  · exact ((finds_fetchRegister m).widen (by decide)).map _
      fun r bs h => ⟨rfl, h⟩
  · exact (finds_fetchWord m).map _ fun w bs h => ⟨rfl, h⟩
  · exact (finds_fetchWord m).map _ fun w bs h => ⟨rfl, h⟩
  · exact Finds.failure

theorem finds_fetchDirect (m : Memory) (kind? : Option OperandKind) :
    m.Finds 4 (m.fetchDirect kind?) fun d bs =>
      kind? = some d.toOperand.kind ∧ bs = d.toOperand.encode := by
  unfold fetchDirect
  split
  · exact ((finds_fetchRegister m).widen (by decide)).map _
      fun r bs h => ⟨rfl, h⟩
  · exact (finds_fetchWord m).map _ fun w bs h => ⟨rfl, h⟩
  · exact Finds.failure

/-! ### Instructions -/

theorem finds_fetchDestination (m : Memory) (kind? : Option OperandKind) :
    m.Finds 1 (m.fetchDestination kind?) fun r bs =>
      kind? = some .register ∧ bs = [r.toByte] := by
  unfold fetchDestination
  split
  · intro cursor next r hinside hrun
    obtain ⟨bs, hbs, hrest⟩ := finds_fetchRegister m cursor next r hinside hrun
    exact ⟨bs, ⟨rfl, hbs⟩, hrest⟩
  · exact Finds.failure

/-- What follows the first byte of an operation is found only if all of it is an instruction, or a
branch with something in the place of a destination. -/
theorem finds_fetchFields (m : Memory) (op : Opcode) :
    m.Finds 9 (m.fetchFields op) fun i bs =>
      op.toByte :: bs = i.encode ∨ StrayBranch (op.toByte :: bs) := by
  cases op with
  | nop => exact (Finds.pure _ (Or.inl rfl)).widen (Nat.zero_le 9)
  | syscall => exact (Finds.pure _ (Or.inl rfl)).widen (Nat.zero_le 9)
  | mov =>
    show m.Finds (1 + (4 + 4)) (m.fetchMode >>= _) _
    refine (finds_fetchMode m).bind ?_
    rintro mode _ rfl
    split
    · rename_i hdst
      refine ((finds_fetchRegister m).widen (by decide)).bind ?_
      rintro dst _ rfl
      refine (finds_fetchOperand m mode.src?).map _ ?_
      rintro src _ ⟨hsrc, rfl⟩
      rw [Mode.eq_ofKinds hdst hsrc]
      exact Or.inl (by simp [Instruction.encode, Instruction.opcode, Instruction.mode?,
        Instruction.operands, Operand.encode])
    · rename_i hdst
      refine (finds_fetchWord m).bind ?_
      rintro address _ rfl
      refine (finds_fetchDirect m mode.src?).map _ ?_
      rintro src _ ⟨hsrc, rfl⟩
      rw [Mode.eq_ofKinds hdst hsrc]
      exact Or.inl (by simp [Instruction.encode, Instruction.opcode, Instruction.mode?,
        Instruction.operands, Operand.encode])
    · exact Finds.failure
  | arith op =>
    show m.Finds (1 + (4 + 4)) (m.fetchMode >>= _) _
    refine (finds_fetchMode m).bind ?_
    rintro mode _ rfl
    refine ((finds_fetchDestination m mode.dst?).widen (by decide)).bind ?_
    rintro dst _ ⟨hdst, rfl⟩
    refine (finds_fetchOperand m mode.src?).map _ ?_
    rintro src _ ⟨hsrc, rfl⟩
    rw [Mode.eq_ofKinds hdst hsrc]
    exact Or.inl (by simp [Instruction.encode, Instruction.opcode, Instruction.mode?,
      Instruction.operands, Operand.encode])
  | cmp =>
    show m.Finds (1 + (4 + 4)) (m.fetchMode >>= _) _
    refine (finds_fetchMode m).bind ?_
    rintro mode _ rfl
    refine ((finds_fetchDestination m mode.dst?).widen (by decide)).bind ?_
    rintro left _ ⟨hleft, rfl⟩
    refine (finds_fetchOperand m mode.src?).map _ ?_
    rintro right _ ⟨hright, rfl⟩
    rw [Mode.eq_ofKinds hleft hright]
    exact Or.inl (by simp [Instruction.encode, Instruction.opcode, Instruction.mode?,
      Instruction.operands, Operand.encode])
  | branch c =>
    show m.Finds (1 + 8) (m.fetchMode >>= _) _
    refine (finds_fetchMode m).bind ?_
    rintro mode _ rfl
    refine ((finds_fetchDirect m mode.src?).widen (by decide)).map _ ?_
    rintro target _ ⟨htarget, rfl⟩
    rw [Mode.eq_ofHalves htarget]
    by_cases hdst : mode.byte / 16 = 0
    · left
      rw [hdst]
      simp [Instruction.encode, Instruction.opcode, Instruction.mode?, Instruction.operands,
        Mode.ofBranch, Mode.ofKinds, Mode.ofHalves, OperandKind.toNibble]
    · right
      exact .intro c target _ (UInt8.pos_iff_ne_zero.2 hdst) mode.upperHalf_lt

/-- A whole instruction, its first byte included. -/
theorem finds_instruction (m : Memory) :
    m.Finds Instruction.longest (m.fetchByte >>= m.fetchInstruction) fun _ bs => Decodable bs := by
  show m.Finds (1 + 9) _ _
  refine (finds_fetchByte m).bind ?_
  rintro b _ rfl
  unfold fetchInstruction
  cases hop : Opcode.ofByte? b with
  | none => exact Finds.failure
  | some op =>
    obtain rfl : op.toByte = b := Opcode.toByte_of_ofByte? hop
    intro cursor next i hinside hrun
    obtain ⟨bs, hbs, hrest⟩ := finds_fetchFields m op cursor next i hinside hrun
    exact ⟨bs, hbs.imp (fun h => ⟨i, h⟩) id, hrest⟩

theorem takes_fetchFields_strayBranch (m : Memory) (c : Condition) (target : Direct Word)
    (dst : Byte) :
    m.Takes (m.fetchFields (.branch c))
      ((Mode.ofHalves dst target.toOperand.kind).byte :: target.toOperand.encode)
      (.branch c target) := by
  refine (takes_fetchMode m (.ofHalves dst target.toOperand.kind)).bind ?_
  rw [Mode.src?_ofHalves]
  exact (takes_fetchDirect m target).bind_pure _

theorem codeAt_iff {address count : Nat} {bs : List Byte}
    (h : address + count ≤ m.codeSize.toNat) (hlen : bs.length ≤ count) :
    m.CodeAt address bs ↔ bs <+: m.slice address count := by
  have hslice : ∀ k < count, (m.slice address count)[k]? = m.bytes[address + k]? := by
    intro k hk
    have hlength : (m.slice address count).length = count :=
      length_slice (Nat.le_trans h m.codeSize_le)
    exact ((codeAt_slice h).bytes k (by omega)).symm
  rw [List.prefix_iff_getElem?]
  constructor
  · intro hcode k hk
    rw [hslice k (by omega), hcode.bytes k hk, List.getElem?_eq_getElem hk]
  · intro hprefix
    refine ⟨by omega, ?_⟩
    intro k hk
    rw [← hslice k (by omega), hprefix k hk, List.getElem?_eq_getElem hk]

theorem decode_isSome_iff {ip : Word} (h : ip.toNat + Instruction.longest ≤ m.codeSize.toNat) :
    (m.decode ip).instruction?.isSome ↔
      ∃ bs, Decodable bs ∧ bs <+: m.slice ip.toNat Instruction.longest := by
  constructor
  · intro hsome
    obtain ⟨i, hi⟩ := Option.isSome_iff_exists.1 hsome
    have hrun : (m.fetchByte >>= m.fetchInstruction).run ⟨ip, []⟩ =
        (some i, (m.decode ip).cursor) := by
      rw [← hi]
      rfl
    obtain ⟨bs, hbs, hlen, hcode, -⟩ := finds_instruction m ⟨ip, []⟩ _ i h hrun
    exact ⟨bs, hbs, (codeAt_iff h hlen).1 hcode⟩
  · rintro ⟨bs, hbs, hprefix⟩
    have hlen := hprefix.length_le
    rw [length_slice (Nat.le_trans h m.codeSize_le)] at hlen
    have hcode := (codeAt_iff h hlen).2 hprefix
    obtain ⟨i, rfl⟩ | ⟨c, target, dst, -, -⟩ := hbs
    · rw [decode_of_codeAt hcode]
      rfl
    · rw [decode_of_takes (takes_fetchFields_strayBranch m c target dst) hcode]
      rfl

end Memory

/-! ### Steps without an instruction -/

/-- A bad instruction was found in the step, and it was no request: no number of one was looked
at. -/
def Step.Undecodable {κ : Type} (s : Step κ) : Prop :=
  (∃ ip, Event.fault .badInstruction ip ∈ s.events) ∧
    ∀ id descriptor address count, Event.syscall id descriptor address count ∉ s.events

variable {κ : Type} [Console κ]

/-- The requests of a step are those that its turn has announced. -/
theorem Turn.syscall_mem_serve {turn : Turn} {c : κ} {id descriptor address count : Word} :
    Event.syscall id descriptor address count ∈ (turn.serve c).events ↔
      Event.syscall id descriptor address count ∈ turn.events := by
  have hserved : Event.syscall id descriptor address count ∉ (turn.outcome.serve c).events := by
    cases turn.outcome <;> simp [Outcome.serve]
  rw [events_serve]
  simp [hserved]

namespace Machine

variable {m : Machine} {c : κ} {s : Step κ}

/-- A step is without an instruction exactly if decoding finds none. -/
theorem undecodable_iff_decode (h : m.step? c = some s) (hip : m.ip < m.memory.codeSize) :
    s.Undecodable ↔ (m.memory.decode m.ip).instruction? = none := by
  have hrefusals {id descriptor address count : Word} :
      Event.syscall id descriptor address count ∉ m.refusals := by
    simp [refusals]
  obtain ⟨-, turn, hturn, rfl⟩ := turns_of_step h
  simp only [Step.Undecodable, Turn.fault_mem_serve, Turn.syscall_mem_serve]
  cases hturn with
  | outside hout => exact absurd hip hout
  | undecodable _ hi =>
    refine iff_of_true ⟨⟨_, List.mem_append_right _ (List.mem_singleton_self _)⟩, ?_⟩ hi
    intro id descriptor address count hmem
    obtain hmem | hmem := List.mem_append.1 hmem
    · exact hrefusals hmem
    · cases List.mem_singleton.1 hmem
  | @fetched i _ hi =>
    refine iff_of_false ?_ (by rw [hi]; exact Option.some_ne_none i)
    rintro ⟨⟨ip, hfault⟩, hsilent⟩
    obtain hfault | ⟨hresult, -⟩ := fault_mem_turnOf.1 hfault
    · cases eq_pointer_of_mem_refusals hfault
    · -- the only bad instruction that is decoded is a request, and it has been announced
      obtain ⟨-, hf | hf | ⟨-, rfl, -⟩⟩ := fault_of_execute hresult
      · cases hf
      · cases hf
      · have hannounced : m.decoded.requestEvent ∈ m.decoded.announcement .syscall :=
          List.mem_singleton_self _
        rw [hresult] at hsilent
        exact hsilent _ _ _ _ (List.mem_append_left _ (List.mem_append_right _ hannounced))

/-- Where there is room for the longest instruction, the machine finds no instruction exactly if
the bytes begin neither with one that the assembler can emit nor with a branch that has something
in the place of a destination. -/
theorem undecodable_iff (m : Machine) (c : κ) (hrun : m.status = .running)
    (hroom : m.ip.toNat + Instruction.longest ≤ m.memory.codeSize.toNat) :
    ∃ s, m.step? c = some s ∧
      (s.Undecodable ↔
        ¬∃ bs, (Emitted bs ∨ StrayBranch bs) ∧
          bs <+: m.memory.slice m.ip.toNat Instruction.longest) := by
  obtain ⟨s, hs⟩ := Option.isSome_iff_exists.1 (step?_isSome_of_running hrun c)
  have hip : m.ip < m.memory.codeSize := by
    rw [UInt32.lt_iff_toNat_lt]
    exact Nat.lt_of_lt_of_le (Nat.lt_add_of_pos_right (by decide)) hroom
  refine ⟨s, hs, ?_⟩
  rw [undecodable_iff_decode hs hip, ← Option.not_isSome_iff_eq_none,
    Memory.decode_isSome_iff hroom]
  simp only [emitted_iff, Decodable]

/-- A jump to a word in memory, which no branch may name. -/
def jumpToMemory : Image := ⟨0, [0x06, 0x03, 0, 0, 0, 0, 0, 0, 0, 0], []⟩

/-- The machine finds no instruction, so the assembler does not emit these bytes. -/
theorem undecodable_iff_jumpToMemory :
    (ofImage jumpToMemory).status = .running ∧
      (ofImage jumpToMemory).ip.toNat + Instruction.longest ≤
        (ofImage jumpToMemory).memory.codeSize.toNat ∧
      ¬∃ bs, Emitted bs ∧ bs <+: jumpToMemory.code := by
  have hroom : (ofImage jumpToMemory).ip.toNat + Instruction.longest ≤
      (ofImage jumpToMemory).memory.codeSize.toNat := by decide
  refine ⟨rfl, hroom, ?_⟩
  obtain ⟨s, hs, hiff⟩ := undecodable_iff (ofImage jumpToMemory) (Buffer.ofInput []) rfl hroom
  have hundecodable : s.Undecodable := by
    rw [undecodable_iff_decode hs (by decide)]
    decide
  rintro ⟨bs, hemitted, hprefix⟩
  exact hiff.1 hundecodable ⟨bs, Or.inl hemitted, hprefix⟩

/-- `jmp 0` with a mode byte that announces a destination register. -/
def strayJump : Image := ⟨0, [0x06, 0x12, 0, 0, 0, 0, 0, 0, 0, 0], []⟩

/-- The assembler emits nothing that begins like this, and yet the machine finds a jump. -/
theorem strayJump_decodable :
    (ofImage strayJump).status = .running ∧
      (ofImage strayJump).ip.toNat + Instruction.longest ≤
        (ofImage strayJump).memory.codeSize.toNat ∧
      (¬∃ bs, Emitted bs ∧ bs <+: strayJump.code) ∧
      ∃ s, (ofImage strayJump).step? (Buffer.ofInput []) = some s ∧ ¬s.Undecodable := by
  have hroom : (ofImage strayJump).ip.toNat + Instruction.longest ≤
      (ofImage strayJump).memory.codeSize.toNat := by decide
  refine ⟨rfl, hroom, ?_, ?_⟩
  · rintro ⟨bs, hemitted, hprefix⟩
    have hlen : bs.length ≤ Instruction.longest := hprefix.length_le
    have hcode := (Memory.codeAt_iff hroom hlen).2 hprefix
    obtain ⟨i, rfl⟩ := emitted_iff.1 hemitted
    -- one instruction is found there, and its bytes are others
    have hi : i = .branch .always (.immediate 0) := by
      have hdecode := congrArg Decoded.instruction? (Memory.decode_of_codeAt hcode)
      exact Option.some.inj (hdecode.symm.trans (by decide))
    subst hi
    exact absurd hprefix (by decide)
  · obtain ⟨s, hs⟩ := Option.isSome_iff_exists.1
      (step?_isSome_of_running (m := ofImage strayJump) rfl (Buffer.ofInput []))
    refine ⟨s, hs, ?_⟩
    rw [undecodable_iff_decode hs (by decide)]
    decide

end Machine

end RegisterMachine
