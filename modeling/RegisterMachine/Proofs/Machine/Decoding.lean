import RegisterMachine.Machine.Decoder

/-!
# RegisterMachine.Proofs.Machine.Decoding

Support lemmas for **decoding what has been encoded**.

A decoder `Memory.Takes` some bytes for a value if, wherever these bytes stand in
the code, it gives the value and leaves the cursor right behind them, with no
fetch refused. What two decoders take, they take one after the other
(`Takes.bind`), so the proof for an instruction follows its fields; the index
arithmetic is all in `CodeAt` and `Takes.fetch`.
-/

namespace RegisterMachine

namespace Cursor

/-- The cursor with some more bytes behind it. -/
def skip (cursor : Cursor) (count : Nat) : Cursor :=
  { cursor with ip := cursor.ip + UInt32.ofNat count }

@[simp] theorem ip_skip (cursor : Cursor) (count : Nat) :
    (cursor.skip count).ip = cursor.ip + UInt32.ofNat count := rfl

@[simp] theorem skip_zero (cursor : Cursor) : cursor.skip 0 = cursor := by
  obtain ⟨ip, refused⟩ := cursor
  simp [skip]

theorem skip_skip (cursor : Cursor) (m n : Nat) :
    (cursor.skip m).skip n = cursor.skip (m + n) := by
  simp only [skip, UInt32.ofNat_add, UInt32.add_assoc]

theorem toNat_ip_skip {cursor : Cursor} {count : Nat}
    (h : cursor.ip.toNat + count < 4294967296) :
    (cursor.skip count).ip.toNat = cursor.ip.toNat + count := by
  have hcount : (UInt32.ofNat count).toNat = count :=
    UInt32.toNat_ofNat_of_lt' (Nat.lt_of_le_of_lt (Nat.le_add_left _ _) h)
  rw [ip_skip, UInt32.toNat_add, hcount]
  omega

end Cursor

namespace Memory

variable {m : Memory} {α β : Type}

/-- These bytes stand in the code from `address` on. -/
structure CodeAt (m : Memory) (address : Nat) (bs : List Byte) : Prop where
  inside : address + bs.length ≤ m.codeSize.toNat
  bytes : ∀ k < bs.length, m.bytes[address + k]? = bs[k]?

theorem CodeAt.left {address : Nat} {bs cs : List Byte} (h : m.CodeAt address (bs ++ cs)) :
    m.CodeAt address bs where
  inside := by
    have := h.inside
    rw [List.length_append] at this
    omega
  bytes k hk := by
    rw [h.bytes k (by rw [List.length_append]; omega), List.getElem?_append_left hk]

theorem CodeAt.right {address : Nat} {bs cs : List Byte} (h : m.CodeAt address (bs ++ cs)) :
    m.CodeAt (address + bs.length) cs where
  inside := by
    have := h.inside
    rw [List.length_append] at this
    omega
  bytes k hk := by
    rw [Nat.add_assoc, h.bytes _ (by rw [List.length_append]; omega),
      List.getElem?_append_right (Nat.le_add_right _ _), Nat.add_sub_cancel_left]

theorem CodeAt.slice {address : Nat} {bs : List Byte} (h : m.CodeAt address bs) :
    m.slice address bs.length = bs :=
  slice_of_bytes (Nat.le_trans h.inside m.codeSize_le) h.bytes

/-- The decoder takes exactly these bytes for `a`. -/
def Takes (m : Memory) (d : Decoder α) (bs : List Byte) (a : α) : Prop :=
  ∀ cursor : Cursor, m.CodeAt cursor.ip.toNat bs →
    d.run cursor = (some a, cursor.skip bs.length)

/-! ### Putting decoders together -/

theorem run_bind_of_some {d : Decoder α} {f : α → Decoder β} {cursor next : Cursor} {a : α}
    (h : d.run cursor = (some a, next)) : (d >>= f).run cursor = (f a).run next := by
  rw [OptionT.run_bind, Option.elimM]
  -- what is bound in `StateM Cursor` is a pair, and the goal only shows a projection of it
  show (d.run cursor).1.elim (Pure.pure none) (fun x => (f x).run) (d.run cursor).2 = _
  rw [h, Option.elim_some]

theorem Takes.pure (a : α) : m.Takes (Pure.pure a) [] a := by
  intro cursor _
  show (some a, cursor) = _
  rw [List.length_nil, Cursor.skip_zero]

theorem Takes.bind {d : Decoder α} {f : α → Decoder β} {bs cs : List Byte} {a : α} {b : β}
    (hd : m.Takes d bs a) (hf : m.Takes (f a) cs b) : m.Takes (d >>= f) (bs ++ cs) b := by
  intro cursor h
  have hip : (cursor.skip bs.length).ip.toNat = cursor.ip.toNat + bs.length :=
    Cursor.toNat_ip_skip (Nat.lt_of_le_of_lt h.left.inside m.codeSize.toNat_lt)
  have hnext : (f a).run (cursor.skip bs.length) = _ := hf _ (by rw [hip]; exact h.right)
  have hfirst : d.run cursor = _ := hd cursor h.left
  rw [run_bind_of_some hfirst, hnext, Cursor.skip_skip, List.length_append]

/-- What is made of a value in the end takes no more bytes. -/
theorem Takes.bind_pure {d : Decoder α} {bs : List Byte} {a : α} (f : α → β)
    (h : m.Takes d bs a) : m.Takes (d >>= fun x => Pure.pure (f x)) bs (f a) := by
  rw [← List.append_nil bs]
  exact h.bind (Takes.pure _)

theorem Takes.map {d : Decoder α} {bs : List Byte} {a : α} (f : α → β) (h : m.Takes d bs a) :
    m.Takes (f <$> d) bs (f a) := by
  rw [map_eq_pure_bind]
  exact h.bind_pure f

/-! ### Fields -/

theorem fetch_of_codeAt {cursor : Cursor} {bs : List Byte}
    (h : m.CodeAt cursor.ip.toNat bs) :
    m.fetch bs.length cursor = (Word.fromLittleEndian bs, cursor.skip bs.length) := by
  rw [fetch, if_pos h.inside, h.slice]
  rfl

theorem takes_fetchByte (m : Memory) (b : Byte) : m.Takes m.fetchByte [b] b := by
  intro cursor h
  show (some (UInt8.ofNat (m.fetch [b].length cursor).1), (m.fetch [b].length cursor).2) = _
  rw [fetch_of_codeAt h]
  simp [Word.fromLittleEndian]

theorem takes_fetchWord (m : Memory) (w : Word) : m.Takes m.fetchWord w.toBytes w := by
  intro cursor h
  have hfetch := fetch_of_codeAt h
  rw [Word.length_toBytes] at hfetch
  show (some (UInt32.ofNat (m.fetch 4 cursor).1), (m.fetch 4 cursor).2) = _
  rw [hfetch, Word.length_toBytes]
  show (some (Word.ofBytes w.toBytes), _) = _
  rw [Word.ofBytes_toBytes]

theorem takes_fetchMode (m : Memory) (mode : Mode) : m.Takes m.fetchMode [mode.byte] mode :=
  (takes_fetchByte m mode.byte).map Mode.mk

theorem takes_fetchRegister (m : Memory) (r : Register) :
    m.Takes m.fetchRegister [r.toByte] r := by
  rw [← List.append_nil [r.toByte]]
  refine (takes_fetchByte m r.toByte).bind ?_
  rw [Register.ofByte?_toByte]
  exact Takes.pure r

theorem takes_fetchOperand (m : Memory) (o : Operand Word) :
    m.Takes (m.fetchOperand (some o.kind)) o.encode o := by
  cases o with
  | register r => exact (takes_fetchRegister m r).map _
  | immediate v => exact (takes_fetchWord m v).map _
  | memory a => exact (takes_fetchWord m a).map _

theorem takes_fetchDirect (m : Memory) (d : Direct Word) :
    m.Takes (m.fetchDirect (some d.toOperand.kind)) d.toOperand.encode d := by
  cases d with
  | register r => exact (takes_fetchRegister m r).map _
  | immediate v => exact (takes_fetchWord m v).map _

/-! ### Instructions -/

/-- The bytes of an instruction behind the first one. -/
def fieldBytes (i : Instruction Word) : List Byte :=
  (i.mode?.map Mode.byte).toList ++ i.operands.flatMap Operand.encode

theorem takes_fetchFields (m : Memory) (i : Instruction Word) :
    m.Takes (m.fetchFields i.opcode) (fieldBytes i) i := by
  cases i with
  | nop => exact Takes.pure _
  | syscall => exact Takes.pure _
  | move dst src =>
    refine (takes_fetchMode m (.ofKinds .register src.kind)).bind ?_
    rw [Mode.dst?_ofKinds, Mode.src?_ofKinds]
    refine (takes_fetchRegister m dst).bind ?_
    show m.Takes _ ([src].flatMap Operand.encode) _
    rw [List.flatMap_singleton]
    exact (takes_fetchOperand m src).bind_pure _
  | store address src =>
    refine (takes_fetchMode m (.ofKinds .memory src.toOperand.kind)).bind ?_
    rw [Mode.dst?_ofKinds, Mode.src?_ofKinds]
    refine (takes_fetchWord m address).bind ?_
    show m.Takes _ ([src.toOperand].flatMap Operand.encode) _
    rw [List.flatMap_singleton]
    exact (takes_fetchDirect m src).bind_pure _
  | arith op dst src =>
    refine (takes_fetchMode m (.ofKinds .register src.kind)).bind ?_
    rw [Mode.dst?_ofKinds, Mode.src?_ofKinds]
    refine (takes_fetchRegister m dst).bind ?_
    show m.Takes _ ([src].flatMap Operand.encode) _
    rw [List.flatMap_singleton]
    exact (takes_fetchOperand m src).bind_pure _
  | cmp left right =>
    refine (takes_fetchMode m (.ofKinds .register right.kind)).bind ?_
    rw [Mode.dst?_ofKinds, Mode.src?_ofKinds]
    refine (takes_fetchRegister m left).bind ?_
    show m.Takes _ ([right].flatMap Operand.encode) _
    rw [List.flatMap_singleton]
    exact (takes_fetchOperand m right).bind_pure _
  | branch c target =>
    refine (takes_fetchMode m (.ofBranch target.toOperand.kind)).bind ?_
    rw [Mode.src?_ofBranch]
    show m.Takes _ ([target.toOperand].flatMap Operand.encode) _
    rw [List.flatMap_singleton]
    exact (takes_fetchDirect m target).bind_pure _

/-- What is decoded at an address, if its first byte is that of an operation and the bytes behind
it are taken for the fields of an instruction. -/
theorem decode_of_takes {ip : Word} {op : Opcode} {bs : List Byte} {i : Instruction Word}
    (hfields : m.Takes (m.fetchFields op) bs i) (h : m.CodeAt ip.toNat (op.toByte :: bs)) :
    m.decode ip = ⟨op.toByte, some i, Cursor.skip ⟨ip, []⟩ (bs.length + 1)⟩ := by
  have hcode : m.CodeAt ip.toNat ([op.toByte] ++ bs) := h
  -- the first byte is fetched outside of the decoder, so `Takes.bind` does not reach it
  have hip : (Cursor.skip ⟨ip, []⟩ 1).ip.toNat = ip.toNat + 1 :=
    Cursor.toNat_ip_skip (Nat.lt_of_le_of_lt hcode.left.inside m.codeSize.toNat_lt)
  have hfetch : m.fetch 1 ⟨ip, []⟩ =
      (Word.fromLittleEndian [op.toByte], Cursor.skip ⟨ip, []⟩ 1) :=
    @fetch_of_codeAt m ⟨ip, []⟩ [op.toByte] hcode.left
  have hop : UInt8.ofNat (Word.fromLittleEndian [op.toByte]) = op.toByte := by
    simp [Word.fromLittleEndian]
  have hrest : (m.fetchFields op).run (Cursor.skip ⟨ip, []⟩ 1) = _ :=
    hfields _ (by rw [hip]; exact hcode.right)
  unfold decode
  rw [hfetch]
  dsimp only
  rw [hop, fetchInstruction, Opcode.ofByte?_toByte]
  dsimp only
  rw [hrest, Cursor.skip_skip, Nat.add_comm 1]

/-- An instruction is decoded where its bytes stand, and nothing behind it is looked at. -/
theorem decode_of_codeAt {ip : Word} {i : Instruction Word} (h : m.CodeAt ip.toNat i.encode) :
    m.decode ip = ⟨i.opcode.toByte, some i, ⟨ip + UInt32.ofNat i.size, []⟩⟩ := by
  have hsize : (fieldBytes i).length + 1 = i.size := by
    rw [← Instruction.length_encode]
    rfl
  rw [decode_of_takes (takes_fetchFields m i) h, hsize]
  rfl

end Memory

end RegisterMachine
