import RegisterMachine.Proofs.Machine.Fetching
import RegisterMachine.Proofs.Machine.Forms
import RegisterMachine.Proofs.Machine.Guarded

/-!
# RegisterMachine.Proofs.Machine.Tasks

What the tasks of a guarded step do, up to the operands of an instruction.

`Task.Runs` says that a task goes on without a crash, and to where. Every task
has a lemma that says so, and no other proof unfolds it. A fetch is compared
with `Memory.fetch` on the state that decoding has come to (`Step.upTo`); a task
that is made of fetches `Task.Follows` the decoder that is made of the same ones,
so the decoder says where the task comes to, and which operand it has found.
-/

namespace RegisterMachine

/-! ### Machines with the same registers -/

namespace Machine

theorem ext_get {m n : Machine} (hget : ∀ r, m.get r = n.get r) (hmemory : m.memory = n.memory)
    (hstatus : m.status = n.status) (htracing : m.tracing = n.tracing) : m = n := by
  have hregisters : m.registers = n.registers := Registers.ext_get hget
  cases m
  cases n
  simp_all

theorem get_raise (m : Machine) (f : Fault) (r : Register) :
    (m.raise f).get r = if r = .rF then m.get .rF ||| f.flag.bit else m.get r := by
  split
  · subst r
    exact congrArg Flags.word (m.flags_raise f)
  · exact m.get_raise_of_ne f ‹_›

theorem get_set (m : Machine) (r s : Register) (w : Word) :
    (m.set r w).get s = if s = r then w else m.get s :=
  Registers.get_set m.registers r s w

/-- Only the last word that has been put into `IP` counts. -/
theorem set_ip_advance (m : Machine) (cursor : Cursor) (w : Word) :
    (m.advance cursor).set .ip w = m.advance { cursor with ip := w } := by
  rw [advance_eq, advance_eq]
  dsimp only
  split
  · refine ext_get ?_ rfl rfl rfl
    intro r
    simp only [get_set]
    split <;> rfl
  · refine ext_get ?_ rfl rfl rfl
    intro r
    simp only [get_set, get_raise]
    cases r <;> simp

theorem raise_advance (m : Machine) (cursor : Cursor) (address : Word) :
    (m.advance cursor).raise .pointerOutOfBounds =
      m.advance { cursor with refused := cursor.refused ++ [address] } := by
  unfold advance
  rw [List.foldl_append]
  rfl

theorem advance_start (m : Machine) : m.advance ⟨m.ip, []⟩ = m :=
  congrArg (fun registers => { m with registers }) (Registers.set_get_self m.registers .ip)

end Machine

/-! ### Running tasks -/

namespace Task

variable {κ α β : Type} {t : Task κ α} {k : α → Task κ β} {s s₁ s₂ : Step κ} {a : α}

/-- The task goes on from `s` to `s'` without a crash. It gives a result or ends the
instruction. -/
def Runs (t : Task κ α) (s : Step κ) (r : Option α) (s' : Step κ) : Prop :=
  t.run.run s = .ok (r, s')

theorem Runs.bind {r : Option β} (h : Runs t s (some a) s₁) (hk : Runs (k a) s₁ r s₂) :
    Runs (t >>= k) s r s₂ := by
  unfold Runs at h hk ⊢
  rw [OptionT.run_bind, Option.elimM, StateT.run_bind, h]
  exact hk

theorem Runs.bind_none (h : Runs t s none s₁) : Runs (t >>= k) s none s₁ := by
  unfold Runs at h ⊢
  rw [OptionT.run_bind, Option.elimM, StateT.run_bind, h]
  rfl

theorem Runs.orElse_pure {t : Task κ Unit} {r : Option Unit} (h : Runs t s r s₁) :
    Runs (t <|> pure ()) s (some ()) s₁ := by
  unfold Runs at h ⊢
  rw [OptionT.run_orElse, Option.elimM, StateT.run_bind, h]
  cases r <;> rfl

theorem runs_pure (a : α) (s : Step κ) : Runs (pure a) s (some a) s := rfl

theorem runs_get (s : Step κ) : Runs get s (some s) s := rfl

theorem runs_set (s s' : Step κ) : Runs (set s') s (some PUnit.unit) s' := rfl

theorem runs_modify (f : Step κ → Step κ) (s : Step κ) :
    Runs (modify f) s (some PUnit.unit) (f s) := rfl

theorem runs_fail (f : Fault) (s : Step κ) : Runs (fail f : Task κ α) s none (s.fault f) := rfl

theorem runs_register (r : Register) (s : Step κ) :
    Runs (register r) s (some (s.machine.get r)) s := rfl

theorem runs_put (r : Register) (w : Word) (s : Step κ) :
    Runs (put r w) s (some PUnit.unit) (s.onMachine fun m => m.set r w) := rfl

/-! ### Memory -/

theorem toNat_sum (a b : Word) : (a.toUInt64 + b.toUInt64).toNat = a.toNat + b.toNat := by
  have ha := a.toNat_lt
  have hb := b.toNat_lt
  simp only [UInt64.toNat_add, UInt32.toNat_toUInt64]
  omega

/-- The sum of two words always fits. -/
theorem runs_sum (a b : Word) (s : Step κ) :
    Runs (sum a b) s (some (a.toUInt64 + b.toUInt64)) s := by
  have ha := a.toNat_lt
  have hb := b.toNat_lt
  rw [sum, if_pos (by omega)]
  exact runs_pure _ s

theorem runs_byteAt {index : Nat} {b : Byte} (h : s.machine.memory.bytes[index]? = some b) :
    Runs (byteAt index) s (some b) s := by
  refine (runs_get s).bind ?_
  rw [h]
  exact runs_pure b s

theorem runs_bytesOf {span : Span} (h : InRange s.machine.memory span) :
    Runs (bytesOf span) s
      (some (s.machine.memory.slice span.start (span.stop - span.start))) s := by
  refine (runs_get s).bind ?_
  dsimp only
  rw [if_pos h]
  exact runs_pure _ s

theorem runs_firstOf {count : Nat} {buffer : List Byte} (h : count ≤ buffer.length)
    (s : Step κ) : Runs (firstOf count buffer) s (some (buffer.take count)) s := by
  rw [firstOf, if_pos h]
  exact runs_pure _ s

theorem runs_copy {span : Span} {bs : List Byte} (h : InRange s.machine.memory span)
    (hlength : bs.length = span.stop - span.start) :
    Runs (copy span bs) s (some PUnit.unit)
      (s.onMachine fun m => { m with memory := s.machine.memory.write span.start bs }) := by
  refine (runs_get s).bind ?_
  dsimp only
  rw [if_pos h, if_pos hlength]
  exact runs_modify _ s

theorem runs_wordOf {bs : List Byte} (h : bs.length = 4) (s : Step κ) :
    Runs (wordOf bs) s (some (Word.ofBytes bs)) s := by
  rw [wordOf, if_pos h]
  exact runs_pure _ s

/-- The three comparisons of a program come to the one that is meant. -/
theorem runs_span? (address count : Word) (s : Step κ) :
    Runs (span? address count) s
      (some (if s.machine.memory.Inside address.toNat count.toNat then
        some ⟨address.toNat, address.toNat + count.toNat⟩ else none)) s := by
  refine (runs_get s).bind ?_
  dsimp only
  by_cases hin : s.machine.memory.Inside address.toNat count.toNat
  · have hle : address.toNat + count.toNat ≤ s.machine.memory.size := hin
    rw [if_pos hin, if_neg (by omega)]
    refine (runs_sum address count s).bind ?_
    rw [toNat_sum, if_neg (by omega)]
    exact runs_pure _ s
  · have hlt : ¬address.toNat + count.toNat ≤ s.machine.memory.size := hin
    rw [if_neg hin]
    split
    · exact runs_pure _ s
    · -- both are in the memory, and only their sum is not
      refine (runs_sum address count s).bind ?_
      rw [toNat_sum, if_pos (by omega)]
      exact runs_pure _ s

theorem runs_reach_of_inside (f : Fault) {address count : Word}
    (h : s.machine.memory.Inside address.toNat count.toNat) :
    Runs (reach f address count) s (some ⟨address.toNat, address.toNat + count.toNat⟩) s := by
  have hspan := runs_span? address count s
  rw [if_pos h] at hspan
  exact hspan.bind (runs_pure _ s)

theorem runs_reach_of_outside (f : Fault) {address count : Word}
    (h : ¬s.machine.memory.Inside address.toNat count.toNat) :
    Runs (reach f address count) s none (s.fault f) := by
  have hspan := runs_span? address count s
  rw [if_neg h] at hspan
  exact hspan.bind (runs_fail f s)

/-- The range that is reached is one of the memory, so using it does not crash. -/
theorem inRange_of_inside {m : Memory} {address count : Nat} (h : m.Inside address count) :
    InRange m ⟨address, address + count⟩ := ⟨Nat.le_add_right _ _, h⟩

theorem runs_load_of_some {address v : Word} (h : s.machine.memory.load? address = some v) :
    Runs (load address) s (some v) s := by
  have hin : s.machine.memory.Inside address.toNat 4 := Memory.load?_isSome_iff.1 (by simp [h])
  have hv : Word.ofBytes (s.machine.memory.slice address.toNat 4) = v := by
    rw [Memory.load?, if_pos hin] at h
    exact Option.some.inj h
  have hbytes := runs_bytesOf (inRange_of_inside hin)
  dsimp only at hbytes
  rw [Nat.add_sub_cancel_left] at hbytes
  rw [← hv]
  exact (runs_reach_of_inside .readOutOfBounds hin).bind
    (hbytes.bind (runs_wordOf (Memory.length_slice hin) s))

theorem runs_load_of_none {address : Word} (h : s.machine.memory.load? address = none) :
    Runs (load address) s none (s.fault .readOutOfBounds) := by
  have hout : ¬s.machine.memory.Inside address.toNat 4 := by
    rw [← Memory.load?_isSome_iff, h]
    exact Bool.false_ne_true
  exact (runs_reach_of_outside .readOutOfBounds hout).bind_none

theorem runs_store_of_some {address value : Word} {memory : Memory}
    (h : s.machine.memory.store? address value = some memory) :
    Runs (store address value) s (some PUnit.unit) (s.onMachine fun m => { m with memory }) := by
  have hsome : (s.machine.memory.store? address value).isSome := by simp [h]
  have hin : s.machine.memory.Inside address.toNat 4 := Memory.store?_isSome_iff.1 hsome
  have hmemory : s.machine.memory.write address.toNat value.toBytes = memory := by
    rw [Memory.store?, if_pos hin] at h
    exact Option.some.inj h
  have hlength : value.toBytes.length = address.toNat + 4 - address.toNat := by
    rw [Nat.add_sub_cancel_left, Word.length_toBytes]
  rw [← hmemory]
  exact (runs_reach_of_inside .writeOutOfBounds hin).bind
    (runs_copy (inRange_of_inside hin) hlength)

theorem runs_store_of_none {address value : Word}
    (h : s.machine.memory.store? address value = none) :
    Runs (store address value) s none (s.fault .writeOutOfBounds) := by
  have hout : ¬s.machine.memory.Inside address.toNat 4 := by
    rw [← Memory.store?_isSome_iff, h]
    exact Bool.false_ne_true
  exact (runs_reach_of_outside .writeOutOfBounds hout).bind_none

end Task

/-! ### Fetching -/

/-- What has happened when decoding has come to a cursor. -/
def Step.upTo {κ : Type} (m : Machine) (c : κ) (cursor : Cursor) : Step κ where
  machine := m.advance cursor
  console := c
  events := cursor.refused.map (Event.fault .pointerOutOfBounds)

namespace Memory

variable {m : Memory}

theorem slice_one {index : Nat} {b : Byte} (h : m.bytes[index]? = some b) :
    m.slice index 1 = [b] := by
  have hinside : m.Inside index [b].length := (Array.getElem?_eq_some_iff.1 h).1
  have hbytes : ∀ k < [b].length, m.bytes[index + k]? = [b][k]? := by
    intro k hk
    obtain rfl : k = 0 := Nat.lt_one_iff.1 hk
    exact h
  exact slice_of_bytes hinside hbytes

end Memory

namespace Task

variable {κ : Type} {m : Machine} {c : κ} {cursor : Cursor}

theorem get_upTo_ip : (Step.upTo m c cursor).machine.get .ip = cursor.ip := m.ip_advance cursor

theorem memory_upTo : (Step.upTo m c cursor).machine.memory = m.memory := m.memory_advance cursor

/-- A range that can be fetched from is taken as one of the code. -/
theorem runs_eat_of_inside {count : Word}
    (h : cursor.ip.toNat + count.toNat ≤ m.memory.codeSize.toNat) :
    Runs (eat count) (Step.upTo m c cursor)
      (some (some ⟨cursor.ip.toNat, cursor.ip.toNat + count.toNat⟩))
      (Step.upTo m c (cursor.skip count.toNat)) := by
  have hstop : ¬m.memory.codeSize.toUInt64 < cursor.ip.toUInt64 + count.toUInt64 := by
    rw [UInt64.lt_iff_toNat_lt, toNat_sum, UInt32.toNat_toUInt64]
    omega
  have hput : (Step.upTo m c cursor).onMachine (fun m => m.set .ip
      (cursor.ip.toUInt64 + count.toUInt64).toUInt32) =
        Step.upTo m c (cursor.skip count.toNat) := by
    have hip : (cursor.ip.toUInt64 + count.toUInt64).toUInt32 =
        cursor.ip + UInt32.ofNat count.toNat := by simp
    rw [hip]
    exact congrArg (fun machine => (⟨machine, c, _⟩ : Step κ)) (m.set_ip_advance cursor _)
  refine (runs_register .ip _).bind ?_
  rw [get_upTo_ip]
  refine (runs_sum cursor.ip count _).bind ?_
  refine (runs_get _).bind ?_
  rw [memory_upTo, if_neg hstop]
  -- the range is given back in 64 bits, the pointer has only 32 of them
  refine (runs_put .ip _ _).bind ?_
  rw [hput, toNat_sum]
  exact runs_pure _ _

theorem runs_eat_of_outside {count : Word}
    (h : ¬cursor.ip.toNat + count.toNat ≤ m.memory.codeSize.toNat) :
    Runs (eat count) (Step.upTo m c cursor) (some none)
      (Step.upTo m c { cursor with refused := cursor.refused ++ [cursor.ip] }) := by
  have hstop : m.memory.codeSize.toUInt64 < cursor.ip.toUInt64 + count.toUInt64 := by
    rw [UInt64.lt_iff_toNat_lt, toNat_sum, UInt32.toNat_toUInt64]
    omega
  have hfault : (Step.upTo m c cursor).fault .pointerOutOfBounds =
      Step.upTo m c { cursor with refused := cursor.refused ++ [cursor.ip] } := by
    have hip : (m.advance cursor).ip = cursor.ip := m.ip_advance cursor
    unfold Step.fault Step.emit Step.onMachine Step.upTo
    dsimp only
    rw [hip, m.raise_advance cursor cursor.ip, List.map_append]
    rfl
  refine (runs_register .ip _).bind ?_
  rw [get_upTo_ip]
  refine (runs_sum cursor.ip count _).bind ?_
  refine (runs_get _).bind ?_
  rw [memory_upTo, if_pos hstop]
  refine (runs_modify _ _).bind ?_
  rw [hfault]
  exact runs_pure _ _

theorem runs_ofCode {span : Span} {s : Step κ}
    (h : span.stop ≤ s.machine.memory.codeSize.toNat) :
    Runs (ofCode span) s (some PUnit.unit) s := by
  refine (runs_get s).bind ?_
  rw [if_pos h]
  exact runs_pure _ s

/-- A byte is fetched as the decoder fetches it, and from the code. -/
theorem runs_fetchByte :
    Runs fetchByte (Step.upTo m c cursor) (some (UInt8.ofNat (m.memory.fetch 1 cursor).1))
      (Step.upTo m c (m.memory.fetch 1 cursor).2) := by
  by_cases hin : cursor.ip.toNat + 1 ≤ m.memory.codeSize.toNat
  · have hlt : cursor.ip.toNat < m.memory.bytes.size := Nat.lt_of_lt_of_le hin m.memory.codeSize_le
    have hbyte : m.memory.bytes[cursor.ip.toNat]? = some m.memory.bytes[cursor.ip.toNat] :=
      Array.getElem?_eq_getElem hlt
    rw [Memory.fetch_of_inside hin, Memory.slice_one hbyte]
    refine (runs_eat_of_inside hin).bind ?_
    refine (runs_ofCode ?_).bind ?_
    · rw [memory_upTo]
      exact hin
    · have hvalue : UInt8.ofNat (Word.fromLittleEndian [m.memory.bytes[cursor.ip.toNat]]) =
          m.memory.bytes[cursor.ip.toNat] := by simp [Word.fromLittleEndian]
      rw [hvalue]
      refine runs_byteAt ?_
      rw [memory_upTo]
      exact hbyte
  · rw [Memory.fetch_of_outside hin]
    exact (runs_eat_of_outside hin).bind (runs_pure _ _)

theorem runs_fetchWord :
    Runs fetchWord (Step.upTo m c cursor) (some (UInt32.ofNat (m.memory.fetch 4 cursor).1))
      (Step.upTo m c (m.memory.fetch 4 cursor).2) := by
  by_cases hin : cursor.ip.toNat + 4 ≤ m.memory.codeSize.toNat
  · have hinside : m.memory.Inside cursor.ip.toNat 4 := Nat.le_trans hin m.memory.codeSize_le
    have hrange : InRange (Step.upTo m c (cursor.skip 4)).machine.memory
        ⟨cursor.ip.toNat, cursor.ip.toNat + 4⟩ := by
      rw [memory_upTo]
      exact inRange_of_inside hinside
    have hbytes := runs_bytesOf hrange
    rw [memory_upTo] at hbytes
    dsimp only at hbytes
    rw [Nat.add_sub_cancel_left] at hbytes
    rw [Memory.fetch_of_inside hin]
    refine (runs_eat_of_inside hin).bind ?_
    refine (runs_ofCode ?_).bind ?_
    · rw [memory_upTo]
      exact hin
    · exact hbytes.bind (runs_wordOf (Memory.length_slice hinside) _)
  · rw [Memory.fetch_of_outside hin]
    exact (runs_eat_of_outside hin).bind (runs_pure _ _)

/-! ### Following a decoder -/

section

variable {α β : Type} {d : Decoder α} {t : Task κ α} {e : α → Decoder β} {k : α → Task κ β}

/-- The task fetches what the decoder fetches. Where the decoder finds no instruction, the task
raises that fault. -/
structure Follows (m : Machine) (c : κ) (d : Decoder α) (t : Task κ α) : Prop where
  found {cursor next : Cursor} {a : α} : d.run cursor = (some a, next) →
    Runs t (Step.upTo m c cursor) (some a) (Step.upTo m c next)
  lost {cursor next : Cursor} : d.run cursor = (none, next) →
    Runs t (Step.upTo m c cursor) none ((Step.upTo m c next).fault .badInstruction)

theorem Follows.pure (a : α) : Follows m c (Pure.pure a) (Pure.pure a) where
  found h := by
    cases h
    exact runs_pure a _
  lost h := nomatch h

theorem Follows.fail : Follows (α := α) m c failure (fail .badInstruction) where
  found h := nomatch h
  lost h := by
    cases h
    exact runs_fail _ _

theorem Follows.bind (h : Follows m c d t) (hk : ∀ a, Follows m c (e a) (k a)) :
    Follows m c (d >>= e) (t >>= k) := by
  constructor
  · intro cursor next b hb
    obtain ⟨a, after, hd, hrest⟩ := Memory.exists_of_run_bind hb
    exact (h.found hd).bind ((hk a).found hrest)
  · intro cursor next hb
    cases hd : d.run cursor with
    | mk found after =>
      cases found with
      | none =>
        rw [Memory.run_bind_of_none hd] at hb
        cases hb
        exact (h.lost hd).bind_none
      | some a =>
        rw [Memory.run_bind_of_some hd] at hb
        exact (h.found hd).bind ((hk a).lost hb)

end

theorem follows_fetchByte : Follows m c m.memory.fetchByte fetchByte where
  found h := by
    cases h
    exact runs_fetchByte
  lost h := nomatch h

theorem follows_fetchWord : Follows m c m.memory.fetchWord fetchWord where
  found h := by
    cases h
    exact runs_fetchWord
  lost h := nomatch h

theorem Follows.map {α β : Type} {d : Decoder α} {t : Task κ α} (f : α → β)
    (h : Follows m c d t) : Follows m c (f <$> d) (t >>= fun a => Pure.pure (f a)) := by
  rw [map_eq_pure_bind]
  exact h.bind fun a => Follows.pure (f a)

theorem follows_fetchMode : Follows m c m.memory.fetchMode fetchMode :=
  follows_fetchByte.map Mode.mk

theorem follows_fetchRegister : Follows m c m.memory.fetchRegister fetchRegister := by
  refine follows_fetchByte.bind ?_
  intro b
  cases Register.ofByte? b with
  | none => exact Follows.fail
  | some r => exact Follows.pure r

theorem follows_destination (mode : Mode) :
    Follows m c (m.memory.fetchDestination mode.dst?) (destination mode) := by
  unfold Memory.fetchDestination destination
  cases mode.dst? with
  | none => exact Follows.fail
  | some kind =>
    cases kind with
    | register => exact follows_fetchRegister
    | _ => exact Follows.fail

/-! ### Operands and their values -/

/-- Fetches an operand. -/
def operand : Option OperandKind → Task κ (Operand Word)
  | some .register => do pure (.register (← fetchRegister))
  | some .immediate => do pure (.immediate (← fetchWord))
  | some .memory => do pure (.memory (← fetchWord))
  | _ => fail .badInstruction

/-- Fetches an operand that may not be in memory. -/
def direct : Option OperandKind → Task κ (Direct Word)
  | some .register => do pure (.register (← fetchRegister))
  | some .immediate => do pure (.immediate (← fetchWord))
  | _ => fail .badInstruction

/-- Takes the value of an operand. -/
def evaluate : Operand Word → Task κ Word
  | .register r => register r
  | .immediate v => pure v
  | .memory address => load address

theorem fail_bind {α β : Type} (f : Fault) (k : α → Task κ β) :
    (fail f >>= k : Task κ β) = fail f := rfl

/-- An operand is fetched and then evaluated. -/
theorem source_eq (kind : Option OperandKind) :
    (source kind : Task κ Word) = operand kind >>= evaluate := by
  cases kind with
  | none => exact (fail_bind _ _).symm
  | some kind =>
    cases kind with
    | none => exact (fail_bind _ _).symm
    | _ => simp [source, operand, evaluate]

theorem directSource_eq (kind : Option OperandKind) :
    (directSource kind : Task κ Word) = direct kind >>= fun d => evaluate d.toOperand := by
  cases kind with
  | none => exact (fail_bind _ _).symm
  | some kind =>
    cases kind with
    | register => simp [directSource, source, direct, evaluate, Direct.toOperand]
    | immediate => simp [directSource, source, direct, evaluate, Direct.toOperand]
    | _ => exact (fail_bind _ _).symm

theorem follows_operand (kind : Option OperandKind) :
    Follows m c (m.memory.fetchOperand kind) (operand kind) := by
  cases kind with
  | none => exact Follows.fail
  | some kind =>
    cases kind with
    | none => exact Follows.fail
    | register => exact follows_fetchRegister.map _
    | _ => exact follows_fetchWord.map _

theorem follows_direct (kind : Option OperandKind) :
    Follows m c (m.memory.fetchDirect kind) (direct kind) := by
  cases kind with
  | none => exact Follows.fail
  | some kind =>
    cases kind with
    | register => exact follows_fetchRegister.map _
    | immediate => exact follows_fetchWord.map _
    | _ => exact Follows.fail

theorem runs_evaluate_of_some {s : Step κ} {o : Operand Word} {v : Word}
    (h : s.machine.value? o = some v) : Runs (evaluate o) s (some v) s := by
  cases o with
  | register r =>
    cases h
    exact runs_register r s
  | immediate w =>
    cases h
    exact runs_pure _ s
  | memory address => exact runs_load_of_some h

/-- The only operand without a value is one in memory that is out of bounds. -/
theorem runs_evaluate_of_none {s : Step κ} {o : Operand Word}
    (h : s.machine.value? o = none) : Runs (evaluate o) s none (s.fault .readOutOfBounds) := by
  cases o with
  | register r => cases h
  | immediate w => cases h
  | memory address => exact runs_load_of_none h

theorem runs_evaluate_direct (d : Direct Word) (s : Step κ) :
    Runs (evaluate d.toOperand) s (some (s.machine.value d)) s := by
  cases d with
  | register r => exact runs_register r s
  | immediate v => exact runs_pure v s

end Task

end RegisterMachine
