import RegisterMachine.Host.Buffer
import RegisterMachine.Proofs.Assembly.Meaning

/-!
# RegisterMachine.Proofs.Assembly.Simulation

The machine follows the source. A machine that has come to the address of an
instruction (`Image.At`) takes one step, and this step is the instruction as it
is written (`Layout.Carries`). Nothing is asked of the other registers, of the
memory elsewhere or of the console, and the code that the instruction does not
occupy may have been overwritten.
-/

namespace RegisterMachine

/-- The machine is at this address, from which on `count` bytes of the code are intact. -/
structure Image.At (image : Image) (m : Machine) (address count : Nat) : Prop where
  running : m.status = .running
  codeSize : m.memory.codeSize.toNat = image.code.length
  ip : m.ip.toNat = address
  bytes : ∀ k < count, m.memory.bytes[address + k]? = image.code[address + k]?

/-! ### The bytes of an instruction -/

/-- The code has the bytes of an instruction at the address of the instruction. -/
theorem Emission.Covers.code_split {layout : Layout} {e : Emission} {before after : List Line}
    {l : Line} {i : Instruction Text} (he : e.Covers layout (before ++ l :: after))
    (hl : States before l (.instruction i)) :
    ∃ pre i' post, i.resolve layout.value = .ok i' ∧
      e.code.toList = pre ++ (i'.encode ++ post) ∧
      pre.length = Draft.codeSizeOf (Line.instructions none before) := by
  have hcode := he.code
  rw [hl.instructions_split] at hcode
  exact hcode.split

theorem Image.At.codeAt {image : Image} {m : Machine} {pre post bs : List Byte}
    (h : image.At m pre.length bs.length) (hcode : image.code = pre ++ (bs ++ post)) :
    m.memory.CodeAt m.ip.toNat bs where
  inside := by
    rw [h.ip, h.codeSize, hcode]
    simp only [List.length_append]
    omega
  bytes k hk := by
    rw [h.ip, h.bytes k hk, hcode, List.getElem?_append_right (Nat.le_add_right _ _),
      Nat.add_sub_cancel_left, List.getElem?_append_left hk]

/-! ### One step -/

namespace Machine

/-- The machine with `IP` behind the `count` bytes that it is at. -/
def skip (m : Machine) (count : Nat) : Machine := m.set .ip (m.ip + UInt32.ofNat count)

theorem get_skip_of_ne (m : Machine) (count : Nat) {r : Register} (h : r ≠ .ip) :
    (m.skip count).get r = m.get r :=
  get_set_of_ne m _ h

@[simp] theorem flags_skip (m : Machine) (count : Nat) : (m.skip count).flags = m.flags :=
  congrArg Flags.mk (m.get_skip_of_ne count (by decide))

theorem toNat_ip_skip {m : Machine} {count : Nat}
    (h : m.ip.toNat + count ≤ m.memory.codeSize.toNat) :
    (m.skip count).ip.toNat = m.ip.toNat + count := by
  have hlt : m.ip.toNat + count < 4294967296 := Nat.lt_of_le_of_lt h m.memory.codeSize.toNat_lt
  have hip : (m.skip count).ip = (Cursor.skip ⟨m.ip, []⟩ count).ip := get_set_self m _ _
  rw [hip]
  exact Cursor.toNat_ip_skip hlt

/-- Where the bytes of an instruction stand, it is what the turn carries out. -/
theorem turn?_of_codeAt {m : Machine} {i : Instruction Word} (hrun : m.status = .running)
    (h : m.memory.CodeAt m.ip.toNat i.encode) :
    m.turn? = some ((m.skip i.size).turnOf [] (m.ip, i.opcode.toByte) i.opcode
      ((m.skip i.size).execute m.registers.leftValue i)) := by
  have hdecode := Memory.decode_of_codeAt h
  have hdecoded : m.decoded = m.skip i.size := by
    rw [decoded, hdecode]
    rfl
  have hrefusals : m.refusals = [] := by
    rw [refusals, hdecode]
    rfl
  have hip : m.ip < m.memory.codeSize := by
    have hinside := h.inside
    have hpos := i.size_pos
    rw [Instruction.length_encode] at hinside
    rw [UInt32.lt_iff_toNat_lt]
    omega
  rw [turn?_of_fetched hrun hip (by rw [hdecode]), hdecoded, hrefusals, hdecode]

end Machine

/-- The step `s` of the machine `m` is the instruction `i` of the source. -/
structure Layout.Carries (layout : Layout) {κ : Type} [Console κ] (m : Machine) (c : κ)
    (i : Instruction Text) (s : Step κ) : Prop where
  /-- The bytes are read as the instruction with its values found, and no more of them. -/
  decoded : ∃ i', i.resolve layout.value = .ok i' ∧ m.memory.decode m.ip =
    { opcode := i.opcode.toByte, instruction? := some i', cursor := ⟨(m.skip i.size).ip, []⟩ }
  size : (m.skip i.size).ip.toNat = m.ip.toNat + i.size
  /-- What happens is what the text means, and it means nothing else. -/
  effect : ∃ result, layout.Performs m (m.skip i.size) i result ∧
    (∀ other, layout.Performs m (m.skip i.size) i other → other = result) ∧
    s = ((m.skip i.size).turnOf [] (m.ip, i.opcode.toByte) i.opcode result).serve c
  inside : ∀ ip, Event.fault .pointerOutOfBounds ip ∉ s.events
  known : ∀ ip, Event.fault .badInstruction ip ∈ s.events → i = .syscall ∧ 3 < m.get .r1
  next : ¬i.Redirects m.flags → s.machine.ip.toNat = m.ip.toNat + i.size

/-- Where `IP` is after a turn, unless the instruction has put something there. -/
theorem Machine.ip_turnOf {m : Machine} {fetched : Word × Byte} {left : Register → Word}
    {op : Opcode} {i : Instruction Word} (hi : ¬i.Redirects m.flags) :
    (m.turnOf [] fetched op (m.execute left i)).outcome.machine.ip = m.ip := by
  cases h : m.execute left i with
  | ok outcome => exact (commits_of_execute h).ip hi
  | error f => exact ip_raise m f

/-- The faults of a turn without refused fetches are those of carrying the instruction out. -/
theorem Machine.fault_of_turnOf {m : Machine} {fetched : Word × Byte} {left : Register → Word}
    {op : Opcode} {i : Instruction Word} {f : Fault} {ip : Word}
    (h : Event.fault f ip ∈ (m.turnOf [] fetched op (m.execute left i)).events) :
    f = .readOutOfBounds ∨ f = .writeOutOfBounds ∨
      f = .badInstruction ∧ i = .syscall ∧ 3 < m.get .r1 := by
  rcases fault_mem_turnOf.1 h with hnil | ⟨hresult, -⟩
  · cases hnil
  · exact (fault_of_execute hresult).2

/-- Where the bytes of an instruction stand, the next step is the instruction. -/
theorem Layout.exists_carries {layout : Layout} {i : Instruction Text} {i' : Instruction Word}
    {m : Machine} {κ : Type} [Console κ] (c : κ) (hi : i.resolve layout.value = .ok i')
    (hrun : m.status = .running) (hcode : m.memory.CodeAt m.ip.toNat i'.encode) :
    ∃ s, m.step? c = some s ∧ layout.Carries m c i s := by
  have hsize : i'.size = i.size := Instruction.size_resolve hi
  obtain ⟨hop, -⟩ := Instruction.head_resolve hi
  have hturn := Machine.turn?_of_codeAt hrun hcode
  have hdecode := Memory.decode_of_codeAt hcode
  have hinside := hcode.inside
  rw [Instruction.length_encode, hsize] at hinside
  rw [hsize, hop] at hturn hdecode
  have hskip : (m.skip i.size).ip = m.ip + UInt32.ofNat i.size := m.get_set_self _ _
  have hnext : (m.skip i.size).ip.toNat = m.ip.toNat + i.size := Machine.toNat_ip_skip hinside
  -- what is carried out does not depend on whether it came from bytes or from the text
  have hperforms : layout.Performs m (m.skip i.size) i _ :=
    performs_of_resolve m (m.skip i.size) hi
  refine ⟨_, Machine.step?_of_turn? hturn c, ?_⟩
  refine ⟨⟨i', hi, by rw [hdecode, hskip]⟩, hnext, ⟨_, hperforms, ?_, rfl⟩, ?_, ?_, ?_⟩
  · intro other hother
    exact hother.unique hperforms
  · intro ip hfault
    rcases Machine.fault_of_turnOf (Turn.fault_mem_serve.1 hfault) with hf | hf | ⟨hf, -, -⟩
    · cases hf
    · cases hf
    · cases hf
  · intro ip hfault
    rcases Machine.fault_of_turnOf (Turn.fault_mem_serve.1 hfault) with hf | hf | ⟨-, hi', hid⟩
    · cases hf
    · cases hf
    · subst hi'
      rw [m.get_skip_of_ne i.size (by decide)] at hid
      exact ⟨Instruction.eq_syscall_of_opcode hop.symm, hid⟩
  · intro hstays
    have hstays' : ¬i'.Redirects (m.skip i.size).flags := by
      rwa [Instruction.redirects_resolve hi, Machine.flags_skip]
    rw [Turn.machine_serve, Outcome.ip_machine_serve, Machine.ip_turnOf hstays', hnext]

/-- Assembler and machine agree: whatever line of the main section the machine has come to, its
next step is the instruction on that line. -/
theorem step_of_assemble {source : String} {image : Image} {before after : List Line} {l : Line}
    {i : Instruction Text} {m : Machine} {κ : Type} [Console κ] (c : κ)
    (h : assemble source = .ok image)
    (hlines : Line.ofText source.toList = before ++ l :: after)
    (hl : States before l (.instruction i))
    (hm : image.At m (Draft.codeSizeOf (Line.instructions none before)) i.size) :
    ∃ layout s, Layout.ofLines (Line.ofText source.toList) = .ok layout ∧
      m.step? c = some s ∧ layout.Carries m c i s := by
  obtain ⟨layout, emission, hlayout, hemission, rfl⟩ := exists_of_assembleLines h
  have hcovers := Emission.covers_of_ofLines hemission
  rw [hlines] at hcovers
  obtain ⟨pre, i', post, hi, hcode, hpre⟩ := hcovers.code_split hl
  -- the bytes on the machine are those of the instruction with its values found
  have hcodeAt : m.memory.CodeAt m.ip.toNat i'.encode := by
    rw [← hpre, ← Instruction.size_resolve hi, ← Instruction.length_encode] at hm
    exact hm.codeAt hcode
  obtain ⟨s, hstep, hcarries⟩ := Layout.exists_carries c hi hm.running hcodeAt
  exact ⟨layout, s, hlayout, hstep, hcarries⟩

/-- A program that compares its own address with a word of its data. -/
def comparing : String :=
  "_main:\nstart:\nadd rF, 7\ncmp IP, [count]\n_data:\nDB count[4]\n_main:\njeq start"

/-- The machine at the comparison, after the first byte of the code has been overwritten. -/
def comparingMachine : Machine where
  registers := Registers.zero.set .ip 7
  memory :=
    { bytes := #[0xFF, 18, 9, 7, 0, 0, 0, 5, 19, 8, 20, 0, 0, 0, 7, 2, 0, 0, 0, 0, 10, 0, 0, 0]
      codeSize := 20
      codeSize_le := by decide }
  status := .running
  tracing := false

theorem step_of_assemble_comparing :
    ∃ layout s, Layout.ofLines (Line.ofText comparing.toList) = .ok layout ∧
      comparingMachine.step? (Buffer.ofInput []) = some s ∧
      layout.Carries comparingMachine (Buffer.ofInput []) (.cmp .ip (.memory "count".toList)) s := by
  have hassemble : assemble comparing =
      .ok ⟨0, [2, 18, 9, 7, 0, 0, 0, 5, 19, 8, 20, 0, 0, 0, 7, 2, 0, 0, 0, 0], [0, 0, 0, 0]⟩ := rfl
  have hlines : Line.ofText comparing.toList =
      [⟨1, "_main:".toList⟩, ⟨2, "start:".toList⟩, ⟨3, "add rF, 7".toList⟩] ++
        ⟨4, "cmp IP, [count]".toList⟩ :: [⟨5, "_data:".toList⟩, ⟨6, "DB count[4]".toList⟩,
          ⟨7, "_main:".toList⟩, ⟨8, "jeq start".toList⟩] := rfl
  exact step_of_assemble _ hassemble hlines rfl ⟨rfl, rfl, rfl, by decide⟩

end RegisterMachine
