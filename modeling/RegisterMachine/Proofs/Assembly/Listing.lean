import RegisterMachine.Proofs.Assembly.FirstError
import RegisterMachine.Proofs.Text.Spelling

/-!
# RegisterMachine.Proofs.Assembly.Listing

Every program of the machine has a text. A **listing** has one line for each
instruction: the mnemonic and the operands, with the names in any case, the
words in any spelling and the addresses in brackets. It assembles to the bytes
of the instructions and to nothing else (`assemble_listing`).

The lines are made of solid texts with a blank or a comma between them, so they
are taken apart where they were put together. An operand that is read back
`Denotes` the one that was written: the register is the same, and the text of a
word is a number with this value, so that it does not matter which names a
program gives to anything.

The bytes are those of `Instruction.bytes`, which takes nothing from the encoder
but the numbers of the operations and the registers.
-/

namespace RegisterMachine

/-! ### The bytes of an instruction -/

/-- The four bytes of a word, the least significant first. -/
def Word.bytes (v : Word) : List Byte :=
  [v.toNat, v.toNat / 256, v.toNat / 65536, v.toNat / 16777216].map fun n => UInt8.ofNat (n % 256)

theorem Word.toBytes_eq_bytes (v : Word) : v.toBytes = v.bytes := by
  simp [toBytes, bytes, littleEndian, Nat.div_div_eq_div_mul]

namespace Operand

/-- The number of an operand's kind. -/
def kindNumber : Operand Word → Nat
  | register _ => 1
  | immediate _ => 2
  | memory _ => 3

/-- The bytes of an operand. -/
def bytes : Operand Word → List Byte
  | register r => [UInt8.ofNat r.index]
  | immediate v => v.bytes
  | memory a => a.bytes

theorem encode_eq_bytes (o : Operand Word) : o.encode = o.bytes := by
  cases o with
  | register r => rfl
  | immediate v => exact v.toBytes_eq_bytes
  | memory a => exact a.toBytes_eq_bytes

end Operand

/-- The bytes of an instruction: the operation, the kinds of its operands in the two halves of one
byte, and the operands. -/
def Instruction.bytes (i : Instruction Word) : List Byte :=
  i.opcode.toByte ::
    match i.operands with
    | [] => []
    | [src] => UInt8.ofNat src.kindNumber :: src.bytes
    | dst :: src :: _ =>
      UInt8.ofNat (16 * dst.kindNumber + src.kindNumber) :: (dst.bytes ++ src.bytes)

theorem Instruction.encode_eq_bytes (i : Instruction Word) : i.encode = i.bytes := by
  have hmode (dst src : Operand Word) : (Mode.ofKinds dst.kind src.kind).byte =
      UInt8.ofNat (16 * dst.kindNumber + src.kindNumber) := by
    cases dst <;> cases src <;> rfl
  have hbranch (src : Operand Word) :
      (Mode.ofBranch src.kind).byte = UInt8.ofNat src.kindNumber := by
    cases src <;> rfl
  cases i with
  | nop => rfl
  | syscall => rfl
  | move dst src =>
    simp [encode, bytes, mode?, operands, ← hmode, Operand.encode_eq_bytes, Operand.kind]
  | store address src =>
    simp [encode, bytes, mode?, operands, ← hmode, Operand.encode_eq_bytes, Operand.kind]
  | arith op dst src =>
    simp [encode, bytes, mode?, operands, ← hmode, Operand.encode_eq_bytes, Operand.kind]
  | cmp left right =>
    simp [encode, bytes, mode?, operands, ← hmode, Operand.encode_eq_bytes, Operand.kind]
  | branch c target =>
    simp [encode, bytes, mode?, operands, ← hbranch, Operand.encode_eq_bytes]

/-! ### Writing -/

/-- The text writes an operand. -/
inductive Operand.Written : Operand Word → Text → Prop
  | register {r : Register} {s : Text} :
      Text.lower s = Text.lower r.name → Written (.register r) s
  | immediate {v : Word} {s : Text} : v.Spelled s → Written (.immediate v) s
  | memory {a : Word} {s : Text} : a.Spelled s → Written (.memory a) ('[' :: (s ++ [']']))

/-- The text writes an instruction, with as many operands as it has. -/
inductive Instruction.Written (i : Instruction Word) : Text → Prop
  | bare {mnemonic : Text} : Text.lower mnemonic = i.opcode.mnemonic → i.operands = [] →
      Written i mnemonic
  | one {mnemonic s : Text} {src : Operand Word} : Text.lower mnemonic = i.opcode.mnemonic →
      i.operands = [src] → src.Written s → Written i (mnemonic ++ ' ' :: s)
  | two {mnemonic s t : Text} {dst src : Operand Word} :
      Text.lower mnemonic = i.opcode.mnemonic → i.operands = [dst, src] →
      dst.Written s → src.Written t → Written i (mnemonic ++ ' ' :: (s ++ ',' :: ' ' :: t))

/-- The texts write the instructions, one after the other. -/
inductive Listing : List (Instruction Word) → List Text → Prop
  | nil : Listing [] []
  | cons {i : Instruction Word} {program : List (Instruction Word)} {s : Text} {texts : List Text} :
      i.Written s → Listing program texts → Listing (i :: program) (s :: texts)

theorem Operand.exists_written (o : Operand Word) : ∃ s, o.Written s := by
  cases o with
  | register r => exact ⟨r.name, .register rfl⟩
  | immediate v => exact ⟨_, .immediate v.spelled_self.1⟩
  | memory a => exact ⟨_, .memory a.spelled_self.1⟩

theorem Instruction.exists_written (i : Instruction Word) : ∃ s, i.Written s := by
  have hmnemonic := i.opcode.lower_mnemonic
  cases h : i.operands with
  | nil => exact ⟨_, .bare hmnemonic h⟩
  | cons first rest =>
    obtain ⟨s, hs⟩ := first.exists_written
    cases rest with
    | nil => exact ⟨_, .one hmnemonic h hs⟩
    | cons second more =>
      obtain ⟨t, ht⟩ := second.exists_written
      -- no instruction has three operands
      have hmore : more = [] := by
        cases i <;> simp [operands] at h <;> exact h.2.2
      rw [hmore] at h
      exact ⟨_, .two hmnemonic h hs ht⟩

/-- Every program has a listing. -/
theorem exists_listing (program : List (Instruction Word)) : ∃ texts, Listing program texts := by
  induction program with
  | nil => exact ⟨[], .nil⟩
  | cons i program ih =>
    obtain ⟨s, hs⟩ := i.exists_written
    obtain ⟨texts, htexts⟩ := ih
    exact ⟨s :: texts, .cons hs htexts⟩

/-! ### Solid texts -/

theorem Opcode.solid_of_lower {op : Opcode} {s : Text} (h : Text.lower s = op.mnemonic) :
    s.Solid := by
  have hmnemonic : op.mnemonic.all Text.isSolid = true ∧ op.mnemonic ≠ [] := by
    cases op with
    | arith op => cases op <;> decide
    | branch c => cases c <;> decide
    | _ => decide
  refine .of_lower ?_
  rw [h]
  exact ⟨hmnemonic.2, List.all_eq_true.1 hmnemonic.1⟩

theorem Register.solid_of_lower {r : Register} {s : Text}
    (h : Text.lower s = Text.lower r.name) : s.Solid := by
  have hname : (Text.lower r.name).all Text.isSolid = true ∧ Text.lower r.name ≠ [] := by
    cases r <;> decide
  refine .of_lower ?_
  rw [h]
  exact ⟨hname.2, List.all_eq_true.1 hname.1⟩

theorem Operand.Written.solid {o : Operand Word} {s : Text} (h : o.Written s) : s.Solid := by
  cases h with
  | register hr => exact Register.solid_of_lower hr
  | immediate hv => exact hv.solid
  | memory ha => exact .cons (by decide) (ha.solid.concat (by decide))

/-! ### Lines -/

namespace Text

/-- Does the character neither end a line or a part of it nor make a label of it? -/
def isInner (c : Char) : Bool := c != '\n' && c != ':' && !Line.isComment c

/-- A text that is a line as it stands, and neither a label nor a marker. -/
structure Tidy (s : Text) : Prop where
  ne_nil : s ≠ []
  trim : Text.trim s = s
  inner : s.all isInner = true

variable {s t : Text}

theorem isInner_of_isSolid {c : Char} (h : isSolid c = true) : isInner c = true := by
  have hnewline : c ≠ '\n' := ne_of_isSolid h (by decide)
  have hcolon : c ≠ ':' := ne_of_isSolid h (by decide)
  have hsemicolon : c ≠ ';' := ne_of_isSolid h (by decide)
  have hhash : c ≠ '#' := ne_of_isSolid h (by decide)
  simp [isInner, Line.isComment, hnewline, hcolon, hsemicolon, hhash]

theorem Solid.tidy (h : Solid s) : Tidy s where
  ne_nil := h.ne_nil
  trim := h.trim
  inner := List.all_eq_true.2 fun c hc => isInner_of_isSolid (h.solid c hc)

theorem Tidy.not_mem {c : Char} (h : Tidy s) (hc : isInner c = false) : c ∉ s := by
  intro hmem
  rw [List.all_eq_true.1 h.inner c hmem] at hc
  cases hc

/-- Tidy texts may be joined. -/
theorem Tidy.append (hs : Tidy s) (between : Text) (h : between.all isInner = true) (ht : Tidy t) :
    Tidy (s ++ (between ++ t)) where
  ne_nil := List.append_ne_nil_of_left_ne_nil hs.ne_nil _
  trim := by
    obtain ⟨hhead, -⟩ := trim_eq_self_iff.1 hs.trim
    obtain ⟨-, hlast⟩ := trim_eq_self_iff.1 ht.trim
    refine trim_eq_self ?_ ?_
    · intro c hc
      obtain ⟨d, rest, rfl⟩ := List.exists_cons_of_ne_nil hs.ne_nil
      exact hhead c hc
    · intro c hc
      rw [← List.append_assoc, List.getLast?_append] at hc
      cases hend : t.getLast? with
      | none => exact absurd (List.getLast?_eq_none_iff.1 hend) ht.ne_nil
      | some d =>
        rw [hend] at hc
        exact hlast c (hend ▸ hc)
  inner := by
    rw [List.all_append, List.all_append, hs.inner, h, ht.inner]
    rfl

theorem Tidy.content (h : Tidy s) : Line.content s = s := by
  refine Line.content_eq_self h.trim ?_
  intro c hc
  have hinner := List.all_eq_true.1 h.inner c hc
  rw [isInner, Bool.and_eq_true] at hinner
  simpa using hinner.2

theorem Tidy.stripEnd? (h : Tidy s) : Text.stripEnd? ':' s = none := by
  rw [stripEnd?_eq_none_iff]
  intro hlast
  exact h.not_mem (by decide) (List.mem_of_mem_getLast? hlast)

theorem Tidy.ofMarker? (h : Tidy s) : Section.ofMarker? s = none := by
  have hcolon (m : Section) : ':' ∈ m.marker := by cases m <;> decide
  have hne (m : Section) : s ≠ m.marker := by
    rintro rfl
    exact h.not_mem (by decide) (hcolon m)
  rw [Section.ofMarker?, if_neg (hne _), if_neg (hne _)]

end Text

theorem Instruction.Written.tidy {i : Instruction Word} {s : Text} (h : i.Written s) : s.Tidy := by
  cases h with
  | bare hm hi => exact (Opcode.solid_of_lower hm).tidy
  | one hm hi hs =>
    exact Text.Tidy.append (Opcode.solid_of_lower hm).tidy [' '] rfl hs.solid.tidy
  | two hm hi hs ht =>
    have hlist := Text.Tidy.append hs.solid.tidy [',', ' '] rfl ht.solid.tidy
    exact Text.Tidy.append (Opcode.solid_of_lower hm).tidy [' '] rfl hlist

/-! ### Reading back -/

/-- The operand of a text is the operand of the machine: its text is a number, with this value. -/
inductive Operand.Denotes : Operand Text → Operand Word → Prop
  | register (r : Register) : Denotes (.register r) (.register r)
  | immediate {t : Text} {v : Word} :
      Text.number? t = some v → Denotes (.immediate t) (.immediate v)
  | memory {t : Text} {a : Word} : Text.number? t = some a → Denotes (.memory t) (.memory a)

/-- Numbers are found in every layout. -/
theorem Layout.value_of_number? {t : Text} {v : Word} (h : Text.number? t = some v)
    (layout : Layout) : layout.value t = .ok v := by
  rw [value, resolve, h]

theorem Operand.Denotes.resolve {o : Operand Text} {o' : Operand Word} (h : o.Denotes o')
    (layout : Layout) : o.resolve layout.value = .ok o' := by
  cases h with
  | register r => rfl
  | immediate hv =>
    rw [Operand.resolve, Layout.value_of_number? hv]
    rfl
  | memory ha =>
    rw [Operand.resolve, Layout.value_of_number? ha]
    rfl

theorem Operand.Denotes.exists_direct {o : Operand Text} {d : Direct Word}
    (h : o.Denotes d.toOperand) :
    ∃ d', o = Direct.toOperand d' ∧ ∀ layout : Layout, d'.resolve layout.value = .ok d := by
  cases d with
  | register r =>
    cases h with
    | register => exact ⟨.register r, rfl, fun layout => rfl⟩
  | immediate v =>
    cases h with
    | @immediate t _ hv =>
      refine ⟨.immediate t, rfl, ?_⟩
      intro layout
      rw [Direct.resolve, Layout.value_of_number? hv]
      rfl

theorem Word.Spelled.ofName?_eq_none {v : Word} {s : Text} (h : v.Spelled s) :
    Register.ofName? s = none ∧ ∀ rest, s ≠ '[' :: rest := by
  have htrim := h.solid.trim
  obtain ⟨c, rest, rfl, hc⟩ := h.head
  have hlower : c.toLower = c ∧ c ≠ 'r' ∧ c ≠ 'i' ∧ c ≠ '[' := by
    rcases hc with rfl | hdigit
    · decide
    · have hle : c.toNat ≤ 57 := by
        rw [Char.isDigit, Bool.and_eq_true] at hdigit
        exact of_decide_eq_true hdigit.2
      exact Text.forall_of_toNat_lt
        (p := fun c => c.isDigit = true → c.toLower = c ∧ c ≠ 'r' ∧ c ≠ 'i' ∧ c ≠ '[')
        (by decide) (Nat.lt_succ_of_le hle) hdigit
  obtain ⟨hself, hr, hi, hbracket⟩ := hlower
  refine ⟨Register.ofName?_eq_none htrim (by rwa [hself]) (by rwa [hself]), ?_⟩
  intro rest' heq
  cases heq
  exact hbracket rfl

/-- An operand that is written is read, with blanks before it or without. -/
theorem Operand.Written.denotes {o : Operand Word} {s t : Text} (h : o.Written s)
    (ht : Text.trim t = s) : (Operand.ofText t).Denotes o := by
  have htrim := h.solid.trim
  unfold Operand.ofText
  rw [ht]
  dsimp only
  -- registers are tried first and brackets next, so a numeral has to be neither
  cases h with
  | @register r _ hr =>
    have hname : Register.ofName? s = some r := by
      have hsame : Text.lower (Text.trim s) = Text.lower (Text.trim r.name) := by
        rw [htrim, hr]
        cases r <;> rfl
      rw [← Register.ofName?_name r, Register.ofName?, Register.ofName?, hsame]
    rw [hname]
    exact .register r
  | immediate hv =>
    obtain ⟨hname, hbracket⟩ := hv.ofName?_eq_none
    rw [hname]
    dsimp only
    split
    · rename_i rest
      exact absurd rfl (hbracket rest)
    · exact .immediate hv.number?
  | @memory a address ha =>
    have hname : Register.ofName? ('[' :: (address ++ [']'])) = none :=
      Register.ofName?_eq_none htrim (by decide) (by decide)
    have hstrip : Text.stripEnd? ']' (address ++ [']']) = some address :=
      Text.stripEnd?_eq_some_iff.2 rfl
    rw [hname]
    simp only [hstrip, ha.solid.trim]
    exact .memory ha.number?

namespace Instruction

variable {i : Instruction Word}

/-- An instruction is read off its operands if they are read. -/
theorem exists_of_bare (hi : i.operands = []) :
    ∃ i' : Instruction Text, ofOperands i.opcode [] = .ok i' ∧
      ∀ layout : Layout, i'.resolve layout.value = .ok i := by
  cases i with
  | nop => exact ⟨.nop, rfl, fun layout => rfl⟩
  | syscall => exact ⟨.syscall, rfl, fun layout => rfl⟩
  | _ => cases hi

theorem exists_of_one {o : Operand Text} {src : Operand Word} (hi : i.operands = [src])
    (h : o.Denotes src) :
    ∃ i' : Instruction Text, ofOperands i.opcode [o] = .ok i' ∧
      ∀ layout : Layout, i'.resolve layout.value = .ok i := by
  cases i with
  | branch c target =>
    cases hi
    obtain ⟨target', rfl, htarget⟩ := h.exists_direct
    refine ⟨.branch c target', ofOperands_operands (.branch c target'), ?_⟩
    intro layout
    rw [resolve, htarget]
    rfl
  | _ => cases hi

theorem exists_of_two {o p : Operand Text} {dst src : Operand Word}
    (hi : i.operands = [dst, src]) (ho : o.Denotes dst) (hp : p.Denotes src) :
    ∃ i' : Instruction Text, ofOperands i.opcode [o, p] = .ok i' ∧
      ∀ layout : Layout, i'.resolve layout.value = .ok i := by
  cases i with
  | move dst src =>
    cases hi
    cases ho
    refine ⟨.move dst p, rfl, ?_⟩
    intro layout
    rw [resolve, hp.resolve]
    rfl
  | store address src =>
    cases hi
    cases ho with
    | @memory t _ ha =>
      obtain ⟨src', rfl, hsrc⟩ := hp.exists_direct
      refine ⟨.store t src', ofOperands_operands (.store t src'), ?_⟩
      intro layout
      rw [resolve, Layout.value_of_number? ha, Except.bind, hsrc]
      rfl
  | arith op dst src =>
    cases hi
    cases ho
    refine ⟨.arith op dst p, rfl, ?_⟩
    intro layout
    rw [resolve, hp.resolve]
    rfl
  | cmp left right =>
    cases hi
    cases ho
    refine ⟨.cmp left p, rfl, ?_⟩
    intro layout
    rw [resolve, hp.resolve]
    rfl
  | _ => cases hi

/-- A list of operands that ends in a solid text is cut at its commas. -/
theorem listOfText_of_solid (front : Text) {last : Text} (hlast : last.Solid) :
    Operand.listOfText (front ++ last) =
      (Text.pieces ',' (front ++ last)).map Operand.ofText := by
  have hne : front ++ last ≠ [] := List.append_ne_nil_of_right_ne_nil _ hlast.ne_nil
  have hcomma : Text.stripEnd? ',' (front ++ last) = none := by
    rw [Text.stripEnd?_eq_none_iff, List.getLast?_append]
    cases hend : last.getLast? with
    | none => exact absurd (List.getLast?_eq_none_iff.1 hend) hlast.ne_nil
    | some c =>
      intro hc
      cases hc
      exact hlast.not_mem (by decide) (List.mem_of_mem_getLast? hend)
  rw [Operand.listOfText, if_neg hne, hcomma]
  rfl

/-- A mnemonic does not end within a solid text. -/
theorem endsMnemonic_of_solid {s : Text} (h : s.Solid) : ∀ c ∈ s, endsMnemonic c = false := by
  intro c hc
  have hspace : c ≠ ' ' := Text.ne_of_isSolid (h.solid c hc) (by decide)
  have htab : c ≠ '\t' := Text.ne_of_isSolid (h.solid c hc) (by decide)
  simp [endsMnemonic, hspace, htab]

/-- The mnemonic is what stands before the first blank. -/
theorem splitMnemonic_of_solid {mnemonic rest : Text} (hm : mnemonic.Solid)
    (hrest : Text.trim rest = rest) :
    splitMnemonic (mnemonic ++ ' ' :: rest) = (mnemonic, rest) := by
  rw [splitMnemonic, Text.cut?_append (endsMnemonic_of_solid hm) (by decide)]
  dsimp only
  rw [hrest]

/-- An instruction that is written is read. -/
theorem Written.exists_ofText {s : Text} (h : i.Written s) :
    ∃ i' : Instruction Text, Instruction.ofText s = .ok i' ∧
      ∀ layout : Layout, i'.resolve layout.value = .ok i := by
  unfold Instruction.ofText
  cases h with
  | bare hm hi =>
    have hblank := endsMnemonic_of_solid (Opcode.solid_of_lower hm)
    have hsplit : splitMnemonic s = (s, []) := by
      rw [splitMnemonic, Text.cut?_eq_none_iff.2 hblank]
    rw [hsplit]
    dsimp only
    rw [Opcode.ofMnemonic?_eq_some_iff.2 hm]
    exact exists_of_bare hi
  | @one mnemonic t src hm hi ht =>
    have hpieces : Text.pieces ',' t = [t] :=
      Text.pieces_of_not_mem (ht.solid.not_mem (by decide))
    have hlist : Operand.listOfText t = [Operand.ofText t] := by
      have hcut := listOfText_of_solid [] ht.solid
      rwa [List.nil_append, hpieces] at hcut
    rw [splitMnemonic_of_solid (Opcode.solid_of_lower hm) ht.solid.trim]
    dsimp only
    rw [Opcode.ofMnemonic?_eq_some_iff.2 hm, hlist]
    exact exists_of_one hi (ht.denotes ht.solid.trim)
  | @two mnemonic t u dst src hm hi ht hu =>
    have htidy : Text.Tidy (t ++ ',' :: ' ' :: u) :=
      Text.Tidy.append ht.solid.tidy [',', ' '] rfl hu.solid.tidy
    have hpieces : Text.pieces ',' (t ++ ',' :: ' ' :: u) = [t, ' ' :: u] := by
      have hblank : ',' ∉ ' ' :: u := by
        rw [List.mem_cons, not_or]
        exact ⟨by decide, hu.solid.not_mem (by decide)⟩
      rw [Text.pieces_append_cons, Text.pieces_of_not_mem (ht.solid.not_mem (by decide)),
        Text.pieces_of_not_mem hblank]
      rfl
    have hlist : Operand.listOfText (t ++ ',' :: ' ' :: u) =
        [Operand.ofText t, Operand.ofText (' ' :: u)] := by
      have hcut := listOfText_of_solid (t ++ [',', ' ']) hu.solid
      rw [List.append_assoc] at hcut
      exact hcut.trans (congrArg _ hpieces)
    have hblank : Text.trim (' ' :: u) = u := hu.solid.trim
    rw [splitMnemonic_of_solid (Opcode.solid_of_lower hm) htidy.trim]
    dsimp only
    rw [Opcode.ofMnemonic?_eq_some_iff.2 hm, hlist]
    exact exists_of_two hi (ht.denotes ht.solid.trim) (hu.denotes hblank)

/-- In the main section, the line of an instruction states that instruction. -/
theorem Written.exists_states {s : Text} (h : i.Written s) :
    ∃ i' : Instruction Text, Statement.ofText (some .main) s = .ok (.instruction i') ∧
      ∀ layout : Layout, i'.resolve layout.value = .ok i := by
  obtain ⟨i', hi', hresolve⟩ := h.exists_ofText
  refine ⟨i', ?_, hresolve⟩
  rw [Statement.ofText, h.tidy.ofMarker?]
  show Statement.ofMain s = _
  rw [Statement.ofMain, h.tidy.stripEnd?, hi']
  rfl

end Instruction

/-! ### Assembling -/

section

variable {program : List (Instruction Word)} {texts : List Text}

/-- The first reading goes over a listing and finds no declaration. -/
theorem Listing.exists_draft (h : Listing program texts) (n : Nat) (draft : Draft)
    (hmain : draft.current = some .main)
    (hsize : draft.codeSize + (program.flatMap Instruction.encode).length < Draft.addressLimit) :
    ∃ next, draft.addLines (Line.numberFrom n texts) = .ok next ∧
      next.declarations = draft.declarations := by
  induction h generalizing n draft with
  | nil => exact ⟨draft, rfl, rfl⟩
  | @cons i program s texts hs _ ih =>
    obtain ⟨i', hstatement, hresolve⟩ := hs.exists_states
    have hsize' : i.size = i'.size := Instruction.size_resolve (hresolve ⟨0, 0, [], [], false⟩)
    rw [List.flatMap_cons, List.length_append, Instruction.length_encode, hsize'] at hsize
    -- an instruction leaves the reading in its section, and needs nothing but an address
    rw [← hmain] at hstatement
    have hadmits : draft.Admits (.instruction i') := by
      show draft.codeSize + i'.size < Draft.addressLimit
      omega
    have hline : draft.addLine ⟨n, s⟩ = .ok (draft.extend n (.instruction i')) :=
      Draft.addLine_of_admits hstatement hadmits
    have hrest : (draft.extend n (.instruction i')).codeSize +
        (program.flatMap Instruction.encode).length < Draft.addressLimit := by
      show draft.codeSize + (i'.size + 0) + _ < _
      omega
    obtain ⟨next, hnext, hdeclarations⟩ :=
      ih (n + 1) (draft.extend n (.instruction i')) hmain hrest
    refine ⟨next, ?_, hdeclarations.trans (List.append_nil _)⟩
    rw [Line.numberFrom_of_content hs.tidy.ne_nil hs.tidy.content, Draft.addLines, hline]
    exact hnext

/-- The second reading writes the bytes of a listing, whatever the layout. -/
theorem Listing.exists_emission (layout : Layout) (h : Listing program texts) (n : Nat)
    (e : Emission) (hmain : e.current = some .main) :
    ∃ next, e.addLines layout (Line.numberFrom n texts) = .ok next ∧
      next.code.toList = e.code.toList ++ program.flatMap Instruction.encode := by
  induction h generalizing n e with
  | nil => exact ⟨e, rfl, by simp⟩
  | @cons i program s texts hs _ ih =>
    obtain ⟨i', hstatement, hresolve⟩ := hs.exists_states
    rw [← hmain] at hstatement
    have hline : e.addLine layout ⟨n, s⟩ =
        .ok { e with code := e.code.appendList i.encode } := by
      rw [Emission.addLine, hstatement, Except.bind, Emission.add, hresolve]
    obtain ⟨next, hnext, hcode⟩ :=
      ih (n + 1) { e with code := e.code.appendList i.encode } hmain
    refine ⟨next, ?_, ?_⟩
    · rw [Line.numberFrom_of_content hs.tidy.ne_nil hs.tidy.content, Emission.addLines, hline]
      exact hnext
    · rw [hcode]
      simp

/-- The lines of a listing assemble to its bytes. -/
theorem Listing.assembleLines (h : Listing program texts)
    (hsize : (program.flatMap Instruction.encode).length < Draft.addressLimit) :
    RegisterMachine.assembleLines (⟨1, Section.main.marker⟩ :: Line.numberFrom 2 texts) =
      .ok ⟨0, program.flatMap Instruction.encode, []⟩ := by
  have hmarker (current : Option Section) :
      Statement.ofText current Section.main.marker = .ok (.marker .main) :=
    Statement.ofText_marker current .main
  have hroom : (Draft.empty.extend 1 (.marker .main)).codeSize +
      (program.flatMap Instruction.encode).length < Draft.addressLimit := by
    show 0 + _ < _
    rwa [Nat.zero_add]
  obtain ⟨draft, hdraft, hdeclarations⟩ :=
    h.exists_draft 2 (Draft.empty.extend 1 (.marker .main)) rfl hroom
  have hlayout : Layout.ofLines (⟨1, Section.main.marker⟩ :: Line.numberFrom 2 texts) =
      .ok ⟨draft.codeSize, 0, draft.labels, [], draft.hasMain⟩ := by
    have hfirst : Draft.empty.addLine ⟨1, Section.main.marker⟩ =
        .ok (Draft.empty.extend 1 (.marker .main)) :=
      Draft.addLine_of_admits (hmarker none) trivial
    have hnone : draft.declarations = [] := hdeclarations
    rw [Layout.ofLines, Draft.ofLines, Draft.addLines, hfirst, Except.bind, hdraft, Except.bind,
      Layout.ofDraft, hnone]
    rfl
  obtain ⟨emission, hemission, hcode⟩ :=
    h.exists_emission ⟨draft.codeSize, 0, draft.labels, [], draft.hasMain⟩ 2
      { Emission.empty with current := some .main } rfl
  have hread : Emission.ofLines ⟨draft.codeSize, 0, draft.labels, [], draft.hasMain⟩
      (⟨1, Section.main.marker⟩ :: Line.numberFrom 2 texts) = .ok emission := by
    rw [Emission.ofLines, Emission.addLines, Emission.addLine, hmarker]
    exact hemission
  rw [assembleLines_of_ok hlayout hread, hcode]
  rfl

theorem Listing.tidy (h : Listing program texts) : ∀ s ∈ texts, s.Tidy := by
  induction h with
  | nil =>
    intro s hs
    cases hs
  | cons hs _ ih =>
    intro t ht
    rcases List.mem_cons.1 ht with rfl | ht
    · exact hs.tidy
    · exact ih t ht

/-- The text of a listing: the marker of the main section, and a line for each instruction. -/
def listingText (texts : List Text) : Text := ['\n'].intercalate (Section.main.marker :: texts)

/-- The meaningful lines of such a text, whether its last line is ended or not. -/
theorem Listing.ofText (h : Listing program texts) {ending : Text}
    (hending : ending = [] ∨ ending = ['\n']) :
    Line.ofText (listingText texts ++ ending) =
      ⟨1, Section.main.marker⟩ :: Line.numberFrom 2 texts := by
  have hpieces : Text.pieces '\n' (listingText texts) = Section.main.marker :: texts := by
    refine Text.pieces_intercalate ?_
    intro s hs
    rcases List.mem_cons.1 hs with rfl | hs
    · decide
    · exact (h.tidy s hs).not_mem (by decide)
  rw [Line.ofText]
  rcases hending with rfl | rfl
  · rw [List.append_nil, hpieces]
    rfl
  · rw [Text.pieces_append_cons, hpieces, Line.numberFrom_append]
    exact List.append_nil _

/-- Every program of the machine whose bytes have addresses can be written as a listing, and
however that is done, it is assembled to the bytes of its instructions, which are prescribed by
their operations and operands, and to no data. -/
theorem assemble_listing (program : List (Instruction Word))
    (hsize : (program.flatMap Instruction.bytes).length < 4294967296) :
    (∃ texts, Listing program texts) ∧
      ∀ texts, Listing program texts → ∀ ending : Text, ending = [] ∨ ending = ['\n'] →
        assemble (String.ofList (listingText texts ++ ending)) =
          .ok { entry := 0, code := program.flatMap Instruction.bytes, data := [] } := by
  have hbytes : program.flatMap Instruction.encode = program.flatMap Instruction.bytes := by
    rw [funext Instruction.encode_eq_bytes]
  refine ⟨exists_listing program, ?_⟩
  intro texts htexts ending hending
  rw [assemble, String.toList_ofList, htexts.ofText hending, ← hbytes]
  refine htexts.assembleLines ?_
  rw [hbytes]
  exact hsize

end

/-- A program with operands of every kind. -/
def mixed : List (Instruction Word) :=
  [.move .r1 (.immediate 0xFFFFFFFF), .store 16 (.register .rF), .cmp .ip (.memory 16),
    .branch .notEqual (.immediate 171), .syscall]

/-- The program in a mixture of cases and bases. -/
def mixedTexts : List Text :=
  ["MOV R1, -1".toList, "mov [0x10], Rf".toList, "Cmp iP, [016]".toList, "jNeQ 0X00aB".toList,
    "SYScall".toList]

theorem listing_mixed : Listing mixed mixedTexts := by
  have hminus : Word.Spelled 0xFFFFFFFF ['-', '1'] := .negative 0 1 (by decide) (by decide)
  have hhex : Word.Spelled 16 ['0', 'x', '1', '0'] :=
    .hexadecimal 'x' ['1', '0'] 0 16 (Or.inl rfl) (by decide) (by decide) (by decide)
  have hzero : Word.Spelled 16 ['0', '1', '6'] := .decimal 1 16 (by decide) (by decide)
  have hupper : Word.Spelled 171 ['0', 'X', '0', '0', 'a', 'B'] :=
    .hexadecimal 'X' ['0', '0', 'a', 'B'] 2 171 (Or.inr rfl) (by decide) (by decide) (by decide)
  have hr1 : Operand.Written (.register .r1) ['R', '1'] := .register rfl
  have hrF : Operand.Written (.register .rF) ['R', 'f'] := .register rfl
  have hip : Operand.Written (.register .ip) ['i', 'P'] := .register rfl
  have hmove : (Instruction.move .r1 (.immediate 0xFFFFFFFF)).Written
      ("MOV".toList ++ ' ' :: (['R', '1'] ++ ',' :: ' ' :: ['-', '1'])) :=
    .two rfl rfl hr1 (.immediate hminus)
  have hstore : (Instruction.store 16 (.register .rF)).Written
      ("mov".toList ++ ' ' :: ("[0x10]".toList ++ ',' :: ' ' :: ['R', 'f'])) :=
    .two rfl rfl (.memory hhex) hrF
  have hcmp : (Instruction.cmp .ip (.memory 16)).Written
      ("Cmp".toList ++ ' ' :: (['i', 'P'] ++ ',' :: ' ' :: "[016]".toList)) :=
    .two rfl rfl hip (.memory hzero)
  have hbranch : (Instruction.branch .notEqual (.immediate 171)).Written
      ("jNeQ".toList ++ ' ' :: ['0', 'X', '0', '0', 'a', 'B']) :=
    .one rfl rfl (.immediate hupper)
  exact .cons hmove (.cons hstore (.cons hcmp (.cons hbranch (.cons (.bare rfl rfl) .nil))))

theorem assemble_listing_mixed :
    (mixed.flatMap Instruction.bytes).length < 4294967296 ∧
      assemble "_main:\nMOV R1, -1\nmov [0x10], Rf\nCmp iP, [016]\njNeQ 0X00aB\nSYScall\n" =
        .ok ⟨0, [1, 0x12, 0, 255, 255, 255, 255, 1, 0x31, 16, 0, 0, 0, 9, 5, 0x13, 8, 16, 0, 0, 0,
          8, 2, 171, 0, 0, 0, 11], []⟩ := by
  have hsize : (mixed.flatMap Instruction.bytes).length < 4294967296 := by decide
  obtain ⟨-, hassemble⟩ := assemble_listing mixed hsize
  exact ⟨hsize, hassemble mixedTexts listing_mixed ['\n'] (Or.inr rfl)⟩

end RegisterMachine
