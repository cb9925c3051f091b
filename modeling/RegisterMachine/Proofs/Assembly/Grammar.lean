import Mathlib.Data.List.Forall2
import RegisterMachine.Proofs.Text.Identifier
import RegisterMachine.Source.Statement

/-!
# RegisterMachine.Proofs.Assembly.Grammar

The grammar of a line in the main section. A line is a mnemonic and a list of
operands, of which the last one may have a superfluous comma behind it
(`Grammar.Spells`). Whether they make an instruction is a matter of three
questions, asked in this order: is the mnemonic known, does the operation take
so many operands, and does it take operands of these kinds
(`Grammar.Reading`).

The relations say how a text is put together, while the parser takes it apart.
Each of them is the same as one function of the parser, which is shown next to
it; the last step is `Grammar.ofText_eq_iff`.
-/

namespace RegisterMachine

/-! ### What an operation takes -/

namespace Opcode

/-- How many operands an operation takes. -/
def arity : Opcode → Nat
  | nop => 0
  | syscall => 0
  | branch _ => 1
  | mov => 2
  | arith _ => 2
  | cmp => 2

/-- The kinds of operands that an operation takes. -/
inductive Allows : Opcode → List OperandKind → Prop
  | nop : Allows nop []
  | syscall : Allows syscall []
  | branch {c : Condition} {k : OperandKind} : k ≠ .memory → Allows (branch c) [k]
  | move {k : OperandKind} : Allows mov [.register, k]
  | store {k : OperandKind} : k ≠ .memory → Allows mov [.memory, k]
  | arith {op : Arith} {k : OperandKind} : Allows (arith op) [.register, k]
  | cmp {k : OperandKind} : Allows cmp [.register, k]

/-- What is wrong with operands of the kinds that an operation does not take, if their number is
right. -/
inductive Forbids : Opcode → List OperandKind → Cause → Prop
  | branch {c : Condition} : Forbids (branch c) [.memory] .branchToMemory
  | move {k l : OperandKind} : k ≠ .register → k ≠ .memory → Forbids mov [k, l] .moveDestination
  | store : Forbids mov [.memory, .memory] .moveMemoryToMemory
  | arith {op : Arith} {k l : OperandKind} : k ≠ .register →
      Forbids (arith op) [k, l] (.arithDestination op)
  | cmp {k l : OperandKind} : k ≠ .register → Forbids cmp [k, l] .compareLeft

theorem Allows.not_forbids {op : Opcode} {ks : List OperandKind} {cause : Cause}
    (h : op.Allows ks) : ¬op.Forbids ks cause := by
  intro hf
  cases h with
  | nop => cases hf
  | syscall => cases hf
  | branch hk =>
    cases hf
    exact hk rfl
  | move =>
    cases hf with
    | move hr => exact hr rfl
  | store hk =>
    cases hf with
    | move _ hm => exact hm rfl
    | store => exact hk rfl
  | arith =>
    cases hf with
    | arith hr => exact hr rfl
  | cmp =>
    cases hf with
    | cmp hr => exact hr rfl

theorem Forbids.unique {op : Opcode} {ks : List OperandKind} {cause cause' : Cause}
    (h : op.Forbids ks cause) (h' : op.Forbids ks cause') : cause = cause' := by
  cases h with
  | move hr hm =>
    cases h' with
    | move => rfl
    | store => exact absurd rfl hm
  | store =>
    cases h' with
    | move _ hm => exact absurd rfl hm
    | store => rfl
  | branch => cases h'; rfl
  | arith => cases h'; rfl
  | cmp => cases h'; rfl

end Opcode

namespace Grammar

variable {s mnemonic rest : Text} {texts : List Text} {op : Opcode} {os : List (Operand Text)}
  {r r' : Except Cause (Instruction Text)}

/-! ### An operation and its operands -/

/-- What becomes of an operation with a list of operands. -/
inductive Verdict (op : Opcode) (os : List (Operand Text)) :
    Except Cause (Instruction Text) → Prop
  | count : os.length ≠ op.arity → Verdict op os (.error (.operandCount op op.arity os.length))
  | kinds {cause : Cause} : os.length = op.arity → op.Forbids (os.map Operand.kind) cause →
      Verdict op os (.error cause)
  | legal {i : Instruction Text} : os.length = op.arity → op.Allows (os.map Operand.kind) →
      i.opcode = op → i.operands = os → Verdict op os (.ok i)

theorem Verdict.unique (h : Verdict op os r) (h' : Verdict op os r') : r = r' := by
  cases h with
  | count hlen =>
    cases h' with
    | count => rfl
    | kinds hlen' => exact absurd hlen' hlen
    | legal hlen' => exact absurd hlen' hlen
  | kinds hlen hkinds =>
    cases h' with
    | count hlen' => exact absurd hlen hlen'
    | kinds _ hkinds' => rw [hkinds.unique hkinds']
    | legal _ hallows => exact absurd hkinds hallows.not_forbids
  | legal hlen hallows hop hos =>
    cases h' with
    | count hlen' => exact absurd hlen hlen'
    | kinds _ hkinds => exact absurd hkinds hallows.not_forbids
    | legal _ _ hop' hos' =>
      -- an instruction is determined by its operation and its operands
      have hown (j : Instruction Text) := Instruction.ofOperands_operands j
      rw [← hown, ← hown, hop, hos, hop', hos']

theorem verdict_of_length_ne (h : os.length ≠ op.arity) :
    Verdict op os (Instruction.ofOperands op os) := by
  have hcount : Instruction.ofOperands op os =
      .error (.operandCount op op.arity os.length) := by
    unfold Instruction.ofOperands
    split
    all_goals try exact absurd rfl h
    cases op <;> rfl
  rw [hcount]
  exact .count h

theorem verdict_ofOperands (op : Opcode) (os : List (Operand Text)) :
    Verdict op os (Instruction.ofOperands op os) := by
  have hrm : OperandKind.register ≠ .memory := by decide
  have hir : OperandKind.immediate ≠ .register := by decide
  have him : OperandKind.immediate ≠ .memory := by decide
  have hmr : OperandKind.memory ≠ .register := by decide
  by_cases hlen : os.length = op.arity
  · cases op with
    | nop =>
      obtain rfl := List.length_eq_zero_iff.1 hlen
      exact .legal rfl .nop rfl rfl
    | syscall =>
      obtain rfl := List.length_eq_zero_iff.1 hlen
      exact .legal rfl .syscall rfl rfl
    | branch c =>
      obtain ⟨target, rfl⟩ := List.length_eq_one_iff.1 hlen
      cases target with
      | register r => exact .legal rfl (.branch hrm) rfl rfl
      | immediate v => exact .legal rfl (.branch him) rfl rfl
      | memory a => exact .kinds rfl .branch
    | mov =>
      obtain ⟨dst, src, rfl⟩ := List.length_eq_two.1 hlen
      cases dst with
      | register r => exact .legal rfl .move rfl rfl
      | immediate v => exact .kinds rfl (.move hir him)
      | memory a =>
        cases src with
        | register r => exact .legal rfl (.store hrm) rfl rfl
        | immediate v => exact .legal rfl (.store him) rfl rfl
        | memory b => exact .kinds rfl .store
    | arith op =>
      obtain ⟨dst, src, rfl⟩ := List.length_eq_two.1 hlen
      cases dst with
      | register r => exact .legal rfl .arith rfl rfl
      | immediate v => exact .kinds rfl (.arith hir)
      | memory a => exact .kinds rfl (.arith hmr)
    | cmp =>
      obtain ⟨left, right, rfl⟩ := List.length_eq_two.1 hlen
      cases left with
      | register r => exact .legal rfl .cmp rfl rfl
      | immediate v => exact .kinds rfl (.cmp hir)
      | memory a => exact .kinds rfl (.cmp hmr)
  · exact verdict_of_length_ne hlen

/-! ### The parts of a line -/

/-- The mnemonic of a line is what stands before the first space or tab; the rest is trimmed. -/
inductive Heads : Text → Text → Text → Prop
  | alone {s : Text} : (∀ c ∈ s, c ≠ ' ' ∧ c ≠ '\t') → Heads s s []
  | followed {mnemonic tail : Text} {c : Char} : (∀ d ∈ mnemonic, d ≠ ' ' ∧ d ≠ '\t') →
      c = ' ' ∨ c = '\t' → Heads (mnemonic ++ c :: tail) mnemonic (Text.trim tail)

/-- The texts of the operands stand between commas. There are none in an empty list, and behind
the last one there may be one more comma. -/
inductive Lists : Text → List Text → Prop
  | nothing : Lists [] []
  | closed {t : Text} {ts : List Text} : (∀ u ∈ t :: ts, ',' ∉ u) →
      [','].intercalate (t :: ts) ≠ [] → ([','].intercalate (t :: ts)).getLast? ≠ some ',' →
      Lists ([','].intercalate (t :: ts)) (t :: ts)
  | trailing {t : Text} {ts : List Text} : (∀ u ∈ t :: ts, ',' ∉ u) →
      Lists ([','].intercalate (t :: ts) ++ [',']) (t :: ts)

/-- A text writes an operand: the name of a register, in any case; something in brackets; or
anything else. -/
inductive Writes (s : Text) : Operand Text → Prop
  | register {r : Register} : Text.lower (Text.trim s) = Text.lower r.name → Writes s (.register r)
  | memory {address : Text} : Text.trim s = '[' :: (address ++ [']']) →
      Writes s (.memory (Text.trim address))
  | immediate : (∀ r : Register, Text.lower (Text.trim s) ≠ Text.lower r.name) →
      (∀ address, Text.trim s ≠ '[' :: (address ++ [']'])) → Writes s (.immediate (Text.trim s))

/-- A line is put together from a mnemonic and operands. -/
def Spells (s mnemonic : Text) (os : List (Operand Text)) : Prop :=
  ∃ rest texts, Heads s mnemonic rest ∧ Lists rest texts ∧ List.Forall₂ Writes texts os

theorem endsMnemonic_iff {c : Char} :
    Instruction.endsMnemonic c = true ↔ c = ' ' ∨ c = '\t' := by
  rw [Instruction.endsMnemonic, Bool.or_eq_true, beq_iff_eq, beq_iff_eq]

theorem endsMnemonic_eq_false_iff {c : Char} :
    Instruction.endsMnemonic c = false ↔ c ≠ ' ' ∧ c ≠ '\t' := by
  rw [← Bool.not_eq_true, endsMnemonic_iff, not_or]

theorem heads_iff : Heads s mnemonic rest ↔ Instruction.splitMnemonic s = (mnemonic, rest) := by
  constructor
  · intro h
    cases h with
    | alone hs =>
      have hcut : Text.cut? Instruction.endsMnemonic s = none :=
        Text.cut?_eq_none_iff.2 fun c hc => endsMnemonic_eq_false_iff.2 (hs c hc)
      rw [Instruction.splitMnemonic, hcut]
    | followed hm hc =>
      rw [Instruction.splitMnemonic, Text.cut?_append
        (fun d hd => endsMnemonic_eq_false_iff.2 (hm d hd)) (endsMnemonic_iff.2 hc)]
  · intro h
    unfold Instruction.splitMnemonic at h
    split at h
    · rename_i hcut
      cases h
      obtain ⟨c, rfl, hc, hm⟩ := Text.eq_append_of_cut? hcut
      exact .followed (fun d hd => endsMnemonic_eq_false_iff.1 (hm d hd)) (endsMnemonic_iff.1 hc)
    · rename_i hcut
      cases h
      exact .alone fun c hc => endsMnemonic_eq_false_iff.1 (Text.cut?_eq_none_iff.1 hcut c hc)

/-- The texts of the operands, as the parser finds them. -/
theorem lists_iff :
    Lists rest texts ↔
      (if rest = [] then [] else Text.pieces ',' ((Text.stripEnd? ',' rest).getD rest)) =
        texts := by
  constructor
  · intro h
    cases h with
    | nothing => rfl
    | closed hclean hne hlast =>
      rw [if_neg hne, Text.stripEnd?_eq_none_iff.2 hlast]
      exact Text.pieces_intercalate hclean
    | trailing hclean =>
      rw [if_neg (List.append_ne_nil_of_right_ne_nil _ (List.cons_ne_nil _ _)),
        Text.stripEnd?_eq_some_iff.2 rfl]
      exact Text.pieces_intercalate hclean
  · rintro rfl
    split
    · rename_i hrest
      rw [hrest]
      exact .nothing
    · rename_i hrest
      generalize hbody : (Text.stripEnd? ',' rest).getD rest = body
      obtain ⟨t, ts, hts⟩ := List.exists_cons_of_ne_nil (Text.pieces_ne_nil ',' body)
      have hclean : ∀ u ∈ t :: ts, ',' ∉ u := fun u hu =>
        Text.not_mem_of_mem_pieces (hts ▸ hu)
      have hjoin : [','].intercalate (t :: ts) = body := hts ▸ Text.intercalate_pieces ',' body
      rw [hts]
      cases hstrip : Text.stripEnd? ',' rest with
      | none =>
        obtain rfl : rest = body := by rw [← hbody, hstrip]; rfl
        have hlast := Text.stripEnd?_eq_none_iff.1 hstrip
        rw [← hjoin] at hrest hlast ⊢
        exact .closed hclean hrest hlast
      | some before =>
        obtain rfl : before = body := by rw [← hbody, hstrip]; rfl
        rw [Text.stripEnd?_eq_some_iff.1 hstrip, ← hjoin]
        exact .trailing hclean

/-- The register that is named, as the parser finds it. -/
theorem ofName?_trim_eq_some_iff {s : Text} {reg : Register} :
    Register.ofName? (Text.trim s) = some reg ↔ Text.lower (Text.trim s) = Text.lower reg.name := by
  constructor
  · intro h
    have hfound := List.find?_some h
    rw [Text.trim_trim] at hfound
    exact (beq_iff_eq.1 hfound).symm
  · intro h
    have hname : Text.trim reg.name = reg.name := by cases reg <;> decide
    have hown := Register.ofName?_name reg
    unfold Register.ofName? at hown ⊢
    rwa [hname, ← h, ← Text.trim_trim s] at hown

theorem ofText_of_bracket {s address : Text} (h : Text.trim s = '[' :: (address ++ [']'])) :
    Operand.ofText s = .memory (Text.trim address) := by
  have hname : Register.ofName? (Text.trim s) = none := by
    rw [h]
    exact Register.ofName?_eq_none (by rw [← h, Text.trim_trim]) (by decide) (by decide)
  have hstrip : Text.stripEnd? ']' (address ++ [']']) = some address :=
    Text.stripEnd?_eq_some_iff.2 rfl
  unfold Operand.ofText
  dsimp only
  rw [hname, h]
  simp only [hstrip]

theorem ofText_of_no_bracket {s : Text} (hname : Register.ofName? (Text.trim s) = none)
    (h : ∀ address, Text.trim s ≠ '[' :: (address ++ [']'])) :
    Operand.ofText s = .immediate (Text.trim s) := by
  unfold Operand.ofText
  dsimp only
  rw [hname]
  dsimp only
  split
  · rename_i rest hs
    split
    · rename_i address hstrip
      exact absurd (hs.trans (congrArg _ (Text.stripEnd?_eq_some_iff.1 hstrip))) (h address)
    · rw [hs]
  · rfl

theorem writes_iff {o : Operand Text} : Writes s o ↔ Operand.ofText s = o := by
  constructor
  · intro h
    cases h with
    | register hname =>
      unfold Operand.ofText
      dsimp only
      rw [ofName?_trim_eq_some_iff.2 hname]
    | memory hs => exact ofText_of_bracket hs
    | immediate hname hs =>
      refine ofText_of_no_bracket ?_ hs
      rw [Option.eq_none_iff_forall_ne_some]
      exact fun reg hreg => hname reg (ofName?_trim_eq_some_iff.1 hreg)
  · rintro rfl
    cases hname : Register.ofName? (Text.trim s) with
    | some reg =>
      have hread : Operand.ofText s = .register reg := by
        unfold Operand.ofText
        dsimp only
        rw [hname]
      rw [hread]
      exact .register (ofName?_trim_eq_some_iff.1 hname)
    | none =>
      by_cases hs : ∃ address, Text.trim s = '[' :: (address ++ [']'])
      · obtain ⟨address, hs⟩ := hs
        rw [ofText_of_bracket hs]
        exact .memory hs
      · have hs' : ∀ address, Text.trim s ≠ '[' :: (address ++ [']']) :=
          fun address h => hs ⟨address, h⟩
        rw [ofText_of_no_bracket hname hs']
        refine .immediate (fun reg hreg => ?_) hs'
        cases hname.symm.trans (ofName?_trim_eq_some_iff.2 hreg)

theorem forall₂_writes_iff : List.Forall₂ Writes texts os ↔ texts.map Operand.ofText = os := by
  induction texts generalizing os with
  | nil => rw [List.forall₂_nil_left_iff, List.map_nil, eq_comm]
  | cons t ts ih =>
    cases os with
    | nil => simp
    | cons o os => rw [List.forall₂_cons, writes_iff, ih, List.map_cons, List.cons_eq_cons]

/-- A line has one mnemonic and one list of operands, which are those that the parser finds. -/
theorem spells_iff :
    Spells s mnemonic os ↔ (Instruction.splitMnemonic s).1 = mnemonic ∧
      Operand.listOfText (Instruction.splitMnemonic s).2 = os := by
  have hlist (rest : Text) : (∃ texts, Lists rest texts ∧ List.Forall₂ Writes texts os) ↔
      Operand.listOfText rest = os := by
    simp only [lists_iff, forall₂_writes_iff]
    unfold Operand.listOfText
    split <;> simp
  unfold Spells
  simp only [heads_iff]
  constructor
  · rintro ⟨rest, texts, hsplit, hparts⟩
    rw [hsplit]
    exact ⟨rfl, (hlist rest).1 ⟨texts, hparts⟩⟩
  · rintro ⟨rfl, hos⟩
    obtain ⟨texts, hparts⟩ := (hlist _).2 hos
    exact ⟨_, texts, rfl, hparts⟩

/-! ### Lines -/

/-- What becomes of a line: the first of three errors that applies, or an instruction. -/
inductive Reading (s : Text) : Except Cause (Instruction Text) → Prop
  | unknown {mnemonic : Text} {os : List (Operand Text)} : Spells s mnemonic os →
      (∀ op : Opcode, Text.lower mnemonic ≠ op.mnemonic) →
      Reading s (.error (.unknownOpcode mnemonic))
  | known {mnemonic : Text} {os : List (Operand Text)} {op : Opcode}
      {r : Except Cause (Instruction Text)} : Spells s mnemonic os →
      Text.lower mnemonic = op.mnemonic → Verdict op os r → Reading s r

theorem instruction_ofText_eq_iff : Instruction.ofText s = r ↔ Reading s r := by
  have hspells : Spells s (Instruction.splitMnemonic s).1
      (Operand.listOfText (Instruction.splitMnemonic s).2) := spells_iff.2 ⟨rfl, rfl⟩
  constructor
  · rintro rfl
    unfold Instruction.ofText
    dsimp only
    cases hop : Opcode.ofMnemonic? (Instruction.splitMnemonic s).1 with
    | none =>
      refine .unknown hspells fun op h => ?_
      cases hop.symm.trans (Opcode.ofMnemonic?_eq_some_iff.2 h)
    | some op =>
      exact .known hspells (Opcode.ofMnemonic?_eq_some_iff.1 hop) (verdict_ofOperands op _)
  · intro h
    unfold Instruction.ofText
    dsimp only
    cases h with
    | unknown hs hunknown =>
      obtain ⟨rfl, -⟩ := spells_iff.1 hs
      have hop : Opcode.ofMnemonic? (Instruction.splitMnemonic s).1 = none := by
        rw [Option.eq_none_iff_forall_ne_some]
        exact fun op h => hunknown op (Opcode.ofMnemonic?_eq_some_iff.1 h)
      rw [hop]
    | known hs hop hverdict =>
      obtain ⟨rfl, rfl⟩ := spells_iff.1 hs
      rw [Opcode.ofMnemonic?_eq_some_iff.2 hop]
      exact (verdict_ofOperands _ _).unique hverdict

/-! ### A superfluous comma -/

/-- Behind a text that ends in no blank, a character stays where it is. -/
theorem trim_concat {t : Text} {c : Char} (hne : Text.trim t ≠ [])
    (hlast : ∀ d ∈ t.getLast?, Text.isBlank d = false) (hc : Text.isBlank c = false) :
    Text.trim (t ++ [c]) = Text.trim t ++ [c] ∧ (Text.trim t).getLast? = t.getLast? := by
  have hafter : Text.blanksAfter t = [] := by
    cases hd : (Text.blanksAfter t).getLast? with
    | none => exact List.getLast?_eq_none_iff.1 hd
    | some d =>
      have hmem : d ∈ t.getLast? := by
        rw [← Text.around_self t, List.getLast?_append, List.getLast?_append, hd]
        rfl
      have hblank := Text.isBlank_of_mem_blanksAfter (List.mem_of_getLast? hd)
      rw [hlast d hmem] at hblank
      cases hblank
  have hsplit : Text.blanksBefore t ++ Text.trim t = t := by
    have := Text.around_self t
    rwa [hafter, List.append_nil] at this
  have htrim : Text.trim (Text.trim t ++ [c]) = Text.trim t ++ [c] := by
    refine Text.trim_eq_self ?_ ?_
    · rw [List.head?_append_of_ne_nil _ hne]
      exact Text.isBlank_head_trim t
    · intro d hd
      rw [List.getLast?_concat] at hd
      exact Option.some.inj hd ▸ hc
  constructor
  · have hblanks : Text.trim (Text.blanksBefore t ++ ((Text.trim t ++ [c]) ++ [])) =
        Text.trim t ++ [c] :=
      Text.trim_append_blanks (fun _ => Text.isBlank_of_mem_blanksBefore)
        (List.forall_mem_nil _) htrim
    rwa [List.append_nil, ← List.append_assoc, hsplit] at hblanks
  · have hend := List.getLast?_append_of_ne_nil (Text.blanksBefore t) hne
    rw [hsplit] at hend
    exact hend.symm

theorem splitMnemonic_concat (htrim : Text.trim s = s)
    (hrest : (Instruction.splitMnemonic s).2 ≠ []) :
    Instruction.splitMnemonic (s ++ [',']) =
        ((Instruction.splitMnemonic s).1, (Instruction.splitMnemonic s).2 ++ [',']) ∧
      (Instruction.splitMnemonic s).2.getLast? = s.getLast? := by
  have hparts : Heads s (Instruction.splitMnemonic s).1 (Instruction.splitMnemonic s).2 :=
    heads_iff.2 rfl
  generalize (Instruction.splitMnemonic s).1 = mnemonic at hparts ⊢
  generalize (Instruction.splitMnemonic s).2 = rest at hparts hrest ⊢
  cases hparts with
  | alone => exact absurd rfl hrest
  | @followed mnemonic tail c hm hc =>
    have htail : tail ≠ [] := by
      rintro rfl
      exact hrest rfl
    have hend : (mnemonic ++ c :: tail).getLast? = tail.getLast? := by
      rw [List.append_cons]
      exact List.getLast?_append_of_ne_nil _ htail
    have hlast := (Text.trim_eq_self_iff.1 htrim).2
    rw [hend] at hlast ⊢
    obtain ⟨htrim', hkept⟩ := trim_concat (c := ',') hrest hlast (by decide)
    have hheads : Heads (mnemonic ++ c :: (tail ++ [','])) mnemonic (Text.trim tail ++ [',']) :=
      htrim' ▸ .followed hm hc
    rw [List.append_assoc, List.cons_append]
    exact ⟨heads_iff.1 hheads, hkept⟩

/-- One comma behind the last operand does not count. -/
theorem listOfText_concat (hne : rest ≠ []) (hlast : rest.getLast? ≠ some ',') :
    Operand.listOfText (rest ++ [',']) = Operand.listOfText rest := by
  rw [Operand.listOfText, Operand.listOfText, if_neg hne,
    if_neg (List.append_ne_nil_of_left_ne_nil hne _), Text.stripEnd?_eq_some_iff.2 rfl,
    Text.stripEnd?_eq_none_iff.2 hlast]
  rfl

theorem instruction_ofText_concat (htrim : Text.trim s = s) (hs : Spells s mnemonic os)
    (hos : os ≠ []) (hlast : s.getLast? ≠ some ',') :
    Instruction.ofText (s ++ [',']) = Instruction.ofText s := by
  obtain ⟨-, hlist⟩ := spells_iff.1 hs
  have hrest : (Instruction.splitMnemonic s).2 ≠ [] := by
    intro h
    rw [h] at hlist
    exact hos hlist.symm
  obtain ⟨hsplit, hend⟩ := splitMnemonic_concat htrim hrest
  rw [← hend] at hlast
  unfold Instruction.ofText
  rw [hsplit]
  dsimp only
  rw [listOfText_concat hrest hlast]

/-! ### Statements -/

theorem ofText_of_instruction (hmarker : ∀ opened : Section, s ≠ opened.marker)
    (hlabel : s.getLast? ≠ some ':') :
    Statement.ofText (some .main) s = (Instruction.ofText s).map .instruction := by
  unfold Statement.ofText
  rw [Section.ofMarker?_eq_none_iff.2 hmarker]
  show Statement.ofMain s = _
  rw [Statement.ofMain, Text.stripEnd?_eq_none_iff.2 hlabel]

theorem map_instruction_inj :
    (r.map Statement.instruction = r'.map Statement.instruction) ↔ r = r' := by
  cases r <;> cases r' <;> simp [Except.map]

/-- A trimmed line of the main section that is no marker and no label is read as the grammar says,
with the error that comes first if it is not of the grammar. One more comma behind its operands
changes nothing. -/
theorem ofText_eq_iff (htrim : Text.trim s = s) (hmarker : ∀ opened : Section, s ≠ opened.marker)
    (hlabel : s.getLast? ≠ some ':') :
    (∀ r, Statement.ofText (some .main) s = r.map .instruction ↔ Reading s r) ∧
    ((∃ i, Statement.ofText (some .main) s = .ok (.instruction i)) ↔
      ∃ (mnemonic : Text) (os : List (Operand Text)) (op : Opcode), Spells s mnemonic os ∧
        Text.lower mnemonic = op.mnemonic ∧ os.length = op.arity ∧
        op.Allows (os.map Operand.kind)) ∧
    (∀ mnemonic os, Spells s mnemonic os → os ≠ [] → s.getLast? ≠ some ',' →
      Statement.ofText (some .main) (s ++ [',']) = Statement.ofText (some .main) s) := by
  have hreading (r : Except Cause (Instruction Text)) :
      Statement.ofText (some .main) s = r.map .instruction ↔ Reading s r := by
    rw [ofText_of_instruction hmarker hlabel, map_instruction_inj, instruction_ofText_eq_iff]
  refine ⟨hreading, ⟨?_, ?_⟩, ?_⟩
  · rintro ⟨i, hi⟩
    have hread : Reading s (.ok i) := (hreading (.ok i)).1 hi
    cases hread with
    | @known mnemonic os op r hs hop hverdict =>
      cases hverdict with
      | legal hlen hallows => exact ⟨mnemonic, os, op, hs, hop, hlen, hallows⟩
  · rintro ⟨mnemonic, os, op, hs, hop, hlen, hallows⟩
    have hverdict := verdict_ofOperands op os
    generalize Instruction.ofOperands op os = r at hverdict
    cases hverdict with
    | count hne => exact absurd hlen hne
    | kinds _ hforbids => exact absurd hforbids hallows.not_forbids
    | @legal i _ _ hi hos =>
      exact ⟨i, (hreading (.ok i)).2 (.known hs hop (.legal hlen hallows hi hos))⟩
  · intro mnemonic os hs hos hlast
    have hmarker' (opened : Section) : s ++ [','] ≠ opened.marker := by
      intro h
      have hend := congrArg List.getLast? h
      rw [List.getLast?_concat] at hend
      cases opened <;> cases hend
    have hlabel' : (s ++ [',']).getLast? ≠ some ':' := by
      rw [List.getLast?_concat]
      decide
    rw [ofText_of_instruction hmarker' hlabel', ofText_of_instruction hmarker hlabel,
      instruction_ofText_concat htrim hs hos hlast]

/-- A line with capital letters and blanks where they do not count. -/
def storeLine : Text := "Mov\t[ buf ] , R3".toList

theorem ofText_eq_iff_storeLine :
    Reading storeLine (.ok (.store "buf".toList (.register .r3))) ∧
      Statement.ofText (some .main) (storeLine ++ [',']) =
        .ok (.instruction (.store "buf".toList (.register .r3))) := by
  have hmarker (opened : Section) : storeLine ≠ opened.marker := by
    cases opened <;> decide
  obtain ⟨hreading, -, hcomma⟩ := ofText_eq_iff (s := storeLine) (by decide) hmarker (by decide)
  have hread : Statement.ofText (some .main) storeLine =
      .ok (.instruction (.store "buf".toList (.register .r3))) := by decide
  have hspells : Spells storeLine "Mov".toList [.memory "buf".toList, .register .r3] :=
    spells_iff.2 ⟨by decide, by decide⟩
  exact ⟨(hreading _).1 hread, (hcomma _ _ hspells (by decide) (by decide)).trans hread⟩

end Grammar

end RegisterMachine
