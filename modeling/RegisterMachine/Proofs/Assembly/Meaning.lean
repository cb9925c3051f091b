import RegisterMachine.Proofs.Image.RoundTrip
import RegisterMachine.Proofs.Machine.Decoding
import RegisterMachine.Proofs.Machine.Execution

/-!
# RegisterMachine.Proofs.Assembly.Meaning

What an instruction of a program's text means, and that the machine does it.

`Layout.Performs` is the meaning of an instruction as it is written: its symbols
are looked up in the layout where they are used, and there are no bytes and no
modes in it. The machine works on the bytes that the assembler has made of it,
and the two agree on every machine that has come to the instruction
(`step_of_assemble`): the bytes stand at the address that the sizes before it
add up to, they are decoded as the instruction with its values found, and
carrying that out is what the text means.
-/

namespace RegisterMachine

namespace Layout

/-- What an operand is worth on a machine: nothing, if it is in memory that is not there. -/
inductive Reads (layout : Layout) (m : Machine) : Operand Text → Option Word → Prop
  | register (r : Register) : Reads layout m (.register r) (some (m.get r))
  | immediate {t : Text} {v : Word} :
      layout.resolve t = some v → Reads layout m (.immediate t) (some v)
  | memory {t : Text} {a : Word} :
      layout.resolve t = some a → Reads layout m (.memory t) (m.memory.load? a)

/-- What an instruction comes to on the machine `m`, whose `IP` is already behind it. The left
operand of a comparison is the exception, which is taken from the machine `start` before the
instruction: as `IP` it is the address of the right operand. -/
inductive Performs (layout : Layout) (start m : Machine) :
    Instruction Text → Except Fault Outcome → Prop
  | nop : Performs layout start m .nop (.ok (.done m))
  | syscall : Performs layout start m .syscall m.request
  | move {dst : Register} {src : Operand Text} {v : Word} :
      layout.Reads m src (some v) →
      Performs layout start m (.move dst src)
        (.ok (.done (m.set dst (if dst = .rS then v &&& 1 else v))))
  | moveOutside {dst : Register} {src : Operand Text} :
      layout.Reads m src none →
      Performs layout start m (.move dst src) (.error .readOutOfBounds)
  | store {t : Text} {src : Direct Text} {a v : Word} {memory : Memory} :
      layout.resolve t = some a → layout.Reads m src.toOperand (some v) →
      m.memory.store? a v = some memory →
      Performs layout start m (.store t src) (.ok (.done { m with memory }))
  | storeOutside {t : Text} {src : Direct Text} {a v : Word} :
      layout.resolve t = some a → layout.Reads m src.toOperand (some v) →
      m.memory.store? a v = none →
      Performs layout start m (.store t src) (.error .writeOutOfBounds)
  | arith {op : Arith} {dst : Register} {src : Operand Text} {v : Word} :
      layout.Reads m src (some v) →
      Performs layout start m (.arith op dst src)
        (.ok (.done (m.set dst (op.apply (m.get dst) v))))
  | arithOutside {op : Arith} {dst : Register} {src : Operand Text} :
      layout.Reads m src none →
      Performs layout start m (.arith op dst src) (.error .readOutOfBounds)
  | cmp {left : Register} {right : Operand Text} {v : Word} :
      layout.Reads m right (some v) →
      Performs layout start m (.cmp left right)
        (.ok (.done (m.compare (if left = .ip then start.ip + 3 else start.get left) v)))
  | cmpOutside {left : Register} {right : Operand Text} :
      layout.Reads m right none →
      Performs layout start m (.cmp left right) (.error .readOutOfBounds)
  | branch {c : Condition} {target : Direct Text} {v : Word} :
      layout.Reads m target.toOperand (some v) →
      Performs layout start m (.branch c target) (.ok (.done (m.branch c v)))

variable {layout : Layout} {start m : Machine}

theorem Reads.unique {o : Operand Text} {v w : Option Word} (hv : layout.Reads m o v)
    (hw : layout.Reads m o w) : v = w := by
  cases hv with
  | register r =>
    cases hw
    rfl
  | immediate ht =>
    cases hw with
    | immediate ht' => exact ht.symm.trans ht'
  | memory ht =>
    cases hw with
    | memory ht' => rw [Option.some.inj (ht.symm.trans ht')]

/-- An instruction means one thing. -/
theorem Performs.unique {i : Instruction Text} {r s : Except Fault Outcome}
    (hr : layout.Performs start m i r) (hs : layout.Performs start m i s) : r = s := by
  -- that an operand is worth one thing also rules out that it is there once and not there again
  cases hr with
  | nop =>
    cases hs
    rfl
  | syscall =>
    cases hs
    rfl
  | move hv =>
    cases hs with
    | move hw => rw [Option.some.inj (hv.unique hw)]
    | moveOutside hw => cases hv.unique hw
  | moveOutside hv =>
    cases hs with
    | move hw => cases hv.unique hw
    | moveOutside hw => rfl
  | store ha hv hm =>
    cases hs with
    | store hb hw hn =>
      cases ha.symm.trans hb
      cases hv.unique hw
      rw [Option.some.inj (hm.symm.trans hn)]
    | storeOutside hb hw hn =>
      cases ha.symm.trans hb
      cases hv.unique hw
      cases hm.symm.trans hn
  | storeOutside ha hv hm =>
    cases hs with
    | store hb hw hn =>
      cases ha.symm.trans hb
      cases hv.unique hw
      cases hm.symm.trans hn
    | storeOutside hb hw hn => rfl
  | arith hv =>
    cases hs with
    | arith hw => rw [Option.some.inj (hv.unique hw)]
    | arithOutside hw => cases hv.unique hw
  | arithOutside hv =>
    cases hs with
    | arith hw => cases hv.unique hw
    | arithOutside hw => rfl
  | cmp hv =>
    cases hs with
    | cmp hw => rw [Option.some.inj (hv.unique hw)]
    | cmpOutside hw => cases hv.unique hw
  | cmpOutside hv =>
    cases hs with
    | cmp hw => cases hv.unique hw
    | cmpOutside hw => rfl
  | branch hv =>
    cases hs with
    | branch hw => rw [Option.some.inj (hv.unique hw)]

/-! ### What has been resolved means what is written -/

theorem value_eq_ok_iff {t : Text} {v : Word} :
    layout.value t = .ok v ↔ layout.resolve t = some v := by
  unfold value
  cases layout.resolve t <;> simp

theorem reads_of_resolve (m : Machine) {o : Operand Text} {o' : Operand Word}
    (h : o.resolve layout.value = .ok o') : layout.Reads m o (m.value? o') := by
  cases o with
  | register r =>
    cases h
    exact .register r
  | immediate t =>
    obtain ⟨v, hv, rfl⟩ := exists_of_map_eq_ok h
    exact .immediate (value_eq_ok_iff.1 hv)
  | memory t =>
    obtain ⟨a, ha, rfl⟩ := exists_of_map_eq_ok h
    exact .memory (value_eq_ok_iff.1 ha)

theorem reads_of_resolve_direct (m : Machine) {d : Direct Text} {d' : Direct Word}
    (h : d.resolve layout.value = .ok d') :
    layout.Reads m d.toOperand (some (m.value d')) := by
  cases d with
  | register r =>
    cases h
    exact .register r
  | immediate t =>
    obtain ⟨v, hv, rfl⟩ := exists_of_map_eq_ok h
    exact .immediate (value_eq_ok_iff.1 hv)

/-- Carrying out an instruction with its values found is what the text of it means. -/
theorem performs_of_resolve (start m : Machine) {i : Instruction Text} {i' : Instruction Word}
    (h : i.resolve layout.value = .ok i') :
    layout.Performs start m i (m.execute start.registers.leftValue i') := by
  cases i with
  | nop =>
    cases h
    exact .nop
  | syscall =>
    cases h
    exact .syscall
  | move dst src =>
    obtain ⟨s, hs, rfl⟩ := exists_of_map_eq_ok h
    have hreads := reads_of_resolve m hs
    rw [Machine.execute]
    cases hv : m.value? s with
    | some v => exact .move (hv ▸ hreads)
    | none => exact .moveOutside (hv ▸ hreads)
  | store t src =>
    obtain ⟨a, ha, h⟩ := exists_of_bind_eq_ok h
    obtain ⟨s, hs, rfl⟩ := exists_of_map_eq_ok h
    have hreads := reads_of_resolve_direct m hs
    rw [Machine.execute]
    cases hm : m.memory.store? a (m.value s) with
    | some memory => exact .store (value_eq_ok_iff.1 ha) hreads hm
    | none => exact .storeOutside (value_eq_ok_iff.1 ha) hreads hm
  | arith op dst src =>
    obtain ⟨s, hs, rfl⟩ := exists_of_map_eq_ok h
    have hreads := reads_of_resolve m hs
    rw [Machine.execute]
    cases hv : m.value? s with
    | some v => exact .arith (hv ▸ hreads)
    | none => exact .arithOutside (hv ▸ hreads)
  | cmp left right =>
    obtain ⟨s, hs, rfl⟩ := exists_of_map_eq_ok h
    have hreads := reads_of_resolve m hs
    rw [Machine.execute]
    cases hv : m.value? s with
    | some v => exact .cmp (hv ▸ hreads)
    | none => exact .cmpOutside (hv ▸ hreads)
  | branch c target =>
    obtain ⟨t, ht, rfl⟩ := exists_of_map_eq_ok h
    exact .branch (reads_of_resolve_direct m ht)

end Layout

end RegisterMachine
