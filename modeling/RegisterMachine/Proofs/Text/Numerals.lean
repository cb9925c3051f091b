import RegisterMachine.Assembly.Basic
import RegisterMachine.Proofs.Text.Identifier

/-!
# RegisterMachine.Proofs.Text.Numerals

Which texts are numbers. A **numeral** is a text that denotes an integer by its
digits, of which there may be any number (`Text.Numeral`). The reader agrees
with this up to two differences, and has no others (`Text.number?_iff`): it also
takes a plus sign in front of the digits, and it takes no integer that is out of
the range of 64 bits. Of what it takes it keeps the low 32 bits.

The value of digits is defined from the right, one more digit at the end, while
they are read from the left with the value so far carried along. The two meet in
`Text.natFrom?_eq_some_iff`.
-/

namespace RegisterMachine

namespace Text

/-! ### What a numeral denotes -/

/-- The character is the digit with this value, in either case. -/
def IsDigit (base : Nat) (c : Char) (d : Nat) : Prop := d < base ∧ c.toLower = d.digitChar

/-- The text is one or more digits, and `n` is the number that they denote. -/
inductive Denotes (base : Nat) : Text → Nat → Prop
  | digit {c : Char} {d : Nat} : IsDigit base c d → Denotes base [c] d
  | more {s : Text} {n : Nat} {c : Char} {d : Nat} :
      Denotes base s n → IsDigit base c d → Denotes base (s ++ [c]) (n * base + d)

/-- The two ways to write a number. -/
inductive Radix
  | decimal
  | hexadecimal

/-- The text denotes the integer, in digits of this radix. -/
inductive Numeral : Radix → Text → Int → Prop
  | decimal {s : Text} {n : Nat} : Denotes 10 s n → Numeral .decimal s n
  | negative {s : Text} {n : Nat} : Denotes 10 s n → Numeral .decimal ('-' :: s) (-n)
  | hexadecimal {x : Char} {s : Text} {n : Nat} :
      x = 'x' ∨ x = 'X' → Denotes 16 s n → Numeral .hexadecimal ('0' :: x :: s) n

/-- The text would denote the integer, but for a plus sign in front of its digits. -/
inductive PlusNumeral : Radix → Text → Int → Prop
  | decimal {s : Text} {n : Nat} : Denotes 10 s n → PlusNumeral .decimal ('+' :: s) n
  | hexadecimal {x : Char} {s : Text} {n : Nat} :
      x = 'x' ∨ x = 'X' → Denotes 16 s n → PlusNumeral .hexadecimal ('0' :: x :: '+' :: s) n

/-- The integer is in the range of 64 bits: with a sign in decimal, without one in
hexadecimal. -/
def Radix.Fits : Radix → Int → Prop
  | decimal, z => -9223372036854775808 ≤ z ∧ z < 9223372036854775808
  | hexadecimal, z => z < 18446744073709551616

/-! ### Digits -/

variable {base n : Nat} {s t : Text} {c : Char} {w : Word}

theorem digitValue?_eq_some {d : Nat} (h : digitValue? c = some d) :
    d < 16 ∧ c.toLower = d.digitChar := by
  have hlt : c.toNat < 103 := by
    unfold digitValue? at h
    split at h
    · rename_i hc
      exact Nat.lt_of_le_of_lt hc.2 (by decide)
    · split at h
      · rename_i hc
        exact Nat.lt_of_le_of_lt hc.2 (by decide)
      · split at h
        · rename_i hc
          exact Nat.lt_of_le_of_lt hc.2 (by decide)
        · cases h
  have htable := forall_of_toNat_lt
    (p := fun c => ∀ d ∈ digitValue? c, d < 16 ∧ c.toLower = d.digitChar) (by decide) hlt
  exact htable d h

theorem digit?_eq_some_iff (hbase : base ≤ 16) {d : Nat} :
    digit? base c = some d ↔ IsDigit base c d := by
  constructor
  · intro h
    obtain ⟨hvalue, -⟩ := Option.filter_eq_some_iff.1 h
    exact ⟨digit?_lt h, (digitValue?_eq_some hvalue).2⟩
  · rintro ⟨hlt, hc⟩
    have hchar := digit?_digitChar hbase hlt
    rw [← hc] at hchar
    rwa [digit?, digitValue?_toLower] at hchar

/-- A numeral is made of digits, one at least. -/
theorem Denotes.exists_digit (h : Denotes base s n) :
    s ≠ [] ∧ ∀ c ∈ s, ∃ d, IsDigit base c d := by
  induction h with
  | digit hc =>
    refine ⟨List.cons_ne_nil _ _, ?_⟩
    intro c hmem
    exact List.mem_singleton.1 hmem ▸ ⟨_, hc⟩
  | more hs hc ih =>
    refine ⟨List.append_ne_nil_of_left_ne_nil ih.1 _, ?_⟩
    intro c hmem
    obtain hmem | hmem := List.mem_append.1 hmem
    · exact ih.2 c hmem
    · exact List.mem_singleton.1 hmem ▸ ⟨_, hc⟩

/-- What is no digit is in no numeral. -/
theorem Denotes.not_mem (h : Denotes base s n) (hbase : base ≤ 16) (hc : digit? base c = none) :
    c ∉ s := by
  intro hmem
  obtain ⟨d, hd⟩ := h.exists_digit.2 c hmem
  cases hc.symm.trans ((digit?_eq_some_iff hbase).2 hd)

/-- The number that digits denote is the one that is read. -/
theorem Denotes.natFrom? (h : Denotes base s n) (hbase : base ≤ 16) :
    natFrom? base 0 s = some n := by
  induction h with
  | digit hc => simp [Text.natFrom?, (digit?_eq_some_iff hbase).2 hc]
  | more hs hc ih =>
    rw [natFrom?_append, ih]
    simp [Text.natFrom?, (digit?_eq_some_iff hbase).2 hc]

/-- Digits denote one number. -/
theorem Denotes.unique {m : Nat} (h : Denotes base s n) (h' : Denotes base s m)
    (hbase : base ≤ 16) : n = m :=
  Option.some.inj ((h.natFrom? hbase).symm.trans (h'.natFrom? hbase))

/-- The digits that are read on are at the end of all. -/
theorem Denotes.append {m : Nat} (h : Denotes base s m) (hbase : base ≤ 16)
    (ht : Text.natFrom? base m t = some n) : Denotes base (s ++ t) n := by
  induction t generalizing s m with
  | nil =>
    cases ht
    rwa [List.append_nil]
  | cons c t ih =>
    obtain ⟨d, hd, hrest⟩ := Option.bind_eq_some_iff.1 ht
    have hlonger : Denotes base (s ++ [c]) (m * base + d) :=
      h.more ((digit?_eq_some_iff hbase).1 hd)
    rw [List.append_cons]
    exact ih hlonger hrest

/-- Digits are read as the number that they denote, and nothing else is. -/
theorem nat?_eq_some_iff (hbase : base ≤ 16) : nat? base s = some n ↔ Denotes base s n := by
  constructor
  · intro h
    cases s with
    | nil => cases h
    | cons c cs =>
      obtain ⟨d, hd, hrest⟩ := Option.bind_eq_some_iff.1 h
      have hfirst : Denotes base [c] d := .digit ((digit?_eq_some_iff hbase).1 hd)
      rw [Nat.zero_mul, Nat.zero_add] at hrest
      exact hfirst.append hbase hrest
  · intro h
    rw [nat?_of_ne_nil h.exists_digit.1, h.natFrom? hbase]

/-! ### Numbers in one radix -/

theorem bind_nat?_eq_some_iff (hbase : base ≤ 16) {p : Nat → Prop} [DecidablePred p] {α : Type}
    {f : Nat → α} {a : α} :
    ((nat? base s).bind fun n => if p n then some (f n) else none) = some a ↔
      ∃ n, Denotes base s n ∧ p n ∧ f n = a := by
  rw [Option.bind_eq_some_iff]
  simp only [nat?_eq_some_iff hbase, Option.ite_none_right_eq_some, Option.some.injEq]

theorem decimal?_of_unsigned (hminus : '-' ∉ s) (hplus : '+' ∉ s) :
    decimal? s =
      (nat? 10 s).bind fun n => if n < 9223372036854775808 then some (n : Int) else none := by
  unfold decimal?
  split
  · exact absurd List.mem_cons_self hminus
  · exact absurd List.mem_cons_self hplus
  · rfl

theorem decimal?_eq_some_iff {z : Int} :
    decimal? s = some z ↔
      (Numeral .decimal s z ∨ PlusNumeral .decimal s z) ∧ Radix.decimal.Fits z := by
  constructor
  · intro h
    unfold decimal? at h
    split at h
    · obtain ⟨n, hn, hle, rfl⟩ := (bind_nat?_eq_some_iff (by decide)).1 h
      exact ⟨Or.inl (.negative hn), by constructor <;> omega⟩
    · obtain ⟨n, hn, hlt, rfl⟩ := (bind_nat?_eq_some_iff (by decide)).1 h
      exact ⟨Or.inr (.decimal hn), by constructor <;> omega⟩
    · obtain ⟨n, hn, hlt, rfl⟩ := (bind_nat?_eq_some_iff (by decide)).1 h
      exact ⟨Or.inl (.decimal hn), by constructor <;> omega⟩
  · rintro ⟨hz | hz, hlow, hhigh⟩
    · cases hz with
      | decimal hn =>
        rw [decimal?_of_unsigned (hn.not_mem (by decide) (by decide))
          (hn.not_mem (by decide) (by decide))]
        exact (bind_nat?_eq_some_iff (by decide)).2 ⟨_, hn, by omega, rfl⟩
      | negative hn => exact (bind_nat?_eq_some_iff (by decide)).2 ⟨_, hn, by omega, rfl⟩
    · cases hz with
      | decimal hn => exact (bind_nat?_eq_some_iff (by decide)).2 ⟨_, hn, by omega, rfl⟩

theorem hexadecimal?_eq_some_iff :
    hexadecimal? s = some n ↔
      (Denotes 16 s n ∨ ∃ t, s = '+' :: t ∧ Denotes 16 t n) ∧ n < 18446744073709551616 := by
  constructor
  · intro h
    unfold hexadecimal? at h
    split at h
    · obtain ⟨k, hk, hlt, rfl⟩ := (bind_nat?_eq_some_iff (by decide)).1 h
      exact ⟨Or.inr ⟨_, rfl, hk⟩, hlt⟩
    · obtain ⟨k, hk, hlt, rfl⟩ := (bind_nat?_eq_some_iff (by decide)).1 h
      exact ⟨Or.inl hk, hlt⟩
  · rintro ⟨hn | ⟨t, rfl, hn⟩, hlt⟩
    · have hplus : '+' ∉ s := hn.not_mem (by decide) (by decide)
      unfold hexadecimal?
      split
      · exact absurd List.mem_cons_self hplus
      · exact (bind_nat?_eq_some_iff (by decide)).2 ⟨n, hn, hlt, rfl⟩
    · exact (bind_nat?_eq_some_iff (by decide)).2 ⟨n, hn, hlt, rfl⟩

/-- What has the mark of a hexadecimal numeral denotes what is read behind it. -/
theorem numeral_hexadecimal_iff {z : Int} :
    (Numeral .hexadecimal s z ∨ PlusNumeral .hexadecimal s z) ∧ Radix.hexadecimal.Fits z ↔
      ∃ x t, ∃ n : Nat, (x = 'x' ∨ x = 'X') ∧ s = '0' :: x :: t ∧ hexadecimal? t = some n ∧
        (n : Int) = z := by
  simp only [hexadecimal?_eq_some_iff]
  constructor
  · rintro ⟨hz | hz, hlt⟩
    · cases hz with
      | hexadecimal hx hn => exact ⟨_, _, _, hx, rfl, ⟨Or.inl hn, Int.ofNat_lt.1 hlt⟩, rfl⟩
    · cases hz with
      | hexadecimal hx hn =>
        exact ⟨_, _, _, hx, rfl, ⟨Or.inr ⟨_, rfl, hn⟩, Int.ofNat_lt.1 hlt⟩, rfl⟩
  · rintro ⟨x, t, n, hx, rfl, ⟨hn | ⟨u, rfl, hn⟩, hlt⟩, rfl⟩
    · exact ⟨Or.inl (.hexadecimal hx hn), Int.ofNat_lt.2 hlt⟩
    · exact ⟨Or.inr (.hexadecimal hx hn), Int.ofNat_lt.2 hlt⟩

/-! ### Numbers -/

theorem ofInt_eq_iff {z : Int} : UInt32.ofInt z = w ↔ (w.toNat : Int) = z % 4294967296 := by
  have hpow : ((2 : Int) ^ 32) = 4294967296 := rfl
  have hlow : 0 ≤ z % 4294967296 := Int.emod_nonneg z (by decide)
  have hhigh : z % 4294967296 < 4294967296 := Int.emod_lt_of_pos z (by decide)
  have hnat : (UInt32.ofInt z).toNat = (z % 4294967296).toNat := by
    rw [UInt32.ofInt, hpow, UInt32.toNat_ofNat_of_lt']
    show (z % 4294967296).toNat < 4294967296
    omega
  rw [← UInt32.toNat_inj, hnat]
  omega

/-- A text without the mark of a hexadecimal numeral is read in decimal. -/
theorem number?_of_unmarked (h : ∀ x t, x = 'x' ∨ x = 'X' → trim s ≠ '0' :: x :: t) :
    number? s = (decimal? (trim s)).map UInt32.ofInt := by
  unfold number?
  split
  · rename_i cs hs
    exact absurd hs (h _ cs (Or.inl rfl))
  · rename_i cs hs
    exact absurd hs (h _ cs (Or.inr rfl))
  · rfl

theorem number?_of_marked {x : Char} (hx : x = 'x' ∨ x = 'X') (hs : trim s = '0' :: x :: t) :
    number? s = (hexadecimal? t).map fun n : Nat => UInt32.ofInt n := by
  have hcast (n : Nat) : UInt32.ofNat n = UInt32.ofInt n := by
    rw [eq_comm, ofInt_eq_iff, UInt32.toNat_ofNat']
    rfl
  unfold number?
  rw [hs]
  obtain rfl | rfl := hx
  · exact congrArg (Option.map · (hexadecimal? t)) (funext hcast)
  · exact congrArg (Option.map · (hexadecimal? t)) (funext hcast)

/-- The mark is no decimal digit. -/
theorem decimal?_of_marked {x : Char} (hx : x = 'x' ∨ x = 'X') :
    decimal? ('0' :: x :: t) = none := by
  have hmark : digit? 10 x = none := by
    obtain rfl | rfl := hx <;> decide
  have hnat : nat? 10 ('0' :: x :: t) = none := by
    rw [Option.eq_none_iff_forall_ne_some]
    intro n hn
    exact ((nat?_eq_some_iff (by decide)).1 hn).not_mem (by decide) hmark (by simp)
  unfold decimal?
  split
  · rename_i h
    cases h
  · rename_i h
    cases h
  · rw [hnat]
    rfl

/-- The two ways in which a text is read as a number. -/
theorem number?_eq_some_iff :
    number? s = some w ↔ ∃ z, (decimal? (trim s) = some z ∨
      ∃ x t, ∃ n : Nat, (x = 'x' ∨ x = 'X') ∧ trim s = '0' :: x :: t ∧
        hexadecimal? t = some n ∧ (n : Int) = z) ∧ UInt32.ofInt z = w := by
  by_cases hmarked : ∃ x t, (x = 'x' ∨ x = 'X') ∧ trim s = '0' :: x :: t
  · obtain ⟨x, t, hx, hs⟩ := hmarked
    rw [number?_of_marked hx hs, Option.map_eq_some_iff]
    constructor
    · rintro ⟨n, hn, hw⟩
      exact ⟨n, Or.inr ⟨x, t, n, hx, hs, hn, rfl⟩, hw⟩
    · rintro ⟨z, hz | ⟨y, u, n, -, hu, hn, rfl⟩, hw⟩
      · rw [hs, decimal?_of_marked hx] at hz
        cases hz
      · cases hs.symm.trans hu
        exact ⟨n, hn, hw⟩
  · have hunmarked : ∀ x t, x = 'x' ∨ x = 'X' → trim s ≠ '0' :: x :: t :=
      fun x t hx hs => hmarked ⟨x, t, hx, hs⟩
    rw [number?_of_unmarked hunmarked, Option.map_eq_some_iff]
    constructor
    · rintro ⟨z, hz, hw⟩
      exact ⟨z, Or.inl hz, hw⟩
    · rintro ⟨z, hz | ⟨x, t, -, hx, hs, -⟩, hw⟩
      · exact ⟨z, hz, hw⟩
      · exact absurd hs (hunmarked x t hx)

/-- A character that no numeral is written with is in no text that is a number. -/
theorem not_mem_of_number? {s : Text} {w : Word} {c : Char} (h : number? s = some w)
    (hblank : isBlank c = false) (hdigit : digitValue? c = none) (hmark : c ∉ ['-', '+', 'x', 'X']) :
    c ∉ s := by
  have hnone (base : Nat) : digit? base c = none := by simp [digit?, hdigit]
  have hdec {t : Text} {n : Nat} (ht : Denotes 10 t n) : c ∉ t := ht.not_mem (by decide) (hnone 10)
  have hhex {t : Text} {n : Nat} (ht : Denotes 16 t n) : c ∉ t := ht.not_mem (by decide) (hnone 16)
  simp only [List.mem_cons, List.not_mem_nil, or_false, not_or] at hmark
  obtain ⟨hminus, hplus, hx, hX⟩ := hmark
  have hzero : c ≠ '0' := by
    rintro rfl
    cases hdigit
  rw [← mem_trim_iff hblank]
  obtain ⟨z, hz | ⟨x, t, n, hmarked, hs, hn, -⟩, -⟩ := number?_eq_some_iff.1 h
  · generalize trim s = t at hz ⊢
    rcases (decimal?_eq_some_iff.1 hz).1 with hz | hz
    · cases hz with
      | decimal hn => exact hdec hn
      | negative hn => simp [hminus, hdec hn]
    · cases hz with
      | decimal hn => simp [hplus, hdec hn]
  · have hne : c ≠ x := by
      rcases hmarked with rfl | rfl
      · exact hx
      · exact hX
    rw [hs]
    rcases (hexadecimal?_eq_some_iff.1 hn).1 with hn | ⟨u, rfl, hu⟩
    · simp [hzero, hne, hhex hn]
    · simp [hzero, hne, hplus, hhex hu]

/-- A text is a number exactly if, without the blanks at its ends, it denotes an integer in the
range of 64 bits, be it with a plus sign; the word is that integer modulo `2 ^ 32`. It is then a
number in every program, whatever is declared under this name. -/
theorem number?_iff (s : Text) (w : Word) :
    (number? s = some w ↔ ∃ radix z,
      (Numeral radix (trim s) z ∨ PlusNumeral radix (trim s) z) ∧ radix.Fits z ∧
        (w.toNat : Int) = z % 4294967296) ∧
    (number? s = some w → ∀ layout : Layout, layout.resolve s = some w) := by
  refine ⟨⟨?_, ?_⟩, ?_⟩
  · intro h
    obtain ⟨z, hz | hz, hw⟩ := number?_eq_some_iff.1 h
    · obtain ⟨hdenotes, hfits⟩ := decimal?_eq_some_iff.1 hz
      exact ⟨.decimal, z, hdenotes, hfits, ofInt_eq_iff.1 hw⟩
    · obtain ⟨hdenotes, hfits⟩ := numeral_hexadecimal_iff.2 hz
      exact ⟨.hexadecimal, z, hdenotes, hfits, ofInt_eq_iff.1 hw⟩
  · rintro ⟨radix, z, hdenotes, hfits, hw⟩
    refine number?_eq_some_iff.2 ⟨z, ?_, ofInt_eq_iff.2 hw⟩
    cases radix with
    | decimal => exact Or.inl (decimal?_eq_some_iff.2 ⟨hdenotes, hfits⟩)
    | hexadecimal => exact Or.inr (numeral_hexadecimal_iff.1 ⟨hdenotes, hfits⟩)
  · intro h layout
    rw [Layout.resolve, h]

/-- Minus one, with blanks around it and zeros in front. -/
theorem number?_iff_minusOne :
    number? " -001\t".toList = some 0xFFFFFFFF ∧
      ∀ layout : Layout, layout.resolve " -001\t".toList = some 0xFFFFFFFF := by
  have hdigits : Denotes 10 "001".toList 1 := (nat?_eq_some_iff (by decide)).1 (by decide)
  obtain ⟨hiff, hresolve⟩ := number?_iff " -001\t".toList 0xFFFFFFFF
  have hnumber : number? " -001\t".toList = some 0xFFFFFFFF :=
    hiff.2 ⟨.decimal, -1, Or.inl (.negative hdigits), ⟨by decide, by decide⟩, by decide⟩
  exact ⟨hnumber, hresolve hnumber⟩

/-- A numeral of 65 bits. -/
def wideNumeral : Text := "0x10000000000000000".toList

/-- The numeral denotes an integer, whose low 32 bits are zero, and yet it is no number: the
assembler takes it for a symbol, and a program that has it has an error. -/
theorem wideNumeral_unread :
    Numeral .hexadecimal wideNumeral 18446744073709551616 ∧ trim wideNumeral = wideNumeral ∧
      (18446744073709551616 : Int) % 4294967296 = 0 ∧ number? wideNumeral = none ∧
      assemble "_main:\nmov r1, 0x10000000000000000" =
        .error ⟨2, .unknownSymbol wideNumeral⟩ := by
  have hnat : natFrom? 16 0 (wideNumeral.drop 2) = some 18446744073709551616 := by decide
  have hdigits : Denotes 16 (wideNumeral.drop 2) 18446744073709551616 :=
    (nat?_eq_some_iff (by decide)).1 hnat
  exact ⟨.hexadecimal (Or.inl rfl) hdigits, by decide, by decide, by decide, by rfl⟩

end Text

end RegisterMachine
