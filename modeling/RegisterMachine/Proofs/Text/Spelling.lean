import RegisterMachine.Text.Numeral

/-!
# RegisterMachine.Proofs.Text.Spelling

How a word can be spelled in a program's text, and that it is read back. A word
has many numerals: in decimal, in decimal with a minus sign, or in hexadecimal
with digits in either case, each with any number of leading zeros and for any
number with the low 32 bits of the word (`Word.Spelled`).

The digits are those of `Nat.toDigits`. Reading them is carried from the left,
so that it undoes writing them is an induction that takes the last digit off
(`Text.natFrom?_toDigits`).

The characters of numerals are all **solid**: no text is cut, trimmed or given a
meaning of its own at one of them.
-/

namespace RegisterMachine

/-! ### Solid characters -/

namespace Text

/-- Does the character stand for itself wherever it stands in a line? -/
def isSolid (c : Char) : Bool :=
  !(isBlank c || c == ',' || c == ';' || c == '#' || c == ':')

/-- The text has characters, and all of them are solid. -/
structure Solid (s : Text) : Prop where
  ne_nil : s ≠ []
  solid : ∀ c ∈ s, isSolid c = true

variable {s t : Text} {c : Char}

theorem isBlank_of_isSolid (h : isSolid c = true) : isBlank c = false := by
  simp only [isSolid, Bool.not_eq_true', Bool.or_eq_false_iff] at h
  exact h.1.1.1.1

theorem ne_of_isSolid {d : Char} (h : isSolid c = true) (hd : isSolid d = false) : c ≠ d := by
  rintro rfl
  rw [h] at hd
  cases hd

/-- What can be looked up for the first characters holds of each of them. -/
theorem forall_of_toNat_lt {b : Nat} {p : Char → Prop} (h : ∀ n < b, p (Char.ofNat n))
    (hc : c.toNat < b) : p c := by
  have hchar := h c.toNat hc
  rwa [Char.ofNat_toNat] at hchar

theorem toNat_lt_of_upper (hc : 'A' ≤ c ∧ c ≤ 'Z') : c.toNat < 91 := Nat.lt_succ_of_le hc.2

theorem toLower_of_not_upper (hc : ¬('A' ≤ c ∧ c ≤ 'Z')) : c.toLower = c := dif_neg hc

/-- Upper-case letters are solid, and the others are their own lower case. -/
theorem isSolid_of_toLower (h : isSolid c.toLower = true) : isSolid c = true := by
  by_cases hupper : 'A' ≤ c ∧ c ≤ 'Z'
  · exact forall_of_toNat_lt (p := fun c => 'A' ≤ c → isSolid c = true) (by decide)
      (toNat_lt_of_upper hupper) hupper.1
  · rwa [toLower_of_not_upper hupper] at h

theorem Solid.of_lower (h : Solid (lower s)) : Solid s where
  ne_nil := by
    rintro rfl
    exact h.ne_nil rfl
  solid c hc := isSolid_of_toLower (h.solid _ (List.mem_map_of_mem hc))

theorem Solid.concat (hs : Solid s) (hc : isSolid c = true) : Solid (s ++ [c]) where
  ne_nil := List.append_ne_nil_of_left_ne_nil hs.ne_nil [c]
  solid d hd := by
    rcases List.mem_append.1 hd with hd | hd
    · exact hs.solid d hd
    · exact List.mem_singleton.1 hd ▸ hc

theorem Solid.cons (hc : isSolid c = true) (hs : Solid s) : Solid (c :: s) where
  ne_nil := List.cons_ne_nil c s
  solid d hd := by
    rcases List.mem_cons.1 hd with rfl | hd
    · exact hc
    · exact hs.solid d hd

theorem Solid.not_mem {d : Char} (h : Solid s) (hd : isSolid d = false) : d ∉ s := by
  intro hmem
  exact ne_of_isSolid (h.solid d hmem) hd rfl

theorem Solid.trim (h : Solid s) : Text.trim s = s := by
  refine trim_eq_self ?_ ?_
  · intro c hc
    exact isBlank_of_isSolid (h.solid c (List.mem_of_mem_head? hc))
  · intro c hc
    exact isBlank_of_isSolid (h.solid c (List.mem_of_mem_getLast? hc))

/-! ### Digits -/

/-- The case of a digit does not matter. -/
theorem digitValue?_toLower (c : Char) : digitValue? c.toLower = digitValue? c := by
  by_cases hupper : 'A' ≤ c ∧ c ≤ 'Z'
  · exact forall_of_toNat_lt (p := fun c => digitValue? c.toLower = digitValue? c) (by decide)
      (toNat_lt_of_upper hupper)
  · rw [toLower_of_not_upper hupper]

theorem natFrom?_lower (base n : Nat) (s : Text) :
    natFrom? base n (lower s) = natFrom? base n s := by
  induction s generalizing n with
  | nil => rfl
  | cons c cs ih =>
    show (digit? base c.toLower).bind (fun d => natFrom? base (n * base + d) (lower cs)) = _
    rw [natFrom?, digit?, digit?, digitValue?_toLower]
    simp only [ih]

theorem digit?_digitChar {base d : Nat} (hbase : base ≤ 16) (h : d < base) :
    digit? base d.digitChar = some d := by
  have hall : ∀ d < 16, digitValue? d.digitChar = some d := by decide
  rw [digit?, hall d (by omega)]
  simp [h]

/-- The digits of a number are read as that number. -/
theorem natFrom?_toDigits {base : Nat} (hlow : 1 < base) (hhigh : base ≤ 16) (n : Nat) :
    natFrom? base 0 (base.toDigits n) = some n := by
  induction n using Nat.strongRecOn with
  | ind n ih =>
    rw [Nat.toDigits_eq_if hlow]
    split
    · rename_i hn
      simp [natFrom?, digit?_digitChar hhigh hn]
    · rename_i hn
      have hdiv : n / base < n := Nat.div_lt_self (by omega) hlow
      have hmod : n % base < base := Nat.mod_lt n (by omega)
      -- what has been read in front of the last digit is the quotient
      rw [natFrom?_append, ih _ hdiv]
      simp [natFrom?, digit?_digitChar hhigh hmod, Nat.div_add_mod']

/-- The digits of a number with zeros before them. -/
def numeral (base zeros n : Nat) : Text := List.replicate zeros '0' ++ base.toDigits n

theorem numeral_ne_nil (base zeros n : Nat) : numeral base zeros n ≠ [] :=
  List.append_ne_nil_of_right_ne_nil _ Nat.toDigits_ne_nil

theorem natFrom?_numeral {base : Nat} (hlow : 1 < base) (hhigh : base ≤ 16) (zeros n : Nat) :
    natFrom? base 0 (numeral base zeros n) = some n := by
  induction zeros with
  | zero => exact natFrom?_toDigits hlow hhigh n
  | succ zeros ih =>
    have hzero : digit? base (Nat.digitChar 0) = some 0 := digit?_digitChar hhigh (by omega)
    show (digit? base (Nat.digitChar 0)).bind
      (fun d => natFrom? base (0 * base + d) (numeral base zeros n)) = some n
    rw [hzero]
    simpa using ih

theorem nat?_of_ne_nil {base : Nat} (h : s ≠ []) : nat? base s = natFrom? base 0 s := by
  cases s with
  | nil => exact absurd rfl h
  | cons c cs => rfl

theorem mem_toDigits {base n : Nat} (hbase : 1 < base) (h : c ∈ base.toDigits n) :
    ∃ d < base, c = d.digitChar := by
  induction n using Nat.strongRecOn with
  | ind n ih =>
    rw [Nat.toDigits_eq_if hbase] at h
    split at h
    · rename_i hn
      exact ⟨n, hn, List.mem_singleton.1 h⟩
    · rcases List.mem_append.1 h with h | h
      · exact ih _ (Nat.div_lt_self (by omega) hbase) h
      · exact ⟨n % base, Nat.mod_lt n (by omega), List.mem_singleton.1 h⟩

/-- A numeral is made of digits. -/
theorem mem_numeral {base zeros n : Nat} (hbase : 1 < base) (h : c ∈ numeral base zeros n) :
    ∃ d < base, c = d.digitChar := by
  rcases List.mem_append.1 h with h | h
  · exact ⟨0, by omega, (List.mem_replicate.1 h).2⟩
  · exact mem_toDigits hbase h

/-- Digits are written in lower case. -/
theorem lower_numeral (zeros n : Nat) : lower (numeral 16 zeros n) = numeral 16 zeros n := by
  refine (List.map_congr_left ?_).trans (List.map_id _)
  intro c hc
  obtain ⟨d, hd, rfl⟩ := mem_numeral (by decide) hc
  have hall : ∀ d < 16, d.digitChar.toLower = d.digitChar := by decide
  exact hall d hd

theorem solid_numeral {base : Nat} (hlow : 1 < base) (hhigh : base ≤ 16) (zeros n : Nat) :
    Solid (numeral base zeros n) where
  ne_nil := numeral_ne_nil base zeros n
  solid c hc := by
    obtain ⟨d, hd, rfl⟩ := mem_numeral hlow hc
    have hall : ∀ d < 16, isSolid d.digitChar = true := by decide
    exact hall d (by omega)

/-! ### Numbers -/

theorem not_mem_decimal {zeros n : Nat} {d : Char} (hd : d.isDigit = false) :
    d ∉ numeral 10 zeros n := by
  intro hmem
  obtain ⟨k, hk, rfl⟩ := mem_numeral (by decide) hmem
  have hall : ∀ k < 10, k.digitChar.isDigit = true := by decide
  rw [hall k hk] at hd
  cases hd

theorem decimal?_numeral {zeros n : Nat} (h : n < 9223372036854775808) :
    decimal? (numeral 10 zeros n) = some (n : Int) := by
  have hread : nat? 10 (numeral 10 zeros n) = some n := by
    rw [nat?_of_ne_nil (numeral_ne_nil 10 zeros n)]
    exact natFrom?_numeral (by decide) (by decide) zeros n
  unfold decimal?
  split
  · rename_i cs hs
    exact absurd (hs ▸ List.mem_cons_self) (not_mem_decimal (d := '-') (by decide))
  · rename_i cs hs
    exact absurd (hs ▸ List.mem_cons_self) (not_mem_decimal (d := '+') (by decide))
  · rw [hread]
    exact if_pos h

theorem decimal?_minus_numeral {zeros n : Nat} (h : n ≤ 9223372036854775808) :
    decimal? ('-' :: numeral 10 zeros n) = some (-(n : Int)) := by
  rw [decimal?, nat?_of_ne_nil (numeral_ne_nil 10 zeros n),
    natFrom?_numeral (by decide) (by decide) zeros n]
  exact if_pos h

/-- A text without an `x` is read in decimal. -/
theorem number?_of_not_mem (htrim : trim s = s) (hx : 'x' ∉ s) (hX : 'X' ∉ s) :
    number? s = (decimal? s).map UInt32.ofInt := by
  unfold number?
  rw [htrim]
  split
  · exact absurd (by simp) hx
  · exact absurd (by simp) hX
  · rfl

theorem hexadecimal?_of_lower {digits : Text} {zeros n : Nat}
    (hdigits : lower digits = numeral 16 zeros n) (h : n < 18446744073709551616) :
    hexadecimal? digits = some n := by
  have hne : digits ≠ [] := by
    rintro rfl
    exact numeral_ne_nil 16 zeros n hdigits.symm
  have hread : nat? 16 digits = some n := by
    rw [nat?_of_ne_nil hne, ← natFrom?_lower, hdigits]
    exact natFrom?_numeral (by decide) (by decide) zeros n
  have hplus : '+' ∉ digits := by
    intro hmem
    have hlower : '+' ∈ numeral 16 zeros n := hdigits ▸ List.mem_map_of_mem (f := Char.toLower) hmem
    obtain ⟨d, hd, hc⟩ := mem_numeral (by decide) hlower
    have hall : ∀ d < 16, '+' ≠ d.digitChar := by decide
    exact hall d hd hc
  unfold hexadecimal?
  split
  · exact absurd List.mem_cons_self hplus
  · rw [hread]
    exact if_pos h

end Text

/-! ### Words -/

open Text

/-- The numerals that stand for the word `v`. -/
inductive Word.Spelled (v : Word) : Text → Prop
  | decimal (zeros n : Nat) : n < 9223372036854775808 → n % 4294967296 = v.toNat →
      Spelled v (numeral 10 zeros n)
  /-- The minus sign makes it the two's complement. -/
  | negative (zeros n : Nat) : n ≤ 9223372036854775808 → (n + v.toNat) % 4294967296 = 0 →
      Spelled v ('-' :: numeral 10 zeros n)
  | hexadecimal (x : Char) (digits : Text) (zeros n : Nat) : x = 'x' ∨ x = 'X' →
      lower digits = numeral 16 zeros n → n < 18446744073709551616 → n % 4294967296 = v.toNat →
      Spelled v ('0' :: x :: digits)

namespace Word

variable {v : Word} {s : Text}

/-- Every word is spelled by its own digits, in both bases, and by those of its complement. -/
theorem spelled_self (v : Word) :
    v.Spelled (Nat.toDigits 10 v.toNat) ∧
      v.Spelled ('-' :: Nat.toDigits 10 (4294967296 - v.toNat)) ∧
      v.Spelled ('0' :: 'x' :: Nat.toDigits 16 v.toNat) := by
  have hlt : v.toNat < 4294967296 := v.toNat_lt
  refine ⟨.decimal 0 v.toNat (by omega) (by omega), .negative 0 (4294967296 - v.toNat) ?_ ?_,
    .hexadecimal 'x' _ 0 v.toNat (Or.inl rfl) (lower_numeral 0 v.toNat) (by omega) (by omega)⟩
  · omega
  · omega

theorem Spelled.solid (h : v.Spelled s) : Solid s := by
  cases h with
  | decimal zeros n hn hv => exact solid_numeral (by decide) (by decide) zeros n
  | negative zeros n hn hv =>
    exact .cons (by decide) (solid_numeral (by decide) (by decide) zeros n)
  | hexadecimal x digits zeros n hx hdigits hn hv =>
    have hsolid : Solid digits := by
      refine .of_lower ?_
      rw [hdigits]
      exact solid_numeral (by decide) (by decide) zeros n
    have hmark : isSolid x = true := by
      rcases hx with rfl | rfl <;> decide
    exact .cons (by decide) (.cons hmark hsolid)

/-- A numeral begins with a digit or a minus sign. -/
theorem Spelled.head (h : v.Spelled s) :
    ∃ c rest, s = c :: rest ∧ (c = '-' ∨ c.isDigit = true) := by
  cases h with
  | decimal zeros n hn hv =>
    cases hs : numeral 10 zeros n with
    | nil => exact absurd hs (numeral_ne_nil 10 zeros n)
    | cons c rest =>
      refine ⟨c, rest, rfl, Or.inr ?_⟩
      have hmem : c ∈ numeral 10 zeros n := hs ▸ List.mem_cons_self
      cases hdigit : c.isDigit with
      | true => rfl
      | false => exact absurd hmem (not_mem_decimal hdigit)
  | negative zeros n hn hv => exact ⟨'-', _, rfl, Or.inl rfl⟩
  | hexadecimal x digits zeros n hx hdigits hn hv => exact ⟨'0', _, rfl, Or.inr rfl⟩

/-- A numeral of a word is read as that word. -/
theorem Spelled.number? (h : v.Spelled s) : Text.number? s = some v := by
  have htrim := h.solid.trim
  have hlt : v.toNat < 4294967296 := v.toNat_lt
  have hword {k : Nat} (hk : k = v.toNat) : UInt32.ofNat k = v := by
    rw [hk, UInt32.ofNat_toNat]
  cases h with
  | decimal zeros n hn hv =>
    rw [number?_of_not_mem htrim (not_mem_decimal (by decide)) (not_mem_decimal (by decide)),
      decimal?_numeral hn]
    refine congrArg some (hword ?_)
    omega
  | negative zeros n hn hv =>
    have hx {d : Char} (hd : d.isDigit = false) (hne : d ≠ '-') :
        d ∉ '-' :: numeral 10 zeros n := by
      rw [List.mem_cons, not_or]
      exact ⟨hne, not_mem_decimal hd⟩
    rw [number?_of_not_mem htrim (hx (by decide) (by decide)) (hx (by decide) (by decide)),
      decimal?_minus_numeral hn]
    refine congrArg some (hword ?_)
    omega
  | hexadecimal x digits zeros n hx hdigits hn hv =>
    have hread := hexadecimal?_of_lower hdigits hn
    have hvalue : UInt32.ofNat n = v := by
      rw [UInt32.ofNat_eq_iff_mod_eq_toNat, hv]
    unfold Text.number?
    rw [htrim]
    rcases hx with rfl | rfl
    · simp [hread, hvalue]
    · simp [hread, hvalue]

end Word

end RegisterMachine
