import RegisterMachine.Machine.Trace
import RegisterMachine.Proofs.Machine.Flags
import RegisterMachine.Proofs.Text.Numerals

/-!
# RegisterMachine.Proofs.Machine.TraceLine

The line of a trace record loses nothing. Its numbers stand in columns of a fixed
width, each between texts that are the same on every line (`Columns.Shows`), so
the numbers can be told from the line, whatever stands behind them
(`Columns.Shows.unique`). The table of the columns is `TraceRecord.columns`; a
record is determined by the numbers in them, and the names at the end of the line
are those of the bits that are set in one of the numbers
(`TraceRecord.render_eq_iff`).
-/

namespace RegisterMachine

/-! ### Digits -/

namespace Text

theorem isDigit_upperDigit {d : Nat} (h : d < 16) : IsDigit 16 (upperDigit d) d := by
  have hall : ∀ d < 16, (upperDigit d).toLower = d.digitChar := by decide
  exact ⟨h, hall d h⟩

/-- Digits of a fixed width denote the number, if it fits into them. -/
theorem denotes_hexDigits {width n : Nat} (h : n < hexCount (width + 1)) :
    Denotes 16 (hexDigits upperDigit (width + 1) n) n := by
  have hdigit : IsDigit 16 (upperDigit (n % 16)) (n % 16) :=
    isDigit_upperDigit (Nat.mod_lt n (by decide))
  induction width generalizing n with
  | zero =>
    simp only [hexCount] at h
    have hmod : n % 16 = n := Nat.mod_eq_of_lt (by omega)
    rw [hmod] at hdigit
    simpa [hexDigits, hmod] using Denotes.digit hdigit
  | succ width ih =>
    rw [hexCount] at h
    have hfront := ih (n := n / 16) (by omega) (isDigit_upperDigit (Nat.mod_lt _ (by decide)))
    have hall := hfront.more hdigit
    rwa [Nat.div_add_mod'] at hall

theorem denotes_hexWord (w : Word) : Denotes 16 (hexWord w) w.toNat := by
  have hlt : w.toNat < hexCount 8 := w.toNat_lt
  exact denotes_hexDigits hlt

theorem denotes_hexByte (b : Byte) : Denotes 16 (hexByte b) b.toNat := by
  have hlt : b.toNat < hexCount 2 := b.toNat_lt
  exact denotes_hexDigits hlt

end Text

/-! ### Columns -/

/-- A column of a line: how many digits its number has, and what stands around them. -/
structure Column where
  before : Text
  width : Nat
  behind : Text

namespace Columns

variable {cols cols' : List Column} {ns ms : List Nat} {s t u v : Text}

/-- The text shows the numbers in the columns, each in as many hexadecimal digits as its column
has. -/
inductive Shows : List Column → List Nat → Text → Prop
  | nil : Shows [] [] []
  | cons {col : Column} {cols : List Column} {n : Nat} {ns : List Nat} {digits s : Text} :
      digits.length = col.width → Text.Denotes 16 digits n → Shows cols ns s →
      Shows (col :: cols) (n :: ns) (col.before ++ (digits ++ (col.behind ++ s)))

theorem Shows.single {before digits behind : Text} {width n : Nat} (hlength : digits.length = width)
    (hdigits : Text.Denotes 16 digits n) :
    Shows [⟨before, width, behind⟩] [n] (before ++ (digits ++ behind)) := by
  have hshows : Shows [⟨before, width, behind⟩] [n] (before ++ (digits ++ (behind ++ []))) :=
    .cons hlength hdigits .nil
  rwa [List.append_nil] at hshows

theorem Shows.word (before behind : Text) (w : Word) :
    Shows [⟨before, 8, behind⟩] [w.toNat] (before ++ (Text.hexWord w ++ behind)) :=
  .single (Text.length_hexDigits _ _ _) (Text.denotes_hexWord w)

theorem Shows.byte (before behind : Text) (b : Byte) :
    Shows [⟨before, 2, behind⟩] [b.toNat] (before ++ (Text.hexByte b ++ behind)) :=
  .single (Text.length_hexDigits _ _ _) (Text.denotes_hexByte b)

theorem Shows.bit (before behind : Text) (b : Bool) :
    Shows [⟨before, 1, behind⟩] [b.toNat] (before ++ ([if b then '1' else '0'] ++ behind)) := by
  have hdigit : Text.IsDigit 16 (if b then '1' else '0') b.toNat := by
    cases b <;> exact ⟨by decide, by decide⟩
  exact .single rfl (.digit hdigit)

/-- Columns may be added behind others. -/
theorem Shows.append (hs : Shows cols ns s) (ht : Shows cols' ms t) :
    Shows (cols ++ cols') (ns ++ ms) (s ++ t) := by
  induction hs with
  | nil => exact ht
  | cons hlength hdigits _ ih => simpa using Shows.cons hlength hdigits ih

/-- The columns are found again by their widths, and the numbers in them by their digits. -/
theorem Shows.unique (hs : Shows cols ns s) (ht : Shows cols ms t) (h : s ++ u = t ++ v) :
    ns = ms ∧ u = v := by
  induction hs generalizing ms t with
  | nil =>
    cases ht
    exact ⟨rfl, h⟩
  | cons hlength hdigits _ ih =>
    cases ht with
    | cons hlength' hdigits' hrest =>
      simp only [List.append_assoc, List.append_cancel_left_eq] at h
      obtain ⟨rfl, htail⟩ := List.append_inj h (hlength.trans hlength'.symm)
      obtain ⟨rfl, huv⟩ := ih hrest (List.append_cancel_left htail)
      rw [hdigits.unique hdigits' (by decide)]
      exact ⟨rfl, huv⟩

end Columns

/-! ### The line of a record -/

namespace TraceRecord

open Columns

/-- The column of a register. -/
def column (r : Register) : Column := ⟨r.name ++ [':'], 8, [' ']⟩

/-- The columns of a line. -/
def columns : List Column :=
  [⟨"IP:".toList, 8, []⟩, ⟨" OP:".toList, 2, " | ".toList⟩] ++
    (generalRegisters.map column ++ [column .ip, column .rF, ⟨"rS:".toList, 1, [' ']⟩])

/-- The numbers in the columns. -/
def numbers (t : TraceRecord) : List Nat :=
  [t.ipBefore.toNat, t.opcode.toNat] ++
    (t.general.toList.map UInt32.toNat ++ [t.ipAfter.toNat, t.flags.word.toNat, t.signed.toNat])

/-- The names of the bits that are set among the eight low ones of a number, from the lowest
on. -/
def bitNames (n : Nat) : List Text :=
  (Flag.all.zipIdx.filter fun entry => n.testBit entry.2).map fun entry => entry.1.name

theorem names_eq_bitNames (flags : Flags) : flags.names = bitNames flags.word.toNat := by
  have hplaces : Flag.all.zipIdx = Flag.all.map fun f => (f, f.place) := rfl
  have hbits : flags.has = fun f => flags.word.toNat.testBit f.place := by
    funext f
    exact flags.has_eq_testBit f
  rw [bitNames, hplaces, List.filter_map, List.map_map, Flags.names, hbits]
  rfl

theorem shows_registers (rs : List Register) (ws : List Word) (h : rs.length = ws.length) :
    Shows (rs.map column) (ws.map UInt32.toNat)
      ((rs.zip ws).flatMap fun p => renderRegister p.1 p.2 ++ [' ']) := by
  induction rs generalizing ws with
  | nil =>
    obtain rfl := List.length_eq_zero_iff.1 h.symm
    exact .nil
  | cons r rs ih =>
    cases ws with
    | nil => cases h
    | cons w ws =>
      have hrest := ih ws (Nat.succ.inj h)
      simpa [renderRegister, column] using (Shows.word (r.name ++ [':']) [' '] w).append hrest

/-- On the line of a record stand its numbers, and behind them the names of the flags. -/
theorem exists_shows (t : TraceRecord) : ∃ s, Shows columns t.numbers s ∧
    t.render = s ++ '[' :: (t.flags.names.flatMap (fun name => name ++ [' ']) ++ [']']) := by
  have hfront := (Shows.word "IP:".toList [] t.ipBefore).append
    (Shows.byte " OP:".toList " | ".toList t.opcode)
  have hregisters := shows_registers generalRegisters t.general.toList (by
    rw [Vector.length_toList]
    rfl)
  have hback := (shows_registers [.ip, .rF] [t.ipAfter, t.flags.word] rfl).append
    (Shows.bit "rS:".toList [' '] t.signed)
  refine ⟨_, hfront.append (hregisters.append hback), ?_⟩
  simp [render, renderRegister, Register.name]

/-- The numbers are all that there is in a record. -/
theorem numbers_injective {t u : TraceRecord} (h : t.numbers = u.numbers) : t = u := by
  obtain ⟨ipBefore, opcode, general, ipAfter, flags, signed⟩ := t
  obtain ⟨ipBefore', opcode', general', ipAfter', flags', signed'⟩ := u
  simp only [numbers, List.cons_append, List.nil_append, List.cons.injEq] at h
  obtain ⟨hbefore, hopcode, hrest⟩ := h
  have hlength : (general.toList.map UInt32.toNat).length =
      (general'.toList.map UInt32.toNat).length := by simp
  obtain ⟨hgeneral, hback⟩ := List.append_inj hrest hlength
  simp only [List.cons.injEq] at hback
  obtain ⟨hafter, hflags, hsigned, -⟩ := hback
  obtain rfl := UInt32.toNat_inj.1 hbefore
  obtain rfl := UInt8.toNat_inj.1 hopcode
  obtain rfl := UInt32.toNat_inj.1 hafter
  have hwords := (List.map_inj_right fun _ _ => UInt32.toNat_inj.1).1 hgeneral
  obtain rfl := Vector.toList_inj.1 hwords
  rcases flags with ⟨word⟩
  rcases flags' with ⟨word'⟩
  obtain rfl : word = word' := UInt32.toNat_inj.1 hflags
  obtain rfl : signed = signed' := by
    cases signed <;> cases signed' <;> simp_all
  rfl

/-- A record can be told from its line. Each of its numbers stands there in a column of a fixed
width, whatever its value, and the names in the brackets are those of the bits that are set in
the word before them, in the order of the bits. -/
theorem render_eq_iff :
    (∀ t u : TraceRecord, t.render = u.render ↔ t = u) ∧
    ∀ t : TraceRecord, ∃ s, Shows columns t.numbers s ∧
      t.render =
        s ++ '[' :: ((bitNames t.flags.word.toNat).flatMap (fun name => name ++ [' ']) ++ [']']) := by
  refine ⟨?_, ?_⟩
  · intro t u
    refine ⟨?_, fun h => congrArg render h⟩
    intro h
    obtain ⟨s, hs, ht⟩ := exists_shows t
    obtain ⟨s', hs', hu⟩ := exists_shows u
    rw [ht, hu] at h
    exact numbers_injective (hs.unique hs' h).1
  · intro t
    rw [← names_eq_bitNames]
    exact exists_shows t

end TraceRecord

end RegisterMachine
