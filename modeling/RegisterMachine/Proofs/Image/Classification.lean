import RegisterMachine.Proofs.Image.Decoding

/-!
# RegisterMachine.Proofs.Image.Classification

What becomes of a source of bytes, whatever it delivers and however. The bytes
alone decide it: they are an image, or there is one of three reasons why they are
not (`Image.Classifies`).

A source is read by single reads, each of which has room for some bytes and may
give fewer. How much room a loop offers is its own affair: whatever it is,
`Reader.Gets n` comes to the first `n` delivered bytes (`Reader.Gets.eq_take`),
and `Image.ReadsAs` puts four such loops together, one for the magic, one for the
rest of the header and one for each region. It has no other result than
`Image.decode`.
-/

namespace RegisterMachine

/-- What one read of a source gives. -/
inductive Read
  | bytes (bs : List Byte)
  /-- Nothing, but the read may be tried again. -/
  | interrupted
  /-- Nothing any more: the source is at its end, or it has failed. -/
  | ended (failure : Option HostError)

/-- The bytes that a read gives. -/
def Read.given : Read → List Byte
  | bytes bs => bs
  | interrupted => []
  | ended _ => []

namespace Reader

/-- One read of what arrives, with room for `room` bytes. What there is no room for is left to the
next read. -/
def readFrom (failure : Option HostError) (room : Nat) : List Arrival → Read × List Arrival
  | [] => (.ended failure, [])
  | .interrupted :: as => (.interrupted, as)
  | .chunk [] :: as => readFrom failure room as
  | .chunk (b :: bs) :: as =>
    if bs.length < room then (.bytes (b :: bs), as)
    else (.bytes ((b :: bs).take room), .chunk ((b :: bs).drop room) :: as)

/-- One read with room for `room` bytes. -/
def read (room : Nat) (r : Reader) : Read × Reader :=
  ((readFrom r.failure room r.arrivals).1,
    { r with arrivals := (readFrom r.failure room r.arrivals).2 })

/-- Reading on until there are `n` bytes or nothing comes any more gives `bs` and leaves `last`.
Each read has room for at least one byte and for no more than are missing. -/
inductive Gets : Nat → Reader → List Byte → Reader → Prop
  | full (r : Reader) : Gets 0 r [] r
  | bytes {n room : Nat} {r next last : Reader} {bs more : List Byte} : 0 < room → room ≤ n →
      r.read room = (.bytes bs, next) → Gets (n - bs.length) next more last →
      Gets n r (bs ++ more) last
  | interrupted {n room : Nat} {r next last : Reader} {bs : List Byte} : 0 < room → room ≤ n →
      r.read room = (.interrupted, next) → Gets n next bs last → Gets n r bs last
  | ended {n room : Nat} {r last : Reader} {failure : Option HostError} : 0 < room → room ≤ n →
      r.read room = (.ended failure, last) → Gets n r [] last

/-! ### Single reads -/

/-- A read gives the first of the bytes that are still to be delivered, and no more than there is
room for. -/
theorem given_readFrom (failure : Option HostError) (room : Nat) (as : List Arrival) :
    bytesOf as = (readFrom failure room as).1.given ++ bytesOf (readFrom failure room as).2 ∧
      (readFrom failure room as).1.given.length ≤ room := by
  fun_induction readFrom failure room as with
  | case1 => simp [Read.given, bytesOf]
  | case2 as => simp [Read.given, bytesOf]
  | case3 as ih => simpa [bytesOf] using ih
  | case4 b bs as h => simp [Read.given, bytesOf]; omega
  | case5 b bs as h =>
    rw [bytesOf, bytesOf, Read.given, ← List.append_assoc, List.take_append_drop]
    exact ⟨rfl, List.length_take_le _ _⟩

theorem readFrom_ended {failure e : Option HostError} {room : Nat} {as rest : List Arrival}
    (h : readFrom failure room as = (.ended e, rest)) : bytesOf rest = [] := by
  fun_induction readFrom failure room as with
  | case1 =>
    cases h
    rfl
  | case2 as => cases h
  | case3 as ih => exact ih h
  | case4 b bs as hb => cases h
  | case5 b bs as hb => cases h

theorem delivered_of_read {room : Nat} {r next : Reader} {x : Read}
    (h : r.read room = (x, next)) :
    r.delivered = x.given ++ next.delivered ∧ x.given.length ≤ room := by
  cases h
  exact given_readFrom r.failure room r.arrivals

theorem delivered_of_read_ended {room : Nat} {r last : Reader} {e : Option HostError}
    (h : r.read room = (.ended e, last)) : last.delivered = [] := by
  obtain ⟨he, rfl⟩ := Prod.mk.inj h
  exact readFrom_ended (Prod.ext he rfl)

/-! ### Loops of reads -/

/-- However many bytes the single reads ask for and give, together they give the first ones. -/
theorem Gets.eq_take {n : Nat} {r last : Reader} {bs : List Byte} (h : r.Gets n bs last) :
    bs = r.delivered.take n ∧ last.delivered = r.delivered.drop n := by
  induction h with
  | full r => simp
  | @bytes n room r next last bs more _ hroom hread _ ih =>
    obtain ⟨hdelivered, hlen⟩ := delivered_of_read hread
    have hle : bs.length ≤ n := Nat.le_trans hlen hroom
    rw [hdelivered, Read.given, List.take_append, List.drop_append, List.take_of_length_le hle,
      List.drop_of_length_le hle, ih.1, ih.2]
    simp
  | @interrupted n room r next last bs _ _ hread _ ih =>
    obtain ⟨hdelivered, -⟩ := delivered_of_read hread
    rw [hdelivered]
    simpa [Read.given] using ih
  | @ended n room r last e _ _ hread =>
    obtain ⟨hdelivered, -⟩ := delivered_of_read hread
    rw [hdelivered, delivered_of_read_ended hread]
    simp [Read.given]

/-- A chunk without bytes is not noticed. -/
theorem Gets.of_empty_chunk {failure : Option HostError} {n : Nat} {as : List Arrival}
    {bs : List Byte} {last : Reader} (h : Gets (n + 1) ⟨as, failure⟩ bs last) :
    Gets (n + 1) ⟨.chunk [] :: as, failure⟩ bs last := by
  cases h with
  | bytes hpos hroom hread hmore => exact .bytes hpos hroom hread hmore
  | interrupted hpos hroom hread hmore => exact .interrupted hpos hroom hread hmore
  | ended hpos hroom hread => exact .ended hpos hroom hread

/-- Reading on comes to an end. -/
theorem exists_gets (n : Nat) (r : Reader) : ∃ bs last, r.Gets n bs last := by
  obtain ⟨as, failure⟩ := r
  -- the loop that always offers room for all that is missing
  fun_induction fillFrom failure n as with
  | case1 as => exact ⟨_, _, .full _⟩
  | case2 n => exact ⟨_, _, .ended (Nat.succ_pos n) (Nat.le_refl _) rfl⟩
  | case3 n as ih =>
    obtain ⟨bs, last, h⟩ := ih
    exact ⟨_, _, .interrupted (Nat.succ_pos n) (Nat.le_refl _) rfl h⟩
  | case4 n bs as hle filling ih =>
    obtain ⟨more, last, h⟩ := ih
    cases bs with
    | nil => exact ⟨_, _, h.of_empty_chunk⟩
    | cons b bs =>
      have hread : read (n + 1) ⟨.chunk (b :: bs) :: as, failure⟩ =
          (.bytes (b :: bs), ⟨as, failure⟩) := by
        have hlt : bs.length < n + 1 := hle
        simp [read, readFrom, hlt]
      exact ⟨_, _, .bytes (Nat.succ_pos n) (Nat.le_refl _) hread h⟩
  | case5 n bs as hlt =>
    cases bs with
    | nil => simp at hlt
    | cons b bs =>
      have hread : read (n + 1) ⟨.chunk (b :: bs) :: as, failure⟩ =
          (.bytes ((b :: bs).take (n + 1)), ⟨.chunk ((b :: bs).drop (n + 1)) :: as, failure⟩) := by
        have hge : ¬bs.length < n + 1 := hlt
        simp [read, readFrom, hge]
      have hlen : n + 1 - ((b :: bs).take (n + 1)).length = 0 := by
        rw [List.length_take]
        omega
      have hfull := Gets.full ⟨.chunk ((b :: bs).drop (n + 1)) :: as, failure⟩
      exact ⟨_, _, .bytes (Nat.succ_pos n) (Nat.le_refl _) hread (hlen ▸ hfull)⟩

end Reader

namespace Image

/-- Reading an image read by read has this result. Of each field it is only asked how many bytes
of it there are, and not why there are no more. -/
inductive ReadsAs (r : Reader) : Except FormatError Image → Prop
  | badMagic {start : List Byte} {r₁ : Reader} : r.Gets 4 start r₁ → start ≠ magic →
      ReadsAs r (.error .badMagic)
  | truncatedHeader {sizes : List Byte} {r₁ r₂ : Reader} : r.Gets 4 magic r₁ →
      r₁.Gets 12 sizes r₂ → sizes.length ≠ 12 → ReadsAs r (.error .truncatedHeader)
  | truncatedCode {sizes code : List Byte} {r₁ r₂ r₃ : Reader} : r.Gets 4 magic r₁ →
      r₁.Gets 12 sizes r₂ → sizes.length = 12 →
      r₂.Gets (wordAt 4 sizes).toNat code r₃ → code.length ≠ (wordAt 4 sizes).toNat →
      ReadsAs r (.error .truncatedPayload)
  | truncatedData {sizes code data : List Byte} {r₁ r₂ r₃ r₄ : Reader} : r.Gets 4 magic r₁ →
      r₁.Gets 12 sizes r₂ → sizes.length = 12 →
      r₂.Gets (wordAt 4 sizes).toNat code r₃ → code.length = (wordAt 4 sizes).toNat →
      r₃.Gets (wordAt 8 sizes).toNat data r₄ → data.length ≠ (wordAt 8 sizes).toNat →
      ReadsAs r (.error .truncatedPayload)
  | image {sizes code data : List Byte} {r₁ r₂ r₃ r₄ : Reader} : r.Gets 4 magic r₁ →
      r₁.Gets 12 sizes r₂ → sizes.length = 12 →
      r₂.Gets (wordAt 4 sizes).toNat code r₃ → code.length = (wordAt 4 sizes).toNat →
      r₃.Gets (wordAt 8 sizes).toNat data r₄ → data.length = (wordAt 8 sizes).toNat →
      ReadsAs r (.ok ⟨wordAt 0 sizes, code, data⟩)

theorem exists_readsAs (r : Reader) : ∃ result, ReadsAs r result := by
  obtain ⟨start, r₁, hstart⟩ := r.exists_gets 4
  by_cases hmagic : start = magic
  case neg => exact ⟨_, .badMagic hstart hmagic⟩
  subst hmagic
  obtain ⟨sizes, r₂, hsizes⟩ := r₁.exists_gets 12
  by_cases hlen : sizes.length = 12
  case neg => exact ⟨_, .truncatedHeader hstart hsizes hlen⟩
  obtain ⟨code, r₃, hcode⟩ := r₂.exists_gets (wordAt 4 sizes).toNat
  by_cases hc : code.length = (wordAt 4 sizes).toNat
  case neg => exact ⟨_, .truncatedCode hstart hsizes hlen hcode hc⟩
  obtain ⟨data, r₄, hdata⟩ := r₃.exists_gets (wordAt 8 sizes).toNat
  by_cases hd : data.length = (wordAt 8 sizes).toNat
  case neg => exact ⟨_, .truncatedData hstart hsizes hlen hcode hc hdata hd⟩
  exact ⟨_, .image hstart hsizes hlen hcode hc hdata hd⟩

/-- A word of the header is found in the file behind the magic. -/
theorem wordAt_header {n : Nat} (bytes : List Byte) (h : n ≤ 8) :
    wordAt n ((bytes.drop 4).take 12) = wordAt (4 + n) bytes := by
  rw [wordAt, wordAt, List.drop_take, List.take_take, List.drop_drop, Nat.min_eq_left (by omega)]

/-! ### The four kinds of files -/

/-- What the bytes of a file say that reading it comes to. The sizes in the header are added as
natural numbers. -/
structure Classifies (bytes : List Byte) (result : Except FormatError Image) : Prop where
  badMagic : result = .error .badMagic ↔ bytes.length < 4 ∨ ¬magic <+: bytes
  truncatedHeader : result = .error .truncatedHeader ↔ magic <+: bytes ∧ bytes.length < 16
  truncatedPayload : result = .error .truncatedPayload ↔ magic <+: bytes ∧ 16 ≤ bytes.length ∧
    bytes.length < 16 + codeSizeOf bytes + dataSizeOf bytes
  image : ∀ image, result = .ok image ↔ magic <+: bytes ∧
    16 + codeSizeOf bytes + dataSizeOf bytes ≤ bytes.length ∧
      image =
        { entry := wordAt 4 bytes
          code := (bytes.drop 16).take (codeSizeOf bytes)
          data := (bytes.drop (16 + codeSizeOf bytes)).take (dataSizeOf bytes) }

theorem magic_prefix_iff {bytes : List Byte} : magic <+: bytes ↔ bytes.take 4 = magic := by
  rw [List.prefix_iff_eq_take, length_magic, eq_comm]

theorem classifies_ofBytes (bytes : List Byte) : Classifies bytes (ofBytes bytes) := by
  unfold ofBytes
  by_cases hm : bytes.take 4 ≠ magic
  · have hmagic : ¬magic <+: bytes := fun h => hm (magic_prefix_iff.1 h)
    rw [if_pos hm]
    exact ⟨by simp [hmagic], by simp [hmagic], by simp [hmagic], by simp [hmagic]⟩
  have hmagic : magic <+: bytes := magic_prefix_iff.2 (Decidable.not_not.1 hm)
  have hlength : ¬bytes.length < 4 := Nat.not_lt.2 hmagic.length_le
  rw [if_neg hm]
  by_cases hl : bytes.length < 16
  · rw [if_pos hl]
    refine ⟨by simp [hmagic, hlength], by simp [hmagic, hl], ?_, ?_⟩
    · simp [Nat.not_le.2 hl]
    · intro image
      simp
      omega
  rw [if_neg hl]
  by_cases hp : bytes.length < 16 + codeSizeOf bytes + dataSizeOf bytes
  · rw [if_pos hp]
    refine ⟨by simp [hmagic, hlength], by simp [hl], ?_, ?_⟩
    · simp [hmagic, hp, Nat.not_lt.1 hl]
    · intro image
      simp [Nat.not_le.2 hp]
  · rw [if_neg hp]
    refine ⟨by simp [hmagic, hlength], by simp [hl], by simp [hp], ?_⟩
    intro image
    simp [hmagic, Nat.not_lt.1 hp, eq_comm]

/-! ### Read by read -/

/-- A header that has all of its bytes is that of the delivered bytes. -/
theorem header_of_gets {r r₁ r₂ : Reader} {sizes : List Byte} (hstart : r.Gets 4 magic r₁)
    (hsizes : r₁.Gets 12 sizes r₂) (hlen : sizes.length = 12) :
    magic <+: r.delivered ∧ 16 ≤ r.delivered.length ∧ wordAt 0 sizes = wordAt 4 r.delivered ∧
      (wordAt 4 sizes).toNat = codeSizeOf r.delivered ∧
      (wordAt 8 sizes).toNat = dataSizeOf r.delivered ∧ r₂.delivered = r.delivered.drop 16 := by
  obtain ⟨hstart, hrest⟩ := hstart.eq_take
  obtain ⟨hsizes, hrest'⟩ := hsizes.eq_take
  rw [hrest] at hsizes hrest'
  subst hsizes
  rw [List.length_take, List.length_drop] at hlen
  refine ⟨magic_prefix_iff.2 hstart.symm, by omega, wordAt_header _ (by omega), ?_, ?_, ?_⟩
  · rw [wordAt_header _ (by omega)]
    rfl
  · rw [wordAt_header _ (by omega)]
    rfl
  · rw [hrest', List.drop_drop]

/-- Whatever room the single reads have, what they come to depends on the delivered bytes alone. -/
theorem ReadsAs.eq_ofBytes {r : Reader} {result : Except FormatError Image}
    (h : ReadsAs r result) : result = ofBytes r.delivered := by
  -- a field has fewer bytes than are asked for exactly if the source has delivered too few
  have hclass := classifies_ofBytes r.delivered
  cases h with
  | badMagic hstart hne =>
    refine (hclass.badMagic.2 (Or.inr ?_)).symm
    intro hmagic
    exact hne (hstart.eq_take.1.trans (magic_prefix_iff.1 hmagic))
  | @truncatedHeader sizes r₁ r₂ hstart hsizes hlen =>
    have hmagic : magic <+: r.delivered := magic_prefix_iff.2 hstart.eq_take.1.symm
    rw [hsizes.eq_take.1, hstart.eq_take.2, List.length_take, List.length_drop] at hlen
    exact (hclass.truncatedHeader.2 ⟨hmagic, by omega⟩).symm
  | truncatedCode hstart hsizes hlen hcode hc =>
    obtain ⟨hmagic, hle, -, hcodeSize, -, hrest⟩ := header_of_gets hstart hsizes hlen
    rw [hcode.eq_take.1, hrest, hcodeSize, List.length_take, List.length_drop] at hc
    exact (hclass.truncatedPayload.2 ⟨hmagic, hle, by omega⟩).symm
  | truncatedData hstart hsizes hlen hcode hc hdata hd =>
    obtain ⟨hmagic, hle, -, hcodeSize, hdataSize, hrest⟩ := header_of_gets hstart hsizes hlen
    rw [hcode.eq_take.1, hrest, hcodeSize, List.length_take, List.length_drop] at hc
    rw [hdata.eq_take.1, hcode.eq_take.2, hrest, hcodeSize, hdataSize, List.length_take,
      List.length_drop, List.length_drop] at hd
    exact (hclass.truncatedPayload.2 ⟨hmagic, hle, by omega⟩).symm
  | image hstart hsizes hlen hcode hc hdata hd =>
    obtain ⟨hmagic, hle, hentry, hcodeSize, hdataSize, hrest⟩ :=
      header_of_gets hstart hsizes hlen
    rw [hcode.eq_take.1, hrest, hcodeSize, List.length_take, List.length_drop] at hc
    rw [hdata.eq_take.1, hcode.eq_take.2, hrest, hcodeSize, hdataSize, List.length_take,
      List.length_drop, List.length_drop] at hd
    refine ((hclass.image _).2 ⟨hmagic, by omega, ?_⟩).symm
    rw [hentry, hcode.eq_take.1, hdata.eq_take.1, hcode.eq_take.2, hrest, hcodeSize, hdataSize,
      List.drop_drop]

/-- A file is an image or not for one of three reasons, and which it is depends on the delivered
bytes alone: not on how they arrive, how much the single reads ask for, or how the source ends. -/
theorem decode_classifies (r : Reader) :
    Classifies r.delivered (decode r) ∧ ∀ result, ReadsAs r result ↔ result = decode r := by
  rw [decode_eq_ofBytes]
  refine ⟨classifies_ofBytes r.delivered, ?_⟩
  intro result
  constructor
  · exact ReadsAs.eq_ofBytes
  · rintro rfl
    obtain ⟨result, h⟩ := exists_readsAs r
    rwa [← h.eq_ofBytes]

/-- A file that is cut off behind its code is incomplete, and so is one whose source fails there. -/
example : decode ⟨[.chunk [0x42, 0x56, 0x4D], .interrupted, .chunk [0, 0, 0, 0, 0, 1, 0, 0],
    .chunk [0, 1, 0, 0, 0, 0x0B]], some .noSpace⟩ = .error .truncatedPayload := rfl

end Image

end RegisterMachine
