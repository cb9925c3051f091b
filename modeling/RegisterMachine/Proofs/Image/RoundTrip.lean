import RegisterMachine.Assembly.Basic
import RegisterMachine.Proofs.Assembly.Agreement
import RegisterMachine.Proofs.Image.Decoding

/-!
# RegisterMachine.Proofs.Image.RoundTrip

A file and its image determine each other. The file of an image is read back as
that image, whatever follows it (`Image.ofBytes_encode_append`), and if an image
is read then its file is what was read (`Image.encode_prefix_of_ofBytes`). Both
need that the sizes are words, `Image.Fits`; nothing that is assembled or read
misses it.
-/

namespace RegisterMachine

namespace Image

variable {image : Image} {bytes : List Byte}

/-! ### From the image to the file and back -/

theorem encode_append (image : Image) (rest : List Byte) :
    image.encode ++ rest =
      magic ++ (image.entry.toBytes ++ (Word.toBytes (UInt32.ofNat image.code.length) ++
        (Word.toBytes (UInt32.ofNat image.data.length) ++
          (image.code ++ (image.data ++ rest))))) := by
  simp only [encode, header, List.append_assoc]

theorem wordAt_encode_append (image : Image) (rest : List Byte) :
    wordAt 4 (image.encode ++ rest) = image.entry ∧
      wordAt 8 (image.encode ++ rest) = UInt32.ofNat image.code.length ∧
      wordAt 12 (image.encode ++ rest) = UInt32.ofNat image.data.length := by
  rw [encode_append]
  refine ⟨wordAt_append rfl, ?_, ?_⟩
  · rw [← List.append_assoc]
    exact wordAt_append (by simp)
  · rw [← List.append_assoc, ← List.append_assoc]
    exact wordAt_append (by simp)

theorem codeSizeOf_encode_append (h : image.Fits) (rest : List Byte) :
    codeSizeOf (image.encode ++ rest) = image.code.length := by
  rw [codeSizeOf, (wordAt_encode_append image rest).2.1]
  exact UInt32.toNat_ofNat_of_lt h.1

theorem dataSizeOf_encode_append (h : image.Fits) (rest : List Byte) :
    dataSizeOf (image.encode ++ rest) = image.data.length := by
  rw [dataSizeOf, (wordAt_encode_append image rest).2.2]
  exact UInt32.toNat_ofNat_of_lt h.2

theorem drop_encode_append (image : Image) (rest : List Byte) :
    (image.encode ++ rest).drop 16 = image.code ++ (image.data ++ rest) := by
  have hlen : (magic ++ image.header).length = 16 := by simp
  rw [← hlen]
  simp only [encode, List.append_assoc]
  rw [← List.append_assoc]
  exact List.drop_left

/-- What an image is written to is what it is read from. -/
theorem ofBytes_encode_append (h : image.Fits) (rest : List Byte) :
    ofBytes (image.encode ++ rest) = .ok image := by
  have hlen : (image.encode ++ rest).length =
      16 + image.code.length + image.data.length + rest.length := by
    rw [List.length_append, length_encode]
  have hmagic : (image.encode ++ rest).take 4 = magic := by
    rw [encode_append]
    exact List.take_left' length_magic
  rw [ofBytes, codeSizeOf_encode_append h, dataSizeOf_encode_append h, ← List.drop_drop,
    drop_encode_append, if_neg (by simp [hmagic]), if_neg (by omega), if_neg (by omega),
    (wordAt_encode_append image rest).1, List.take_left, List.drop_left, List.take_left]

/-! ### From the file to the image and back -/

/-- Whatever is read has all of its bytes. -/
theorem exists_of_ofBytes (h : ofBytes bytes = .ok image) :
    bytes.take 4 = magic ∧ 16 + codeSizeOf bytes + dataSizeOf bytes ≤ bytes.length ∧
      image =
        { entry := wordAt 4 bytes
          code := (bytes.drop 16).take (codeSizeOf bytes)
          data := (bytes.drop (16 + codeSizeOf bytes)).take (dataSizeOf bytes) } := by
  unfold ofBytes at h
  by_cases hm : bytes.take 4 ≠ magic
  · rw [if_pos hm] at h
    cases h
  rw [if_neg hm] at h
  by_cases hl : bytes.length < 16
  · rw [if_pos hl] at h
    cases h
  rw [if_neg hl] at h
  by_cases hp : bytes.length < 16 + codeSizeOf bytes + dataSizeOf bytes
  · rw [if_pos hp] at h
    cases h
  rw [if_neg hp] at h
  exact ⟨Decidable.not_not.1 hm, by omega, (Except.ok.inj h).symm⟩

theorem fits_of_ofBytes (h : ofBytes bytes = .ok image) : image.Fits := by
  obtain ⟨-, -, rfl⟩ := exists_of_ofBytes h
  constructor
  · exact Nat.lt_of_le_of_lt (List.length_take_le _ _) (wordAt 8 bytes).toNat_lt
  · exact Nat.lt_of_le_of_lt (List.length_take_le _ _) (wordAt 12 bytes).toNat_lt

/-- What an image is read from is what it is written to. -/
theorem encode_prefix_of_ofBytes (h : ofBytes bytes = .ok image) : image.encode <+: bytes := by
  obtain ⟨hmagic, hlen, himage⟩ := exists_of_ofBytes h
  have hcode : ((bytes.drop 16).take (codeSizeOf bytes)).length = codeSizeOf bytes := by
    rw [List.length_take, List.length_drop]
    omega
  have hdata : ((bytes.drop (16 + codeSizeOf bytes)).take (dataSizeOf bytes)).length =
      dataSizeOf bytes := by
    rw [List.length_take, List.length_drop]
    omega
  -- the fields are adjoining slices of the file, and each is written as it was read
  have hslices : bytes.take (4 + 4 + 4 + 4 + codeSizeOf bytes + dataSizeOf bytes) =
      bytes.take 4 ++ (bytes.drop 4).take 4 ++ (bytes.drop 8).take 4 ++
        (bytes.drop 12).take 4 ++ (bytes.drop 16).take (codeSizeOf bytes) ++
        (bytes.drop (16 + codeSizeOf bytes)).take (dataSizeOf bytes) := by
    simp only [List.take_add]
  have hfile : image.encode =
      bytes.take (4 + 4 + 4 + 4 + codeSizeOf bytes + dataSizeOf bytes) := by
    rw [hslices, himage, encode, header, hcode, hdata, hmagic]
    dsimp only
    rw [codeSizeOf, dataSizeOf, UInt32.ofNat_toNat, UInt32.ofNat_toNat,
      toBytes_wordAt (by omega), toBytes_wordAt (by omega), toBytes_wordAt (by omega)]
    simp only [List.append_assoc]
  rw [hfile]
  exact List.take_prefix _ bytes

end Image

/-! ### What is assembled fits -/

theorem Layout.codeSize_lt_of_ofLines {lines : List Line} {layout : Layout}
    (h : ofLines lines = .ok layout) : layout.codeSize < Draft.addressLimit := by
  obtain ⟨draft, hdraft, hsize, -, -⟩ := exists_of_ofLines h
  rw [hsize]
  exact (Draft.covers_of_ofLines hdraft).codeSize_lt

/-- No buffer is placed so that the data behind it would have no size. -/
theorem Layout.lt_of_place {codeSize offset : Nat} {ds : List (Nat × Declaration)}
    {placed : List (Text × Nat) × Nat} (hoffset : offset < Draft.addressLimit)
    (h : place codeSize offset ds = .ok placed) : placed.2 < Draft.addressLimit := by
  induction ds generalizing offset placed with
  | nil =>
    cases h
    exact hoffset
  | cons entry ds ih =>
    obtain ⟨line, d⟩ := entry
    rw [place] at h
    split at h
    · rename_i hroom
      obtain ⟨p, hp, rfl⟩ := exists_of_map_eq_ok h
      have hlt : p.2 < Draft.addressLimit := ih hroom.2 hp
      exact hlt
    · cases h

theorem Layout.dataSize_lt_of_ofLines {lines : List Line} {layout : Layout}
    (h : ofLines lines = .ok layout) : layout.dataSize < Draft.addressLimit := by
  obtain ⟨draft, -, hplace⟩ := exists_of_bind_eq_ok h
  obtain ⟨placed, hplaced, rfl⟩ := exists_of_map_eq_ok hplace
  exact lt_of_place (by decide) hplaced

/-- An image that is assembled has the code of the second reading and the data of the layout. -/
theorem exists_of_assembleLines {lines : List Line} {image : Image}
    (h : assembleLines lines = .ok image) :
    ∃ layout emission, Layout.ofLines lines = .ok layout ∧
      Emission.ofLines layout lines = .ok emission ∧
      image = ⟨0, emission.code.toList, List.replicate layout.dataSize 0⟩ := by
  obtain ⟨layout, hlayout, hrest⟩ := exists_of_bind_eq_ok h
  obtain ⟨emission, hemission, himage⟩ := exists_of_bind_eq_ok hrest
  cases himage
  exact ⟨layout, emission, hlayout, hemission, rfl⟩

theorem Image.fits_of_assemble {source : String} {image : Image}
    (h : assemble source = .ok image) : image.Fits := by
  obtain ⟨layout, emission, hlayout, hemission, rfl⟩ := exists_of_assembleLines h
  have hcode := (Emission.covers_of_ofLines hemission).size_code
  rw [← Layout.codeSize_of_ofLines hlayout] at hcode
  constructor
  · have hlt := Layout.codeSize_lt_of_ofLines hlayout
    rw [← hcode, ← Array.length_toList] at hlt
    exact hlt
  · have hlt := Layout.dataSize_lt_of_ofLines hlayout
    show (List.replicate layout.dataSize (0 : Byte)).length < _
    rw [List.length_replicate]
    exact hlt

/-! ### The round trip -/

/-- The file format loses nothing and admits no second file for an image, and no image that the
program comes by is outside it. -/
theorem Image.file_round_trip :
    (∀ (image : Image) (r : Reader) (rest : List Byte), image.Fits →
      r.delivered = image.encode ++ rest → decode r = .ok image) ∧
    (∀ (source : String) (image : Image), assemble source = .ok image → image.Fits) ∧
    (∀ (r : Reader) (image : Image), decode r = .ok image → image.Fits) ∧
    (∀ (r : Reader) (image : Image), decode r = .ok image → image.encode <+: r.delivered) := by
  refine ⟨?_, fun _ _ => fits_of_assemble, ?_, ?_⟩
  · intro image r rest hfits hr
    rw [decode_eq_ofBytes, hr]
    exact ofBytes_encode_append hfits rest
  · intro r image h
    rw [decode_eq_ofBytes] at h
    exact fits_of_ofBytes h
  · intro r image h
    rw [decode_eq_ofBytes] at h
    exact encode_prefix_of_ofBytes h

/-- A file with two bytes behind it, which arrives in three parts. -/
theorem Image.file_round_trip_in_parts :
    Image.Fits ⟨1, [0x0F, 0x00], [0x07]⟩ ∧
      decode ⟨[.chunk [0x42, 0x56], .interrupted,
        .chunk [0x4D, 0, 1, 0, 0, 0, 2, 0, 0, 0, 1, 0, 0, 0, 0x0F], .chunk [0, 7, 0xFF, 0xFE]],
        none⟩ = .ok ⟨1, [0x0F, 0x00], [0x07]⟩ :=
  ⟨by decide, file_round_trip.1 _ _ [0xFF, 0xFE] (by decide) (by decide)⟩

end RegisterMachine
