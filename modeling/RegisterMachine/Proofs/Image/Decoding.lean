import RegisterMachine.Image.Format

/-!
# RegisterMachine.Proofs.Image.Decoding

Support lemmas for **reading an image**. `Image.decode` goes through a reader
field by field; `Image.ofBytes` says at which places of the delivered bytes the
fields are, and what is missing where they end too early. The two are equal
(`Image.decode_eq_ofBytes`), so nothing that is proved of the bytes has to look
at chunks, interruptions or failures again.
-/

namespace RegisterMachine

namespace Image

/-- The word that stands at the given place. -/
def wordAt (n : Nat) (bytes : List Byte) : Word := Word.ofBytes ((bytes.drop n).take 4)

/-- The size of the code, as the header states it. -/
def codeSizeOf (bytes : List Byte) : Nat := (wordAt 8 bytes).toNat

/-- The size of the data, as the header states it. -/
def dataSizeOf (bytes : List Byte) : Nat := (wordAt 12 bytes).toNat

/-- The image whose file begins with the given bytes. -/
def ofBytes (bytes : List Byte) : Except FormatError Image :=
  if bytes.take 4 ≠ magic then .error .badMagic
  else if bytes.length < 16 then .error .truncatedHeader
  else if bytes.length < 16 + codeSizeOf bytes + dataSizeOf bytes then .error .truncatedPayload
  else
    .ok
      { entry := wordAt 4 bytes
        code := (bytes.drop 16).take (codeSizeOf bytes)
        data := (bytes.drop (16 + codeSizeOf bytes)).take (dataSizeOf bytes) }

theorem toBytes_wordAt {n : Nat} {bytes : List Byte} (h : n + 4 ≤ bytes.length) :
    (wordAt n bytes).toBytes = (bytes.drop n).take 4 := by
  refine Word.toBytes_ofBytes ?_
  rw [List.length_take, List.length_drop]
  omega

theorem wordAt_append {n : Nat} {pre rest : List Byte} {w : Word} (h : pre.length = n) :
    wordAt n (pre ++ (w.toBytes ++ rest)) = w := by
  rw [wordAt, ← h, List.drop_left, List.take_left' w.length_toBytes, Word.ofBytes_toBytes]

/-! ### One region -/

theorem readRegion_of_le {size : Word} {r : Reader} (h : size.toNat ≤ r.delivered.length) :
    readRegion size r = .ok (r.delivered.take size.toNat, (r.fill size.toNat).2) := by
  have hstop := (Reader.fill_stop size.toNat r).2 h
  rw [readRegion]
  dsimp only
  rw [hstop, Reader.fill_bytes]

theorem readRegion_of_lt {size : Word} {r : Reader} (h : r.delivered.length < size.toNat) :
    readRegion size r = .error .truncatedPayload := by
  have hstop : (r.fill size.toNat).1.stop ≠ .full := by
    rw [Ne, Reader.fill_stop]
    omega
  rw [readRegion]
  dsimp only
  split
  · contradiction
  · rfl
  · rfl

/-- Both regions, one right after the other. -/
theorem readRegions_eq {c d : Word} {r : Reader} (entry : Word) :
    (do
      let (code, r) ← readRegion c r
      let (data, _) ← readRegion d r
      return ({ entry, code, data } : Image) : Except FormatError Image) =
      if r.delivered.length < c.toNat + d.toNat then .error .truncatedPayload
      else
        .ok
          { entry
            code := r.delivered.take c.toNat
            data := (r.delivered.drop c.toNat).take d.toNat } := by
  by_cases hc : r.delivered.length < c.toNat
  · rw [readRegion_of_lt hc, if_pos (by omega)]
    rfl
  rw [readRegion_of_le (by omega)]
  change (do
    let (data, _) ← readRegion d (r.fill c.toNat).2
    return _) = _
  have hrest := Reader.fill_rest c.toNat r
  by_cases hd : r.delivered.length < c.toNat + d.toNat
  · rw [readRegion_of_lt (by rw [hrest, List.length_drop]; omega), if_pos hd]
    rfl
  · rw [readRegion_of_le (by rw [hrest, List.length_drop]; omega), if_neg hd, hrest]
    rfl

/-- What is read depends on the delivered bytes alone. -/
theorem decode_eq_ofBytes (r : Reader) : decode r = ofBytes r.delivered := by
  have hmagic := Reader.fill_bytes 4 r
  have hrest := Reader.fill_rest 4 r
  have hsizes := Reader.fill_bytes 12 (r.fill 4).2
  have hrest' := Reader.fill_rest 12 (r.fill 4).2
  rw [hrest] at hsizes hrest'
  rw [decode, ofBytes]
  dsimp only
  rw [hmagic, hsizes]
  by_cases hm : r.delivered.take 4 ≠ magic
  · rw [if_pos hm, if_pos hm]
  rw [if_neg hm, if_neg hm]
  by_cases hl : r.delivered.length < 16
  · have hne : ((r.delivered.drop 4).take 12).length ≠ 12 := by
      rw [List.length_take, List.length_drop]
      omega
    rw [if_pos hl, if_pos hne]
  have heq : ¬((r.delivered.drop 4).take 12).length ≠ 12 := by
    rw [List.length_take, List.length_drop]
    omega
  rw [if_neg hl, if_neg heq]
  have hdelivered : ((r.fill 4).2.fill 12).2.delivered = r.delivered.drop 16 := by
    rw [hrest', List.drop_drop]
  have hentry : Word.ofBytes (((r.delivered.drop 4).take 12).take 4) =
      wordAt 4 r.delivered := by
    rw [List.take_take, wordAt]
    rfl
  have hcode : Word.ofBytes ((((r.delivered.drop 4).take 12).drop 4).take 4) =
      wordAt 8 r.delivered := by
    rw [List.drop_take, List.take_take, List.drop_drop, wordAt]
    rfl
  have hdata : Word.ofBytes (((r.delivered.drop 4).take 12).drop 8) =
      wordAt 12 r.delivered := by
    rw [List.drop_take, List.drop_drop, wordAt]
  rw [hentry, hcode, hdata]
  refine (readRegions_eq (wordAt 4 r.delivered)).trans ?_
  rw [hdelivered, List.length_drop, List.drop_drop]
  refine ite_congr (propext ?_) (fun _ => rfl) (fun _ => rfl)
  unfold codeSizeOf dataSizeOf
  omega

end Image

end RegisterMachine
