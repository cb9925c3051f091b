import RegisterMachine.Host.Reader
import RegisterMachine.Image.Basic

/-!
# RegisterMachine.Image.Format

The file format of an image, without padding:

| field     | bytes                     |
|-----------|---------------------------|
| magic     | the letters `BVM`, then 0 |
| entry     | 4                         |
| code size | 4                         |
| data size | 4                         |
| code      | as many as its size says  |
| data      | as many as its size says  |

`Image.encode` writes it and `Image.decode` reads it back from a `Reader`. What
follows the data is not looked at. A source that fails is a source that ends: what
matters is which field it ends in.
-/

namespace RegisterMachine

/-- Why bytes are not an image. -/
inductive FormatError
  /-- They do not begin with the magic. -/
  | badMagic
  /-- They end before the sizes are complete. -/
  | truncatedHeader
  /-- They end before the code and the data are complete. -/
  | truncatedPayload
  deriving DecidableEq, Repr

/-- The error in words. -/
def FormatError.message : FormatError → String
  | badMagic => "bad magic"
  | truncatedHeader => "truncated header"
  | truncatedPayload => "truncated payload"

namespace Image

/-- The four bytes with which a file begins. -/
def magic : List Byte := [0x42, 0x56, 0x4D, 0x00]

/-- The entry and the two sizes. -/
def header (image : Image) : List Byte :=
  image.entry.toBytes ++ Word.toBytes (UInt32.ofNat image.code.length) ++
    Word.toBytes (UInt32.ofNat image.data.length)

/-- The file of an image. -/
def encode (image : Image) : List Byte :=
  magic ++ image.header ++ image.code ++ image.data

/-- Reads a region of the given size. -/
def readRegion (size : Word) (r : Reader) : Except FormatError (List Byte × Reader) :=
  let (filling, r) := r.fill size.toNat
  match filling.stop with
  | .full => .ok (filling.bytes, r)
  | .ended => .error .truncatedPayload
  | .failed _ => .error .truncatedPayload

/-- Reads one image. -/
def decode (r : Reader) : Except FormatError Image :=
  let (start, r) := r.fill 4
  if start.bytes ≠ magic then .error .badMagic
  else
    let (sizes, r) := r.fill 12
    if sizes.bytes.length ≠ 12 then .error .truncatedHeader
    else do
      let entry := Word.ofBytes (sizes.bytes.take 4)
      let codeSize := Word.ofBytes ((sizes.bytes.drop 4).take 4)
      let dataSize := Word.ofBytes (sizes.bytes.drop 8)
      let (code, r) ← readRegion codeSize r
      let (data, _) ← readRegion dataSize r
      return { entry, code, data }

@[simp] theorem length_magic : magic.length = 4 := rfl

@[simp] theorem length_header (image : Image) : image.header.length = 12 := by
  simp [header]

@[simp] theorem length_encode (image : Image) :
    image.encode.length = 16 + image.code.length + image.data.length := by
  simp [encode]
  omega

end Image

end RegisterMachine
