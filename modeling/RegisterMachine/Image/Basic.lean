import RegisterMachine.Word

/-!
# RegisterMachine.Image.Basic

An **image** is what the assembler produces and the machine runs: a code region,
a data region and the address at which execution begins. In memory the data
stands right after the code.
-/

namespace RegisterMachine

/-- A loadable program. -/
structure Image where
  /-- The address of the first instruction to be executed. -/
  entry : Word
  code : List Byte
  data : List Byte
  deriving DecidableEq, Repr

namespace Image

/-- The image without code and data. -/
def empty : Image := ⟨0, [], []⟩

/-- The memory that the machine starts with: the code, then the data. -/
def memory (image : Image) : List Byte := image.code ++ image.data

/-- Both regions are short enough for their sizes to be words. -/
def Fits (image : Image) : Prop :=
  image.code.length < 4294967296 ∧ image.data.length < 4294967296

instance (image : Image) : Decidable image.Fits := inferInstanceAs (Decidable (_ ∧ _))

@[simp] theorem length_memory (image : Image) :
    image.memory.length = image.code.length + image.data.length := by
  simp [memory]

end Image

end RegisterMachine
