import NodeVcdiff.OpenVcdiff.CodeTableWriter

/-!
# `codetablewriter_interface.h`

What an encoder asks of a code table writer. Bytes that a method appends to the output are
returned.
-/

namespace OpenVcdiff

/-- `CodeTableWriterInterface`. -/
class CodeTableWriterInterface (γ : Type) where
  init : γ → (dictionarySize : ℕ) → Bool × γ
  writeHeader : γ → FormatExtensionFlags → List UInt8
  add : γ → (data : List UInt8) → γ
  copy : γ → (offset : ℤ) → (size : ℕ) → γ
  run : γ → (size : ℕ) → (byte : UInt8) → γ
  addChecksum : γ → (checksum : ℕ) → γ
  output : γ → List UInt8 × γ
  finishEncoding : γ → List UInt8
  verifyDictionary : γ → (dictionary : List UInt8) → Bool
  verifyChunk : γ → (chunk : List UInt8) → Bool

namespace CodeTableWriterInterface

variable {γ : Type} [CodeTableWriterInterface γ]

/-- The call for an instruction. -/
def encode (coder : γ) : SelfCopy.Instruction UInt8 → γ
  | .add data => add coder data
  | .run size byte => run coder size byte
  | .copy address size => copy coder address size

instance : CodeTableWriterInterface CodeTableWriter where
  init := CodeTableWriter.init
  writeHeader _ := CodeTableWriter.writeHeader
  add := CodeTableWriter.add
  copy := CodeTableWriter.copy
  run := CodeTableWriter.run
  addChecksum := CodeTableWriter.withChecksum
  output := CodeTableWriter.output
  finishEncoding _ := []
  verifyDictionary _ _ := true
  verifyChunk _ _ := true

theorem foldl_encode (w : CodeTableWriter) (is : List (SelfCopy.Instruction UInt8)) :
    is.foldl encode w = is.foldl CodeTableWriter.encode w := by
  have h : (encode : CodeTableWriter → SelfCopy.Instruction UInt8 → CodeTableWriter) =
      CodeTableWriter.encode := by
    funext w i
    cases i <;> rfl
  rw [h]

end CodeTableWriterInterface

end OpenVcdiff
