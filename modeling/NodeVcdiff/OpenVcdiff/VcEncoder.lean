import NodeVcdiff.OpenVcdiff.Adler32
import NodeVcdiff.OpenVcdiff.DiffEngine
import NodeVcdiff.OpenVcdiff.JsonWriter

/-!
# `vcencoder.cc`

The streaming encoder starts a delta file, encodes each chunk of the target as a window, and finishes
the file.
-/

namespace OpenVcdiff

open CodeTableWriterInterface (verifyDictionary verifyChunk writeHeader addChecksum)

/-- The writer that the format flags select. -/
abbrev AnyCodeTableWriter := JsonCodeTableWriter ⊕ CodeTableWriter

namespace AnyCodeTableWriter

variable {α β : Type} [CodeTableWriterInterface α] [CodeTableWriterInterface β]

/-- A call that changes either writer. -/
def both (f : ∀ γ [CodeTableWriterInterface γ], γ → γ) : α ⊕ β → α ⊕ β :=
  Sum.map (f α) (f β)

instance : CodeTableWriterInterface (α ⊕ β) where
  init w n := match w with
    | .inl w => (CodeTableWriterInterface.init w n).map id .inl
    | .inr w => (CodeTableWriterInterface.init w n).map id .inr
  writeHeader w f := match w with
    | .inl w => CodeTableWriterInterface.writeHeader w f
    | .inr w => CodeTableWriterInterface.writeHeader w f
  add w data := both (fun _ _ w => CodeTableWriterInterface.add w data) w
  copy w offset size := both (fun _ _ w => CodeTableWriterInterface.copy w offset size) w
  run w size byte := both (fun _ _ w => CodeTableWriterInterface.run w size byte) w
  addChecksum w sum := both (fun _ _ w => CodeTableWriterInterface.addChecksum w sum) w
  output w := match w with
    | .inl w => (CodeTableWriterInterface.output w).map id .inl
    | .inr w => (CodeTableWriterInterface.output w).map id .inr
  finishEncoding w := match w with
    | .inl w => CodeTableWriterInterface.finishEncoding w
    | .inr w => CodeTableWriterInterface.finishEncoding w
  verifyDictionary w dictionary := match w with
    | .inl w => CodeTableWriterInterface.verifyDictionary w dictionary
    | .inr w => CodeTableWriterInterface.verifyDictionary w dictionary
  verifyChunk w chunk := match w with
    | .inl w => CodeTableWriterInterface.verifyChunk w chunk
    | .inr w => CodeTableWriterInterface.verifyChunk w chunk

end AnyCodeTableWriter

/-- `VCDiffStreamingEncoderImpl`. -/
structure StreamingEncoder (γ : Type) where
  engine : DiffEngine
  coder : γ
  formatExtensions : FormatExtensionFlags
  lookForTargetMatches : Bool
  encodeChunkAllowed : Bool

namespace StreamingEncoder

/-- The constructor with a code table writer. -/
def newWith {γ : Type} (coder : γ) (engine : DiffEngine) (formatExtensions : FormatExtensionFlags)
    (lookForTargetMatches : Bool) : StreamingEncoder γ :=
  ⟨engine, coder, formatExtensions, lookForTargetMatches, false⟩

/-- The constructor. -/
def new (engine : DiffEngine) (formatExtensions : FormatExtensionFlags)
    (lookForTargetMatches : Bool) : StreamingEncoder AnyCodeTableWriter :=
  newWith
    (if formatExtensions &&& VCD_FORMAT_JSON ≠ 0 then .inl .new
      else .inr (.new (decide (formatExtensions &&& VCD_FORMAT_INTERLEAVED ≠ 0))))
    engine formatExtensions lookForTargetMatches

variable {γ : Type} [CodeTableWriterInterface γ] (e : StreamingEncoder γ)

/-- `StartEncoding`. Like the other calls it returns whether it succeeds, what it appends to the
output, and the encoder. -/
def startEncoding : Bool × List UInt8 × StreamingEncoder γ :=
  match CodeTableWriterInterface.init e.coder e.engine.dictionary.length with
  | (false, coder) => (false, [], { e with coder })
  | (true, coder) =>
    if !verifyDictionary coder e.engine.dictionary then (false, [], { e with coder })
    else
      (true, writeHeader coder e.formatExtensions, { e with coder, encodeChunkAllowed := true })

/-- `EncodeChunk`. -/
def encodeChunk (data : List UInt8) : Bool × List UInt8 × StreamingEncoder γ :=
  if !e.encodeChunkAllowed then (false, [], e)
  else if !verifyChunk e.coder data then (false, [], e)
  else
    let coder :=
      if e.formatExtensions &&& VCD_FORMAT_CHECKSUM ≠ 0 then
        addChecksum e.coder (Adler32.computeAdler32 data)
      else e.coder
    let r := e.engine.encode data e.lookForTargetMatches coder
    (true, r.1, { e with coder := r.2 })

/-- `FinishEncoding`. -/
def finishEncoding : Bool × List UInt8 × StreamingEncoder γ :=
  if !e.encodeChunkAllowed then (false, [], e)
  else (true, CodeTableWriterInterface.finishEncoding e.coder, { e with encodeChunkAllowed := false })

/-- Chunks in turn, as long as they can be encoded. -/
def encodeChunks (e : StreamingEncoder γ) :
    List (List UInt8) → Bool × List UInt8 × StreamingEncoder γ
  | [] => (true, [], e)
  | data :: chunks =>
    match e.encodeChunk data with
    | (false, out, e) => (false, out, e)
    | (true, out, e) => (e.encodeChunks chunks).map id (Prod.map (out ++ ·) id)

end StreamingEncoder

/-- `VCDiffEncoder`. -/
structure Encoder where
  dictionary : DiffEngine
  encoder : Option (StreamingEncoder AnyCodeTableWriter)
  flags : FormatExtensionFlags
  lookForTargetMatches : Bool

namespace Encoder

/-- The constructor. -/
def new (dictionaryContents : List UInt8) : Encoder :=
  ⟨.new dictionaryContents, none, VCD_STANDARD_FORMAT, true⟩

variable (e : Encoder)

/-- `SetFormatFlags`. -/
def setFormatFlags (flags : FormatExtensionFlags) : Encoder := { e with flags }

/-- `SetTargetMatching`. -/
def setTargetMatching (lookForTargetMatches : Bool) : Encoder := { e with lookForTargetMatches }

/-- `EncodeToInterface` after the streaming encoder was made: the output is cleared first. -/
def encodeWith (encoder : StreamingEncoder AnyCodeTableWriter) (targetData : List UInt8) :
    Bool × List UInt8 × Encoder :=
  match encoder.startEncoding with
  | (false, out, encoder) => (false, out, { e with encoder })
  | (true, header, encoder) =>
    match encoder.encodeChunk targetData with
    | (false, out, encoder) => (false, header ++ out, { e with encoder })
    | (true, window, encoder) =>
      match encoder.finishEncoding with
      | (success, out, encoder) => (success, header ++ window ++ out, { e with encoder })

/-- `EncodeToInterface`. -/
def encode (targetData : List UInt8) : Bool × List UInt8 × Encoder :=
  match e.encoder with
  | some encoder => e.encodeWith encoder targetData
  | none =>
    match e.dictionary.init with
    | (false, dictionary) => (false, [], { e with dictionary })
    | (true, dictionary) =>
      { e with dictionary }.encodeWith
        (.new dictionary e.flags e.lookForTargetMatches) targetData

end Encoder

end OpenVcdiff
