import NodeVcdiff.OpenVcdiff.BlockMatch
import NodeVcdiff.OpenVcdiff.CodeTableWriterInterface

/-!
# `vcdiffengine.cc`

The engine looks for the target's blocks in the dictionary, and in the target where it was encoded
already, and calls the coder with what it finds.
-/

namespace OpenVcdiff

open CodeTableWriterInterface (add copy output)

/-- `VCDiffEngine`. -/
structure DiffEngine where
  dictionary : List UInt8
  hashedDictionary : Option BlockHash
  deriving DecidableEq, Repr

namespace DiffEngine

/-- `kMinimumMatchSize`. -/
def kMinimumMatchSize : ℕ := 32

/-- The constructor. -/
def new (dictionary : List UInt8) : DiffEngine := ⟨dictionary, none⟩

/-- `Init`. -/
def init (e : DiffEngine) : Bool × DiffEngine :=
  match e.hashedDictionary with
  | some _ => (false, e)
  | none =>
    match BlockHash.createDictionaryHash e.dictionary with
    | none => (false, e)
    | some hashedDictionary => (true, { e with hashedDictionary })

/-- `ShouldGenerateCopyInstructionForMatchOfSize`. -/
def shouldGenerateCopyInstructionForMatchOfSize (size : ℕ) : Bool := size ≥ kMinimumMatchSize

/-- The best match in the dictionary and, where target matches are looked for, in the target. -/
def bestMatch (hashedDictionary : BlockHash) (targetHash : Option BlockHash) (hashValue : UInt32)
    (targetCandidateStart : ℕ) (unencodedTarget : List UInt8) : Match :=
  let bestMatch :=
    hashedDictionary.findBestMatch hashValue targetCandidateStart unencodedTarget .new
  match targetHash with
  | some targetHash =>
    targetHash.findBestMatch hashValue targetCandidateStart unencodedTarget bestMatch
  | none => bestMatch

section Encode

variable {γ : Type} [CodeTableWriterInterface γ]

/-- `EncodeCopyForBestMatch`: how many bytes are encoded, and the coder. The candidate is a position
in the unencoded target. -/
def encodeCopyForBestMatch (hashedDictionary : BlockHash) (targetHash : Option BlockHash)
    (hashValue : UInt32) (targetCandidateStart : ℕ) (unencodedTarget : List UInt8) (coder : γ) :
    ℕ × γ :=
  let bestMatch := bestMatch hashedDictionary targetHash hashValue targetCandidateStart
    unencodedTarget
  if !shouldGenerateCopyInstructionForMatchOfSize bestMatch.size then (0, coder)
  else
    let coder :=
      if bestMatch.targetOffset > 0 then
        add coder (unencodedTarget.take bestMatch.targetOffset.toNat)
      else coder
    ((bestMatch.targetOffset + bestMatch.size).toNat,
      copy coder bestMatch.sourceOffset bestMatch.size)

/-- `AddUnmatchedRemainder`. -/
def addUnmatchedRemainder (unencodedTarget : List UInt8) (coder : γ) : γ :=
  if unencodedTarget.length > 0 then add coder unencodedTarget else coder

theorem advances_bestMatch (hashedDictionary : BlockHash) (targetHash : Option BlockHash)
    (hashValue : UInt32) (t : ℕ) (unencodedTarget : List UInt8) :
    BlockHash.Advances t (bestMatch hashedDictionary targetHash hashValue t unencodedTarget) := by
  have hnew : BlockHash.Advances t .new := .inl rfl
  unfold bestMatch
  cases targetHash with
  | none => exact hnew.findBestMatch
  | some targetHash => exact hnew.findBestMatch.findBestMatch

/-- A match is encoded, and gets behind the block of the candidate, or it is too small. -/
theorem encodeCopyForBestMatch_cases {hashedDictionary : BlockHash} {targetHash : Option BlockHash}
    {hashValue : UInt32} {t : ℕ} {unencodedTarget : List UInt8} (coder : γ) {m : Match}
    (hm : bestMatch hashedDictionary targetHash hashValue t unencodedTarget = m) :
    m.size < kMinimumMatchSize ∧
        encodeCopyForBestMatch hashedDictionary targetHash hashValue t unencodedTarget coder =
          (0, coder) ∨
      kMinimumMatchSize ≤ m.size ∧ t + kBlockSize ≤ (m.targetOffset + m.size).toNat ∧
        encodeCopyForBestMatch hashedDictionary targetHash hashValue t unencodedTarget coder =
          ((m.targetOffset + m.size).toNat,
            copy (if m.targetOffset > 0 then
              add coder (unencodedTarget.take m.targetOffset.toNat) else coder)
              m.sourceOffset m.size) := by
  have hadv := advances_bestMatch hashedDictionary targetHash hashValue t unencodedTarget
  unfold encodeCopyForBestMatch shouldGenerateCopyInstructionForMatchOfSize
  simp only
  rw [hm] at hadv ⊢
  by_cases hsize : kMinimumMatchSize ≤ m.size
  · rw [decide_eq_true hsize]
    right
    refine ⟨hsize, ?_, rfl⟩
    rcases hadv with h0 | hadv
    · unfold kMinimumMatchSize at hsize
      omega
    · omega
  · rw [decide_eq_false hsize]
    exact .inl ⟨Nat.not_le.mp hsize, rfl⟩

/-- The variables of the loop in `EncodeInternal`. Positions count from the start of the target; there
is a target hash if target matches are looked for. -/
structure Scan (γ : Type) where
  nextEncode : ℕ
  candidatePos : ℕ
  hashValue : UInt32
  targetHash : Option BlockHash
  coder : γ

/-- The first branch of the loop in `EncodeInternal`: bytes were encoded. -/
def Scan.advance (targetData : List UInt8) (bytesEncoded : ℕ) (s : Scan γ) : Scan γ ⊕ Scan γ :=
  let startOfLastBlock := targetData.length - kBlockSize
  let nextEncode := s.nextEncode + bytesEncoded
  let candidatePos := nextEncode
  if candidatePos > startOfLastBlock then .inr { s with nextEncode, candidatePos }
  else
    .inl { s with
      nextEncode
      candidatePos
      hashValue := RollingHash.hash (BlockHash.blockAt targetData candidatePos)
      targetHash := s.targetHash.map (·.addAllBlocksThroughIndex nextEncode) }

/-- The second branch: the candidate moves to the next position. -/
def Scan.moveOn (targetData : List UInt8) (s : Scan γ) : Scan γ ⊕ Scan γ :=
  let startOfLastBlock := targetData.length - kBlockSize
  if s.candidatePos + 1 > startOfLastBlock then .inr s
  else
    .inl { s with
      targetHash := s.targetHash.map (·.addOneIndexHash s.candidatePos s.hashValue)
      hashValue := RollingHash.updateHash kBlockSize s.hashValue
        (targetData.getD s.candidatePos 0) (targetData.getD (s.candidatePos + kBlockSize) 0)
      candidatePos := s.candidatePos + 1 }

/-- A round of the loop in `EncodeInternal`. -/
def Scan.step (hashedDictionary : BlockHash) (targetData : List UInt8) (s : Scan γ) :
    Scan γ ⊕ Scan γ :=
  let (bytesEncoded, coder) := encodeCopyForBestMatch hashedDictionary s.targetHash s.hashValue
    (s.candidatePos - s.nextEncode) (targetData.drop s.nextEncode) s.coder
  let s := { s with coder }
  if bytesEncoded > 0 then s.advance targetData bytesEncoded else s.moveOn targetData

theorem Scan.step_cases (hashedDictionary : BlockHash) (targetData : List UInt8) (s : Scan γ)
    {m : Match} (hm : bestMatch hashedDictionary s.targetHash s.hashValue
      (s.candidatePos - s.nextEncode) (targetData.drop s.nextEncode) = m) :
    m.size < kMinimumMatchSize ∧ s.step hashedDictionary targetData = s.moveOn targetData ∨
      kMinimumMatchSize ≤ m.size ∧
        s.candidatePos - s.nextEncode + kBlockSize ≤ (m.targetOffset + m.size).toNat ∧
        s.step hashedDictionary targetData =
          Scan.advance targetData (m.targetOffset + m.size).toNat { s with
            coder := copy (if m.targetOffset > 0 then
              add s.coder ((targetData.drop s.nextEncode).take m.targetOffset.toNat) else s.coder)
              m.sourceOffset m.size } := by
  unfold Scan.step
  rcases encodeCopyForBestMatch_cases s.coder hm with ⟨hsize, hr⟩ | ⟨hsize, hle, hr⟩
  · left
    rw [hr]
    exact ⟨hsize, if_neg (Nat.lt_irrefl 0)⟩
  · right
    rw [hr]
    refine ⟨hsize, hle, if_pos ?_⟩
    unfold kBlockSize at hle
    omega

/-- The loop goes on at a later position, which is not behind the last block. -/
theorem Scan.step_gets_on {hashedDictionary : BlockHash} {targetData : List UInt8} {s t : Scan γ}
    (h : s.step hashedDictionary targetData = .inl t) :
    s.candidatePos < t.candidatePos ∧ t.candidatePos ≤ targetData.length := by
  rcases s.step_cases hashedDictionary targetData rfl with ⟨-, hr⟩ | ⟨-, hle, hr⟩
  · rw [hr, Scan.moveOn] at h
    split at h
    · cases h
    · cases h
      simp only
      omega
  · rw [hr, Scan.advance] at h
    unfold kBlockSize at hle h
    generalize bestMatch hashedDictionary s.targetHash s.hashValue _ _ = m at *
    simp only at h
    split at h
    · cases h
    · cases h
      simp only
      omega

/-- The loop of `EncodeInternal`. -/
def encodeLoop (hashedDictionary : BlockHash) (targetData : List UInt8) :
    Loop (Scan γ) (Scan γ) where
  body := Scan.step hashedDictionary targetData
  size s := targetData.length - s.candidatePos
  shrinks := by
    intro s t h
    have := Scan.step_gets_on h
    omega

variable (e : DiffEngine)

/-- `Encode`. Nothing is output for an empty target. -/
def encode (targetData : List UInt8) (lookForTargetMatches : Bool) (coder : γ) : List UInt8 × γ :=
  match e.hashedDictionary with
  | none => ([], coder)
  | some hashedDictionary =>
    if targetData.length = 0 then ([], coder)
    else if targetData.length < kBlockSize then output (addUnmatchedRemainder targetData coder)
    else
      let encodeWith (targetHash : Option BlockHash) :=
        let s := (encodeLoop hashedDictionary targetData).run {
          nextEncode := 0
          candidatePos := 0
          hashValue := RollingHash.hash (BlockHash.blockAt targetData 0)
          targetHash
          coder }
        output (addUnmatchedRemainder (targetData.drop s.nextEncode) s.coder)
      if lookForTargetMatches then
        match BlockHash.createTargetHash targetData e.dictionary.length with
        | none => ([], coder)
        | some targetHash => encodeWith (some targetHash)
      else encodeWith none

end Encode

end DiffEngine

end OpenVcdiff
