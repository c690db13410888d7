import NodeVcdiff.LinkedChain
import NodeVcdiff.Loop
import NodeVcdiff.OpenVcdiff.RollingHash

/-!
# `blockhash.cc`: the hash table of blocks

Blocks with the same hash table index are chained in the order in which they were added. Positions
and block numbers are those of data shorter than 2 ^ 31 bytes, where `int` does not overflow.
-/

namespace OpenVcdiff

/-- `kBlockSize`. -/
def kBlockSize : ℕ := 16

/-- `BlockHash`. The block number -1 is `none`; instead of `last_block_added_` there is the number
of blocks that were added, which is one more. -/
structure BlockHash where
  sourceData : List UInt8
  startingOffset : ℕ
  hashTable : List (Option ℕ)
  nextBlockTable : List (Option ℕ)
  lastBlockTable : List (Option ℕ)
  hashTableMask : UInt32
  blocksAdded : ℕ
  deriving DecidableEq, Repr

namespace BlockHash

/-- `kMaxMatchesToCheck`. -/
def kMaxMatchesToCheck : ℕ := if kBlockSize ≥ 32 then 32 else 32 * (32 / kBlockSize)

/-- `kMaxProbes`. -/
def kMaxProbes : ℕ := 16

/-- The constructor. -/
def new (sourceData : List UInt8) (startingOffset : ℕ) : BlockHash :=
  ⟨sourceData, startingOffset, [], [], [], 0, 0⟩

/-- The loop of `CalcTableSize`: `table_size` is one bit, which is lost when it was shifted as often
as there are bits. -/
def growTable (minSize : ℕ) : (bits : ℕ) → (tableSize : ℕ) → ℕ
  | 0, _ => 0
  | bits + 1, tableSize => if tableSize < minSize then growTable minSize bits (tableSize <<< 1)
    else tableSize

/-- `CalcTableSize`. Zero is an error. -/
def calcTableSize (dictionarySize : ℕ) : ℕ :=
  let minSize := dictionarySize / 4 + 1
  let tableSize := growTable minSize 64 1
  if tableSize = 0 then 0
  else if tableSize &&& (tableSize - 1) ≠ 0 then 0
  else if dictionarySize > 0 ∧ tableSize > minSize * 2 then 0
  else tableSize

variable (h : BlockHash)

/-- `GetNumberOfBlocks`. -/
def getNumberOfBlocks : ℕ := h.sourceData.length / kBlockSize

/-- `GetHashTableIndex`. -/
def getHashTableIndex (hashValue : UInt32) : ℕ := (hashValue &&& h.hashTableMask).toNat

/-- `NextIndexToAdd`. -/
def nextIndexToAdd : ℕ := h.blocksAdded * kBlockSize

/-- The bytes of the block at a position. -/
def blockAt (data : List UInt8) (position : ℕ) : List UInt8 := (data.drop position).take kBlockSize

/-- `AddBlock`. What `VCD_DFATAL` reports leaves everything as it is. -/
def addBlock (hashValue : UInt32) : BlockHash :=
  let blockNumber := h.blocksAdded
  if h.hashTable = [] then h
  else if blockNumber ≥ h.getNumberOfBlocks then h
  else if h.nextBlockTable.getD blockNumber none ≠ none then h
  else
    let hashTableIndex := h.getHashTableIndex hashValue
    match h.hashTable.getD hashTableIndex none with
    | none =>
      -- This is the first entry with this hash value
      { h with
        hashTable := h.hashTable.set hashTableIndex (some blockNumber)
        lastBlockTable := h.lastBlockTable.set blockNumber (some blockNumber)
        blocksAdded := blockNumber + 1 }
    | some firstMatchingBlock =>
      -- Add this entry at the end of the chain of matching blocks
      match h.lastBlockTable.getD firstMatchingBlock none with
      | none => h
      | some lastMatchingBlock =>
        if h.nextBlockTable.getD lastMatchingBlock none ≠ none then h
        else
          { h with
            nextBlockTable := h.nextBlockTable.set lastMatchingBlock (some blockNumber)
            lastBlockTable := h.lastBlockTable.set firstMatchingBlock (some blockNumber)
            blocksAdded := blockNumber + 1 }

/-- The loop of `AddAllBlocksThroughIndex`: the table and the position of the next block. -/
def addBlocks (endLimit : ℕ) : Loop (BlockHash × ℕ) BlockHash where
  body s :=
    if s.2 < endLimit then
      .inl (s.1.addBlock (RollingHash.hash (blockAt s.1.sourceData s.2)), s.2 + kBlockSize)
    else .inr s.1
  size s := endLimit - s.2
  shrinks := by
    intro s t h
    split at h
    · cases h
      unfold kBlockSize
      omega
    · cases h

/-- `AddAllBlocksThroughIndex`. -/
def addAllBlocksThroughIndex (endIndex : ℕ) : BlockHash :=
  let sourceSize := h.sourceData.length
  if endIndex > sourceSize then h
  else if endIndex + kBlockSize ≤ h.blocksAdded * kBlockSize then h
  else if sourceSize < kBlockSize then h
  else
    let lastLegalHashIndex := sourceSize - kBlockSize
    let endLimit := if endIndex > lastLegalHashIndex then lastLegalHashIndex + 1 else endIndex
    (addBlocks endLimit).run (h, h.nextIndexToAdd)

/-- `AddAllBlocks`. -/
def addAllBlocks : BlockHash := h.addAllBlocksThroughIndex h.sourceData.length

/-- `AddOneIndexHash`. -/
def addOneIndexHash (index : ℕ) (hashValue : UInt32) : BlockHash :=
  if index = h.nextIndexToAdd then h.addBlock hashValue else h

/-- `Init`. -/
def init (populateHashTable : Bool) : Bool × BlockHash :=
  if h.hashTable ≠ [] ∨ h.nextBlockTable ≠ [] ∨ h.lastBlockTable ≠ [] then (false, h)
  else
    let tableSize := calcTableSize h.sourceData.length
    if tableSize = 0 then (false, h)
    else
      let h := { h with
        hashTableMask := UInt32.ofNat (tableSize - 1)
        hashTable := .replicate tableSize none
        nextBlockTable := .replicate h.getNumberOfBlocks none
        lastBlockTable := .replicate h.getNumberOfBlocks none }
      (true, if populateHashTable then h.addAllBlocks else h)

/-- `CreateDictionaryHash`. -/
def createDictionaryHash (dictionaryData : List UInt8) : Option BlockHash :=
  match (new dictionaryData 0).init true with
  | (true, h) => some h
  | (false, _) => none

/-- `CreateTargetHash`. -/
def createTargetHash (targetData : List UInt8) (dictionarySize : ℕ) : Option BlockHash :=
  match (new targetData dictionarySize).init false with
  | (true, h) => some h
  | (false, _) => none

/-! ## Looking up a block -/

/-- The block that comes after another one in its chain. -/
def nextBlock (blockNumber : ℕ) : Option ℕ := h.nextBlockTable.getD blockNumber none

/-- `BlockContentsMatch`: the first bytes are compared first. -/
def blockContentsMatch (block₁ block₂ : List UInt8) : Bool :=
  if block₁.head? ≠ block₂.head? then false
  else decide (block₁.take kBlockSize = block₂.take kBlockSize)

/-- The block with a number has the contents at `block_ptr`. -/
def matchesBlock (blockPtr : List UInt8) (blockNumber : ℕ) : Bool :=
  blockContentsMatch blockPtr (h.sourceData.drop (blockNumber * kBlockSize))

/-- `SkipNonMatchingBlocks`. -/
def skipNonMatchingBlocks (blockNumber : Option ℕ) (blockPtr : List UInt8) : Option ℕ :=
  LinkedChain.search h.nextBlock (h.matchesBlock blockPtr) kMaxProbes blockNumber

/-- `FirstMatchingBlock`. -/
def firstMatchingBlock (hashValue : UInt32) (blockPtr : List UInt8) : Option ℕ :=
  h.skipNonMatchingBlocks (h.hashTable.getD (h.getHashTableIndex hashValue) none) blockPtr

/-- `NextMatchingBlock`. -/
def nextMatchingBlock (blockNumber : ℕ) (blockPtr : List UInt8) : Option ℕ :=
  if blockNumber ≥ h.getNumberOfBlocks then none
  else h.skipNonMatchingBlocks (h.nextBlock blockNumber) blockPtr

end BlockHash

end OpenVcdiff
