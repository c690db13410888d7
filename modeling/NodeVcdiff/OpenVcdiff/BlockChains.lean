import Mathlib.Data.List.GetD
import NodeVcdiff.OpenVcdiff.BlockHash

/-!
# The chains of the hash table

Whatever hash values blocks were added with, the tables are the blocks sorted by hash table index.
-/

namespace OpenVcdiff

open LinkedChain (Follows)

namespace BlockHash

variable {h : BlockHash} {hs : List UInt32} {v : UInt32} {i b : ℕ}

/-! ## The size of the table -/

/-- The loop stops at the first power of two that is large enough. -/
theorem growTable_spec {minSize bits k : ℕ} (hk : 2 ^ k < 2 * minSize)
    (hbits : minSize ≤ 2 ^ (k + bits)) :
    ∃ j, growTable minSize (bits + 1) (2 ^ k) = 2 ^ j ∧ minSize ≤ 2 ^ j ∧ 2 ^ j < 2 * minSize := by
  induction bits generalizing k with
  | zero =>
    refine ⟨k, ?_, hbits, hk⟩
    exact if_neg (Nat.not_lt.mpr hbits)
  | succ bits ih =>
    rw [growTable]
    by_cases hlt : 2 ^ k < minSize
    · rw [if_pos hlt, Nat.shiftLeft_eq, ← pow_add]
      refine ih ?_ ?_
      · rw [pow_succ]
        omega
      · rwa [Nat.add_assoc, Nat.add_comm 1 bits]
    · exact ⟨k, if_neg hlt, Nat.not_lt.mp hlt, hk⟩

/-- The checks of `CalcTableSize` never fail: the size is the power of two between the smallest size
that is wanted and twice that size. -/
theorem calcTableSize_spec {n : ℕ} (hn : n < 2 ^ 63) : ∃ j, calcTableSize n = 2 ^ j ∧
    n / 4 + 1 ≤ 2 ^ j ∧ 2 ^ j < 2 * (n / 4 + 1) := by
  have hmin : n / 4 + 1 ≤ 2 ^ (0 + 63) := by
    rw [Nat.zero_add]
    omega
  obtain ⟨j, hj, hmin, hmax⟩ := growTable_spec (by rw [pow_zero]; omega) hmin
  have hj : growTable (n / 4 + 1) 64 1 = 2 ^ j := hj
  refine ⟨j, ?_, hmin, hmax⟩
  have hne : ¬2 ^ j = 0 := by omega
  have hbit : 2 ^ j &&& (2 ^ j - 1) = 0 := by
    rw [Nat.and_two_pow_sub_one_eq_mod, Nat.mod_self]
  unfold calcTableSize
  simp only [hj]
  rw [if_neg hne, if_neg (not_not_intro hbit), if_neg (by omega)]

/-! ## What was added -/

/-- The blocks that were added with hash values `hs` and have the hash table index `i`. -/
def bucket (h : BlockHash) (hs : List UInt32) (i : ℕ) : List ℕ :=
  (List.range hs.length).filter fun b => decide (h.getHashTableIndex (hs.getD b 0) = i)

/-- The tables are those of the blocks that were added with hash values `hs`. -/
structure Holds (h : BlockHash) (hs : List UInt32) : Prop where
  mask : h.hashTable.length = h.hashTableMask.toNat + 1
  nextLength : h.nextBlockTable.length = h.getNumberOfBlocks
  lastLength : h.lastBlockTable.length = h.getNumberOfBlocks
  added : h.blocksAdded = hs.length
  room : hs.length ≤ h.getNumberOfBlocks
  chain : ∀ i < h.hashTable.length,
    Follows h.nextBlock (h.hashTable.getD i none) (bucket h hs i)
  last : ∀ i, ∀ first ∈ (bucket h hs i).head?,
    h.lastBlockTable.getD first none = (bucket h hs i).getLast?
  open' : ∀ b, hs.length ≤ b → h.nextBlock b = none

theorem mem_bucket : b ∈ bucket h hs i ↔
    b < hs.length ∧ h.getHashTableIndex (hs.getD b 0) = i := by
  rw [bucket, List.mem_filter, List.mem_range, decide_eq_true_iff]

theorem nodup_bucket : (bucket h hs i).Nodup := List.nodup_range.filter _

theorem getHashTableIndex_lt (hm : h.hashTable.length = h.hashTableMask.toNat + 1) (v : UInt32) :
    h.getHashTableIndex v < h.hashTable.length := by
  rw [hm, getHashTableIndex, UInt32.toNat_and]
  exact Nat.lt_succ_of_le Nat.and_le_right

/-- One more block comes at the end of one chain. -/
theorem bucket_snoc : bucket h (hs ++ [v]) i =
    bucket h hs i ++ if h.getHashTableIndex v = i then [hs.length] else [] := by
  have hlt : (List.range hs.length).filter
      (fun b => decide (h.getHashTableIndex ((hs ++ [v]).getD b 0) = i)) = bucket h hs i := by
    refine List.filter_congr fun b hb => ?_
    rw [List.getD_append _ _ _ _ (List.mem_range.mp hb)]
  rw [bucket, List.length_append, List.length_singleton, List.range_succ, List.filter_append, hlt]
  congr 1
  rw [List.filter_singleton, List.getD_append_right _ _ _ _ (Nat.le_refl _), Nat.sub_self,
    List.getD_cons_zero]
  by_cases hi : h.getHashTableIndex v = i
  · rw [if_pos hi, decide_eq_true hi]
    rfl
  · rw [if_neg hi, decide_eq_false hi]
    rfl

theorem getD_set_self {l : List (Option ℕ)} (hi : i < l.length) (x : Option ℕ) :
    (l.set i x).getD i none = x := by
  rw [List.getD_eq_getElem?_getD, List.getElem?_set_self hi, Option.getD_some]

theorem getD_set_ne {l : List (Option ℕ)} (hne : i ≠ b) (x : Option ℕ) :
    (l.set i x).getD b none = l.getD b none := by
  rw [List.getD_eq_getElem?_getD, List.getElem?_set_ne hne, ← List.getD_eq_getElem?_getD]

/-- `AddBlock` with the first block of a chain. -/
theorem Holds.addBlock_first (hh : Holds h hs) (hroom : hs.length < h.getNumberOfBlocks)
    (hnil : bucket h hs (h.getHashTableIndex v) = []) : Holds (h.addBlock v) (hs ++ [v]) := by
  have hidx := getHashTableIndex_lt hh.mask v
  have hhead : h.hashTable.getD (h.getHashTableIndex v) none = none := by
    have := (hh.chain _ hidx).head
    rwa [hnil] at this
  have hne : h.hashTable ≠ [] := by
    intro hnil
    rw [hnil] at hidx
    exact Nat.not_lt_zero _ hidx
  have hadd : h.addBlock v =
      { h with
        hashTable := h.hashTable.set (h.getHashTableIndex v) (some hs.length)
        lastBlockTable := h.lastBlockTable.set hs.length (some hs.length)
        blocksAdded := hs.length + 1 } := by
    unfold addBlock
    have hnext : h.nextBlockTable.getD hs.length none = none := hh.open' _ (Nat.le_refl _)
    simp only [hh.added, hhead, hnext]
    rw [if_neg hne, if_neg (by omega), if_neg (not_not_intro rfl)]
  have hbucket : ∀ i, bucket (h.addBlock v) (hs ++ [v]) i = bucket h (hs ++ [v]) i := by
    intro i
    rw [hadd]
    rfl
  have hnext : (h.addBlock v).nextBlock = h.nextBlock := by
    rw [hadd]
    rfl
  refine ⟨?_, ?_, ?_, ?_, ?_, ?_, ?_, ?_⟩
  · rw [hadd]
    exact (List.length_set ..).trans hh.mask
  · rw [hadd]
    exact hh.nextLength
  · rw [hadd]
    exact (List.length_set ..).trans hh.lastLength
  · rw [hadd, List.length_append]
    rfl
  · rw [hadd, List.length_append]
    exact hroom
  · intro i hi
    rw [hbucket, bucket_snoc, hnext]
    rw [hadd] at hi ⊢
    rw [List.length_set] at hi
    by_cases hv : h.getHashTableIndex v = i
    · subst hv
      rw [if_pos rfl, hnil, getD_set_self hidx]
      refine .cons ?_
      rw [hh.open' _ (Nat.le_refl _)]
      exact .nil
    · rw [if_neg hv, List.append_nil, getD_set_ne hv]
      exact hh.chain i hi
  · intro i first hfirst
    rw [hbucket, bucket_snoc] at hfirst ⊢
    rw [hadd]
    by_cases hv : h.getHashTableIndex v = i
    · subst hv
      rw [if_pos rfl, hnil] at hfirst ⊢
      obtain rfl := Option.some.inj hfirst
      exact getD_set_self (hh.lastLength ▸ hroom) _
    · rw [if_neg hv, List.append_nil] at hfirst ⊢
      have hlt := (mem_bucket.mp (List.mem_of_mem_head? hfirst)).1
      exact (getD_set_ne (Nat.ne_of_gt hlt) _).trans (hh.last i first hfirst)
  · intro b hb
    rw [List.length_append, List.length_singleton] at hb
    rw [hnext]
    exact hh.open' b (by omega)

/-- `AddBlock` with another block of a chain. -/
theorem Holds.addBlock_next (hh : Holds h hs) (hroom : hs.length < h.getNumberOfBlocks)
    {l : List ℕ} {z : ℕ} (hl : bucket h hs (h.getHashTableIndex v) = l ++ [z]) :
    Holds (h.addBlock v) (hs ++ [v]) := by
  have hidx := getHashTableIndex_lt hh.mask v
  have hchain := hh.chain _ hidx
  obtain ⟨first, hfirst⟩ : ∃ first, (l ++ [z]).head? = some first := by
    cases l with
    | nil => exact ⟨z, rfl⟩
    | cons a l => exact ⟨a, rfl⟩
  have hhead : h.hashTable.getD (h.getHashTableIndex v) none = some first := by
    rw [hchain.head, hl, hfirst]
  have hlast : h.lastBlockTable.getD first none = some z := by
    have := hh.last (h.getHashTableIndex v) first (by rw [hl]; exact hfirst)
    rwa [hl, List.getLast?_append, List.getLast?_singleton] at this
  -- the last block of the chain has no link
  have hend : h.nextBlock z = none := by
    rw [hl] at hchain
    exact hchain.drop.head
  have hmem : ∀ b ∈ l ++ [z], b < hs.length ∧
      h.getHashTableIndex (hs.getD b 0) = h.getHashTableIndex v := by
    intro b hb
    rw [← hl] at hb
    exact mem_bucket.mp hb
  have hz := hmem z (List.mem_append_right _ (List.mem_singleton.mpr rfl))
  have hf := hmem first (List.mem_of_mem_head? hfirst)
  have hnodup : z ∉ l := by
    have : (bucket h hs (h.getHashTableIndex v)).Nodup := nodup_bucket
    rw [hl] at this
    intro hzl
    exact (List.nodup_append.mp this).2.2 z hzl z (List.mem_singleton.mpr rfl) rfl
  have hne : h.hashTable ≠ [] := by
    intro hnil
    rw [hnil] at hidx
    exact Nat.not_lt_zero _ hidx
  have hadd : h.addBlock v =
      { h with
        nextBlockTable := h.nextBlockTable.set z (some hs.length)
        lastBlockTable := h.lastBlockTable.set first (some hs.length)
        blocksAdded := hs.length + 1 } := by
    unfold addBlock
    have hnext : h.nextBlockTable.getD hs.length none = none := hh.open' _ (Nat.le_refl _)
    have hnext' : h.nextBlockTable.getD z none = none := hend
    simp only [hh.added, hhead, hnext, hlast, hnext']
    rw [if_neg hne, if_neg (by omega), if_neg (not_not_intro rfl), if_neg (not_not_intro rfl)]
  have hbucket : ∀ i, bucket (h.addBlock v) (hs ++ [v]) i = bucket h (hs ++ [v]) i := by
    intro i
    rw [hadd]
    rfl
  have hnext_z : (h.addBlock v).nextBlock z = some hs.length := by
    rw [hadd]
    exact getD_set_self (by have := hh.nextLength; omega) _
  have hnext_ne : ∀ b, b ≠ z → (h.addBlock v).nextBlock b = h.nextBlock b := by
    intro b hb
    rw [hadd]
    exact getD_set_ne (Ne.symm hb) _
  refine ⟨?_, ?_, ?_, ?_, ?_, ?_, ?_, ?_⟩
  · rw [hadd]
    exact hh.mask
  · rw [hadd]
    exact (List.length_set ..).trans hh.nextLength
  · rw [hadd]
    exact (List.length_set ..).trans hh.lastLength
  · rw [hadd, List.length_append]
    rfl
  · rw [hadd, List.length_append]
    exact hroom
  · intro i hi
    have htable : (h.addBlock v).hashTable = h.hashTable := by rw [hadd]
    rw [hbucket, bucket_snoc, htable]
    rw [htable] at hi
    by_cases hv : h.getHashTableIndex v = i
    · subst hv
      rw [if_pos rfl]
      rw [hl] at hchain ⊢
      rw [List.append_assoc]
      refine hchain.snoc hnodup ?_ hnext_z ?_ fun b hb _ => hnext_ne b hb
      · intro hmem'
        exact Nat.lt_irrefl _ (hmem _ hmem').1
      · rw [hnext_ne _ (Nat.ne_of_gt hz.1)]
        exact hh.open' _ (Nat.le_refl _)
    · rw [if_neg hv, List.append_nil]
      refine (hh.chain i hi).congr fun b hb => hnext_ne b ?_
      rintro rfl
      exact hv (hz.2.symm.trans (mem_bucket.mp hb).2)
  · intro i first' hfirst'
    rw [hbucket, bucket_snoc] at hfirst' ⊢
    rw [hadd]
    by_cases hv : h.getHashTableIndex v = i
    · subst hv
      rw [if_pos rfl, hl] at hfirst' ⊢
      have hsame : first' = first := by
        rw [List.head?_append, hfirst] at hfirst'
        exact (Option.some.inj hfirst').symm
      subst hsame
      rw [List.getLast?_append, List.getLast?_singleton]
      exact getD_set_self (by have := hh.lastLength; omega) _
    · rw [if_neg hv, List.append_nil] at hfirst' ⊢
      have hmem' := (mem_bucket.mp (List.mem_of_mem_head? hfirst')).2
      refine (getD_set_ne ?_ _).trans (hh.last i first' hfirst')
      rintro rfl
      exact hv (hf.2.symm.trans hmem')
  · intro b hb
    rw [List.length_append, List.length_singleton] at hb
    rw [hnext_ne b (by omega)]
    exact hh.open' b (by omega)

/-- `AddBlock` adds the block to the chain of its hash value. -/
theorem Holds.addBlock (hh : Holds h hs) (hroom : hs.length < h.getNumberOfBlocks) (v : UInt32) :
    Holds (h.addBlock v) (hs ++ [v]) := by
  rcases List.eq_nil_or_concat (bucket h hs (h.getHashTableIndex v)) with hnil | ⟨l, z, hl⟩
  · exact hh.addBlock_first hroom hnil
  · exact hh.addBlock_next hroom (hl.trans List.concat_eq_append)

/-- Without room nothing is added. -/
theorem Holds.addBlock_full (hh : Holds h hs) (hroom : ¬hs.length < h.getNumberOfBlocks)
    (v : UInt32) : h.addBlock v = h := by
  unfold BlockHash.addBlock
  simp only [hh.added]
  rw [if_pos (Nat.not_lt.mp hroom), ite_self]

/-! ## Filling the table -/

/-- `AddBlock` changes the tables and the number of blocks only. -/
theorem addBlock_frame (h : BlockHash) (v : UInt32) : ∃ t n l k, h.addBlock v =
    { h with hashTable := t, nextBlockTable := n, lastBlockTable := l, blocksAdded := k } := by
  unfold BlockHash.addBlock
  simp only
  split_ifs
  · exact ⟨_, _, _, _, rfl⟩
  · exact ⟨_, _, _, _, rfl⟩
  · exact ⟨_, _, _, _, rfl⟩
  · split
    · exact ⟨_, _, _, _, rfl⟩
    · split
      · exact ⟨_, _, _, _, rfl⟩
      · split_ifs <;> exact ⟨_, _, _, _, rfl⟩

@[simp] theorem sourceData_addBlock (h : BlockHash) (v : UInt32) :
    (h.addBlock v).sourceData = h.sourceData := by
  obtain ⟨_, _, _, _, heq⟩ := addBlock_frame h v
  rw [heq]

@[simp] theorem startingOffset_addBlock (h : BlockHash) (v : UInt32) :
    (h.addBlock v).startingOffset = h.startingOffset := by
  obtain ⟨_, _, _, _, heq⟩ := addBlock_frame h v
  rw [heq]

/-- The table of the blocks of `data` that start before `limit`, added with their own hashes. -/
structure Filled (h : BlockHash) (data : List UInt8) (offset limit : ℕ) : Prop where
  source : h.sourceData = data
  start : h.startingOffset = offset
  holds : Holds h ((List.range h.blocksAdded).map fun b =>
    RollingHash.hash (blockAt data (b * kBlockSize)))
  before : ∀ b < h.blocksAdded, b * kBlockSize < limit

variable {data : List UInt8} {offset limit : ℕ}

theorem Filled.room (hf : Filled h data offset limit) :
    h.blocksAdded ≤ data.length / kBlockSize := by
  have := hf.holds.room
  rw [List.length_map, List.length_range, getNumberOfBlocks, hf.source] at this
  exact this

theorem Filled.mono (hf : Filled h data offset limit) {limit' : ℕ} (hle : limit ≤ limit') :
    Filled h data offset limit' :=
  ⟨hf.source, hf.start, hf.holds, fun b hb => Nat.lt_of_lt_of_le (hf.before b hb) hle⟩

/-- The next block is added with its own hash. -/
theorem Filled.addBlock (hf : Filled h data offset limit)
    (hroom : h.blocksAdded < data.length / kBlockSize)
    (hlt : h.nextIndexToAdd < limit) {v : UInt32}
    (hv : v = RollingHash.hash (blockAt data h.nextIndexToAdd)) :
    Filled (h.addBlock v) data offset limit ∧ (h.addBlock v).blocksAdded = h.blocksAdded + 1 := by
  have hadd := hf.holds.addBlock (by
    rw [List.length_map, List.length_range, getNumberOfBlocks, hf.source]
    exact hroom) v
  have hcount : (h.addBlock v).blocksAdded = h.blocksAdded + 1 := by
    have := hadd.added
    rwa [List.length_append, List.length_map, List.length_range] at this
  refine ⟨⟨?_, ?_, ?_, ?_⟩, hcount⟩
  · rw [sourceData_addBlock, hf.source]
  · rw [startingOffset_addBlock, hf.start]
  · rw [hcount, List.range_succ, List.map_append, List.map_singleton]
    rw [hv] at hadd ⊢
    exact hadd
  · intro b hb
    rw [hcount] at hb
    rcases Nat.lt_succ_iff_lt_or_eq.mp hb with hb | rfl
    · exact hf.before b hb
    · exact hlt

/-- The loop of `AddAllBlocksThroughIndex`. -/
theorem Filled.addBlocks (hf : Filled h data offset limit) (hdata : kBlockSize ≤ data.length)
    {endLimit : ℕ} (hle : endLimit ≤ limit) (hend : endLimit ≤ data.length - kBlockSize + 1) :
    Filled ((addBlocks endLimit).run (h, h.nextIndexToAdd)) data offset limit ∧
      endLimit ≤ ((addBlocks endLimit).run (h, h.nextIndexToAdd)).nextIndexToAdd := by
  apply (BlockHash.addBlocks endLimit).run_induction
    (P := fun s => Filled s.1 data offset limit ∧ s.2 = s.1.nextIndexToAdd)
    (Q := fun r => Filled r data offset limit ∧ endLimit ≤ r.nextIndexToAdd)
  · exact ⟨hf, rfl⟩
  · intro s t ⟨hs, hptr⟩ hbody
    simp only [BlockHash.addBlocks] at hbody
    split at hbody
    · next hlt =>
      obtain rfl := Sum.inl.inj hbody
      rw [hptr, hs.source] at *
      have hroom : s.1.blocksAdded < data.length / kBlockSize := by
        unfold nextIndexToAdd kBlockSize at *
        omega
      obtain ⟨hfill, hcount⟩ := hs.addBlock hroom (Nat.lt_of_lt_of_le hlt hle) rfl
      refine ⟨hfill, ?_⟩
      show s.1.nextIndexToAdd + kBlockSize = (s.1.addBlock _).blocksAdded * kBlockSize
      rw [hcount, nextIndexToAdd, Nat.succ_mul]
    · cases hbody
  · intro s r ⟨hs, hptr⟩ hbody
    simp only [BlockHash.addBlocks] at hbody
    split at hbody
    · cases hbody
    · next hge =>
      obtain rfl := Sum.inr.inj hbody
      exact ⟨hs, hptr ▸ Nat.not_lt.mp hge⟩

/-- `AddAllBlocksThroughIndex` adds blocks that start before the index. -/
theorem Filled.addAllBlocksThroughIndex (hf : Filled h data offset limit) {endIndex : ℕ}
    (hle : endIndex ≤ limit) : Filled (h.addAllBlocksThroughIndex endIndex) data offset limit := by
  unfold BlockHash.addAllBlocksThroughIndex
  rw [hf.source]
  simp only
  split
  · exact hf
  split
  · exact hf
  split
  · exact hf
  · refine (hf.addBlocks (by omega) ?_ ?_).1
    · split <;> omega
    · split <;> omega

/-- `AddOneIndexHash` adds the next block when the index has come to it. -/
theorem Filled.addOneIndexHash {index : ℕ} (hf : Filled h data offset index)
    (hindex : index + kBlockSize ≤ data.length) {v : UInt32}
    (hv : v = RollingHash.hash (blockAt data index)) :
    Filled (h.addOneIndexHash index v) data offset (index + 1) := by
  have hf' := hf.mono (Nat.le_succ index)
  unfold BlockHash.addOneIndexHash
  by_cases heq : index = h.nextIndexToAdd
  · rw [if_pos heq]
    have hroom : h.blocksAdded < data.length / kBlockSize := by
      unfold nextIndexToAdd kBlockSize at *
      omega
    exact (hf'.addBlock hroom (by omega) (heq ▸ hv)).1
  · rw [if_neg heq]
    exact hf'

/-- `AddAllBlocks` on an empty table adds all blocks. -/
theorem Filled.addAllBlocks (hf : Filled h data offset data.length) (h0 : h.blocksAdded = 0) :
    Filled h.addAllBlocks data offset data.length ∧
      h.addAllBlocks.blocksAdded = data.length / kBlockSize := by
  unfold BlockHash.addAllBlocks BlockHash.addAllBlocksThroughIndex
  rw [hf.source, h0]
  simp only
  rw [if_neg (Nat.lt_irrefl _)]
  by_cases hsmall : data.length < kBlockSize
  · have hzero : data.length / kBlockSize = 0 := Nat.div_eq_of_lt hsmall
    rw [if_pos hsmall, ite_self, h0, hzero]
    exact ⟨hf, rfl⟩
  · rw [if_neg (by unfold kBlockSize at *; omega), if_neg hsmall]
    have hlimit : data.length - kBlockSize + 1 ≤ data.length := by
      unfold kBlockSize at *
      omega
    obtain ⟨hfill, hend⟩ := hf.addBlocks (Nat.not_lt.mp hsmall) hlimit (Nat.le_refl _)
    rw [if_pos (by unfold kBlockSize at *; omega)]
    refine ⟨hfill, ?_⟩
    have hroom := hfill.room
    generalize (BlockHash.addBlocks _).run _ = r at *
    unfold nextIndexToAdd kBlockSize at *
    omega

/-- `Init` without blocks. -/
theorem init_false (data : List UInt8) (offset : ℕ) (hn : data.length < 2 ^ 31) :
    ∃ h, (new data offset).init false = (true, h) ∧
      (new data offset).init true = (true, h.addAllBlocks) ∧ h.blocksAdded = 0 ∧
      ∀ limit, Filled h data offset limit := by
  obtain ⟨j, hj, hmin, hmax⟩ := calcTableSize_spec (n := data.length) (by omega)
  have hne : ¬2 ^ j = 0 := by omega
  have hmask : (UInt32.ofNat (2 ^ j - 1)).toNat = 2 ^ j - 1 := by
    rw [UInt32.toNat_ofNat']
    exact Nat.mod_eq_of_lt (by omega)
  refine ⟨{ new data offset with
    hashTableMask := UInt32.ofNat (2 ^ j - 1)
    hashTable := .replicate (2 ^ j) none
    nextBlockTable := .replicate (new data offset).getNumberOfBlocks none
    lastBlockTable := .replicate (new data offset).getNumberOfBlocks none }, ?_, ?_, rfl, ?_⟩
  · unfold BlockHash.init
    rw [if_neg (by simp [new])]
    simp only [new, hj]
    rw [if_neg hne]
    rfl
  · unfold BlockHash.init
    rw [if_neg (by simp [new])]
    simp only [new, hj]
    rw [if_neg hne]
    rfl
  · intro limit
    have hnone : ∀ (n b : ℕ), (List.replicate n (none : Option ℕ)).getD b none = none := by
      intro n b
      rw [List.getD_eq_getElem?_getD, List.getElem?_replicate]
      split <;> rfl
    refine ⟨rfl, rfl, ⟨?_, List.length_replicate, List.length_replicate, rfl, Nat.zero_le _, ?_, ?_,
      ?_⟩, ?_⟩
    · show (List.replicate (2 ^ j) none).length = (UInt32.ofNat (2 ^ j - 1)).toNat + 1
      rw [List.length_replicate, hmask]
      omega
    · intro i _
      show Follows _ ((List.replicate (2 ^ j) none).getD i none) []
      rw [hnone]
      exact .nil
    · intro i first hfirst
      cases hfirst
    · intro b _
      exact hnone _ b
    · intro b hb
      exact absurd hb (Nat.not_lt_zero b)

/-- A target hash is empty at first. -/
theorem createTargetHash_eq {data : List UInt8} (hn : data.length < 2 ^ 31) (offset : ℕ) :
    ∃ h, createTargetHash data offset = some h ∧ h.blocksAdded = 0 ∧
      ∀ limit, Filled h data offset limit := by
  obtain ⟨h, hfalse, -, h0, hf⟩ := init_false data offset hn
  exact ⟨h, by rw [createTargetHash, hfalse], h0, hf⟩

/-! ## Looking up a block -/

variable {blockPtr : List UInt8}

theorem matchesBlock_iff : h.matchesBlock blockPtr b = true ↔
    blockPtr.take kBlockSize = blockAt h.sourceData (b * kBlockSize) := by
  unfold matchesBlock blockContentsMatch blockAt
  split
  · next hne =>
    refine ⟨fun hf => (Bool.false_ne_true hf).elim, fun heq => absurd ?_ hne⟩
    -- equal blocks have the same first byte
    have := congrArg List.head? heq
    rwa [List.head?_take, List.head?_take, if_neg (by decide), if_neg (by decide)] at this
  · exact decide_eq_true_iff

/-- `FirstMatchingBlock` finds the first block of the chain that has the contents, if it is among
the first ones of the chain. -/
theorem Holds.firstMatchingBlock_eq (hh : Holds h hs) (v : UInt32) (blockPtr : List UInt8) :
    h.firstMatchingBlock v blockPtr =
      ((bucket h hs (h.getHashTableIndex v)).take (kMaxProbes + 1)).find?
        (h.matchesBlock blockPtr) :=
  LinkedChain.search_eq _ (hh.chain _ (getHashTableIndex_lt hh.mask v)) kMaxProbes

/-- `NextMatchingBlock` goes on behind a block of the chain. -/
theorem Holds.nextMatchingBlock_eq (hh : Holds h hs) {l l' : List ℕ}
    (hi : i < h.hashTable.length) (hl : bucket h hs i = l ++ b :: l') (blockPtr : List UInt8) :
    h.nextMatchingBlock b blockPtr =
      (l'.take (kMaxProbes + 1)).find? (h.matchesBlock blockPtr) := by
  have hb : b < hs.length := by
    have hmem : b ∈ bucket h hs i := by
      rw [hl]
      exact List.mem_append_right _ (List.mem_cons_self ..)
    exact (mem_bucket.mp hmem).1
  have hroom := hh.room
  have hchain := hh.chain i hi
  rw [hl] at hchain
  rw [nextMatchingBlock, if_neg (by omega)]
  exact LinkedChain.search_eq _ hchain.drop kMaxProbes

/-- What is found is a block with the contents. -/
theorem Holds.of_firstMatchingBlock (hh : Holds h hs)
    (hb : h.firstMatchingBlock v blockPtr = some b) :
    b ∈ bucket h hs (h.getHashTableIndex v) ∧ h.matchesBlock blockPtr b = true := by
  rw [hh.firstMatchingBlock_eq] at hb
  exact ⟨List.mem_of_mem_take (List.mem_of_find?_eq_some hb), List.find?_some hb⟩

theorem Holds.of_nextMatchingBlock (hh : Holds h hs) {b' : ℕ} (hi : i < h.hashTable.length)
    (hb : b ∈ bucket h hs i) (hb' : h.nextMatchingBlock b blockPtr = some b') :
    b' ∈ bucket h hs i ∧ h.matchesBlock blockPtr b' = true := by
  obtain ⟨l, l', hl⟩ := List.append_of_mem hb
  rw [hh.nextMatchingBlock_eq hi hl] at hb'
  have hmem := List.mem_of_mem_take (List.mem_of_find?_eq_some hb')
  refine ⟨?_, List.find?_some hb'⟩
  rw [hl]
  exact List.mem_append_right _ (List.mem_cons_of_mem _ hmem)

/-! ## Whatever was added -/

end BlockHash

end OpenVcdiff
