import NodeVcdiff.OpenVcdiff.DiffEngine

/-!
# The script of the engine

Whatever it finds, what the engine calls the coder with is a script that builds the target. It has
no data that could have been copied, as long as the chains of the dictionary are short.
-/

namespace OpenVcdiff

open SelfCopy (Instruction)
open BlockHash (Agree Covers Filled blockAt bucket kMaxProbes)
open CodeTableWriterInterface (add copy output)

/-- As many of the blocks that were added have one hash table index as are looked at. -/
def BlockHash.ShortChains (h : BlockHash) : Prop :=
  ∀ i, (bucket h ((List.range h.blocksAdded).map fun b =>
    RollingHash.hash (blockAt h.sourceData (b * kBlockSize))) i).length ≤ kMaxProbes + 1

/-- The table of all blocks of the dictionary. -/
structure BlockHash.Dictionary (h : BlockHash) (dictionary : List UInt8) : Prop where
  filled : h.Filled dictionary 0 dictionary.length
  all : h.blocksAdded = dictionary.length / kBlockSize

namespace DiffEngine

variable {hashed : BlockHash} {targetHash : Option BlockHash} {dictionary target : List UInt8}
  {next t n : ℕ}

/-! ## The best match is a copy -/

/-- A match, if there is one, is that of bytes in the dictionary followed by the target, starting
before the place they are copied to. -/
def IsCopy (dictionary target : List UInt8) (next t : ℕ) (m : Match) : Prop :=
  m.size = 0 ∨ ∃ address offset : ℕ, m.sourceOffset = address ∧ m.targetOffset = offset ∧
    offset ≤ t ∧ address < dictionary.length + (next + offset) ∧
    next + offset + m.size ≤ target.length ∧
    ∀ i < m.size, (dictionary ++ target)[address + i]? = target[next + offset + i]?

theorem isCopy_findBestMatch_dictionary (hd : hashed.Dictionary dictionary)
    (ht : t + kBlockSize ≤ (target.drop next).length) (v : UInt32) {best : Match}
    (hbest : IsCopy dictionary target next t best) :
    IsCopy dictionary target next t (hashed.findBestMatch v t (target.drop next) best) := by
  rcases (hd.filled.holds.fromBlock_findBestMatch ht v best).1 with heq | ⟨b, -, p, q, n, hc, heq⟩
  · rw [heq]
    exact hbest
  · right
    rw [heq, hd.filled.start]
    have hsource := hc.sourceEnd
    have htarget := hc.targetEnd
    have hdiag := hc.diagonal
    have hleft := hc.left
    have hright := hc.right
    rw [hd.filled.source] at hsource
    rw [List.length_drop] at htarget ht
    unfold kBlockSize at *
    refine ⟨p, q, rfl, rfl, by omega, by omega, ?_, fun i hi => ?_⟩
    · show next + q + n ≤ _
      omega
    · have hag := hc.agree i hi
      have hi : i < n := hi
      rw [hd.filled.source, List.getElem?_drop] at hag
      rw [List.getElem?_append_left (by omega), hag, Nat.add_assoc]

theorem isCopy_findBestMatch_target {h : BlockHash}
    (hf : h.Filled target dictionary.length (next + t))
    (ht : t + kBlockSize ≤ (target.drop next).length) (v : UInt32) {best : Match}
    (hbest : IsCopy dictionary target next t best) :
    IsCopy dictionary target next t (h.findBestMatch v t (target.drop next) best) := by
  rcases (hf.holds.fromBlock_findBestMatch ht v best).1 with heq | ⟨b, hb, p, q, n, hc, heq⟩
  · rw [heq]
    exact hbest
  · right
    rw [heq, hf.start]
    -- the block was added before the candidate
    have hblock : b < h.blocksAdded := by
      have := (BlockHash.mem_bucket.mp hb).1
      rwa [List.length_map, List.length_range] at this
    have hlt := hf.before b hblock
    have htarget := hc.targetEnd
    have hdiag := hc.diagonal
    have hleft := hc.left
    rw [List.length_drop] at htarget ht
    refine ⟨p + dictionary.length, q, rfl, rfl, by omega, by omega, ?_, fun i hi => ?_⟩
    · show next + q + n ≤ _
      unfold kBlockSize at *
      omega
    · have hag := hc.agree i hi
      rw [hf.source, List.getElem?_drop] at hag
      rw [List.getElem?_append_right (by omega), Nat.add_right_comm, Nat.add_sub_cancel, hag,
        Nat.add_assoc]

theorem isCopy_bestMatch (hd : hashed.Dictionary dictionary)
    (hf : ∀ h ∈ targetHash, h.Filled target dictionary.length (next + t))
    (ht : t + kBlockSize ≤ (target.drop next).length) (v : UInt32) :
    IsCopy dictionary target next t (bestMatch hashed targetHash v t (target.drop next)) := by
  have hnew : IsCopy dictionary target next t .new := .inl rfl
  have hdict := isCopy_findBestMatch_dictionary hd ht v hnew
  unfold bestMatch
  cases targetHash with
  | none => exact hdict
  | some h => exact isCopy_findBestMatch_target (hf h rfl) ht v hdict

/-- Looking for target matches does not lose a match in the dictionary. -/
theorem le_bestMatch (hf : ∀ h ∈ targetHash, h.Filled target dictionary.length (next + t))
    (ht : t + kBlockSize ≤ (target.drop next).length) (v : UInt32) :
    (hashed.findBestMatch v t (target.drop next) .new).size ≤
      (bestMatch hashed targetHash v t (target.drop next)).size := by
  unfold bestMatch
  cases targetHash with
  | none => exact Nat.le_refl _
  | some h => exact ((hf h rfl).holds.fromBlock_findBestMatch ht v _).2

/-! ## Data that could not have been copied -/

/-- The candidate at position `c` has no match in the dictionary that is worth a copy. -/
def Unmatched (hashed : BlockHash) (target : List UInt8) (next c : ℕ) : Prop :=
  (hashed.findBestMatch (RollingHash.hash (blockAt target c)) (c - next) (target.drop next)
    .new).size < kMinimumMatchSize

/-- Of `n` bytes that are the same, those of one block of the dictionary are all among them. -/
theorem covers_of_agree {data : List UInt8} {a q : ℕ} (hag : Agree dictionary a data q n)
    (hn : 2 * kBlockSize ≤ n + 1) (ha : a + n ≤ dictionary.length) (hq : q + n ≤ data.length) :
    ∃ b < dictionary.length / kBlockSize, ∃ c, q ≤ c ∧ c + kBlockSize ≤ q + n ∧
      Covers dictionary (b * kBlockSize) data c a q n := by
  unfold kBlockSize at *
  refine ⟨(a + 15) / 16, by omega, q + ((a + 15) / 16 * 16 - a), by omega, by omega, ?_⟩
  exact ⟨by omega, by omega, by unfold kBlockSize; omega, ha, hq, hag⟩

/-- What is worth calling the coder for: data that is not in the dictionary, at least no longer piece
of it, or a long copy. -/
def Worthwhile (hashed : BlockHash) (dictionary : List UInt8) : Instruction UInt8 → Prop
  | .add data => 0 < data.length ∧ (hashed.ShortChains →
      ∀ x : List UInt8, x.length = kMinimumMatchSize → x <:+: dictionary → ¬x <:+: data)
  | .run _ _ => False
  | .copy _ size => kMinimumMatchSize ≤ size

theorem Worthwhile.size_pos {i : Instruction UInt8} (h : Worthwhile hashed dictionary i) :
    0 < i.size := by
  cases i with
  | add data => exact h.1
  | run size byte => exact h.elim
  | copy address size => exact Nat.lt_of_lt_of_le (by decide) h

theorem worthwhile_add (hd : hashed.Dictionary dictionary) (hn : 0 < n)
    (hle : next + n ≤ target.length)
    (htried : ∀ c, next ≤ c → c + kBlockSize ≤ next + n → Unmatched hashed target next c) :
    Worthwhile hashed dictionary (.add ((target.drop next).take n)) := by
  refine ⟨?_, fun hshort x hx hdict hdata => ?_⟩
  · rw [List.length_take, List.length_drop]
    omega
  obtain ⟨a, ha, hxa⟩ := List.infix_iff_getElem?.mp hdict
  obtain ⟨q, hq, hxq⟩ := List.infix_iff_getElem?.mp hdata
  rw [List.length_take, List.length_drop] at hq
  rw [hx] at ha hq
  have hag : Agree dictionary a (target.drop next) q kMinimumMatchSize := by
    intro i hi
    have h₁ := hxa i (hx ▸ hi)
    have h₂ := hxq i (hx ▸ hi)
    rw [List.getElem?_take_of_lt (by omega)] at h₂
    rw [Nat.add_comm a, Nat.add_comm q, h₁, h₂]
  obtain ⟨b, hb, c, hqc, hcn, hc⟩ := covers_of_agree hag (by decide) (by omega)
    (by rw [List.length_drop]; omega)
  -- the candidate at that place was tried, and the block is in its chain
  have hlt := htried (next + c) (Nat.le_add_right _ _) (by omega)
  unfold Unmatched at hlt
  rw [Nat.add_sub_cancel_left] at hlt
  have hblock : blockAt target (next + c) = blockAt dictionary (b * kBlockSize) := by
    rw [← hc.block, blockAt, List.drop_drop]
  have hmem : b ∈ bucket hashed ((List.range hashed.blocksAdded).map fun b =>
      RollingHash.hash (blockAt dictionary (b * kBlockSize)))
      (hashed.getHashTableIndex (RollingHash.hash (blockAt target (next + c)))) := by
    have hb' : b < hashed.blocksAdded := hd.all ▸ hb
    apply BlockHash.mem_bucket.mpr
    rw [List.length_map, List.length_range, List.getD_eq_getElem?_getD, List.getElem?_map,
      List.getElem?_range hb', hblock]
    exact ⟨hb', rfl⟩
  have hsource := hd.filled.source
  have hchain := hshort (hashed.getHashTableIndex (RollingHash.hash (blockAt target (next + c))))
  rw [hsource] at hchain
  have hle' := hd.filled.holds.le_findBestMatch (by rw [List.length_drop]; omega) hchain hmem
    (hsource ▸ hc) .new
  omega

/-! ## The loop -/

variable {γ : Type} [CodeTableWriterInterface γ] {start coder : γ}

/-- The coder was called for a script that builds the first `n` bytes of the target. -/
def Scripted (hashed : BlockHash) (dictionary target : List UInt8) (start : γ) (n : ℕ)
    (coder : γ) : Prop :=
  ∃ is : List (Instruction UInt8), coder = is.foldl CodeTableWriterInterface.encode start ∧
    (∀ i ∈ is, Worthwhile hashed dictionary i) ∧
    SelfCopy.exec dictionary [] is = some (target.take n)

theorem Scripted.snoc {i : Instruction UInt8} {m : ℕ}
    (hs : Scripted hashed dictionary target start n coder) (hi : Worthwhile hashed dictionary i)
    (hexec : i.exec dictionary (target.take n) = some (target.take m)) :
    Scripted hashed dictionary target start m (CodeTableWriterInterface.encode coder i) := by
  obtain ⟨is, rfl, hworth, htake⟩ := hs
  refine ⟨is ++ [i], ?_, ?_, ?_⟩
  · rw [List.foldl_append]
    rfl
  · exact List.forall_mem_append.mpr ⟨hworth, List.forall_mem_singleton.mpr hi⟩
  · rw [SelfCopy.exec_append, htake, Option.bind_some, SelfCopy.exec_singleton, hexec]

/-- The call of `Add` for the next bytes. -/
theorem Scripted.add {m : ℕ} (hs : Scripted hashed dictionary target start n coder)
    (hi : Worthwhile hashed dictionary (.add ((target.drop n).take m))) :
    Scripted hashed dictionary target start (n + m)
      (CodeTableWriterInterface.add coder ((target.drop n).take m)) := by
  apply hs.snoc hi
  rw [Instruction.exec, ← List.take_add]

/-- The call of `Copy` for bytes that were compared. -/
theorem Scripted.copy {address m : ℕ} (hs : Scripted hashed dictionary target start n coder)
    (hm : kMinimumMatchSize ≤ m) (hlt : address < dictionary.length + n)
    (hle : n + m ≤ target.length)
    (hsame : ∀ i < m, (dictionary ++ target)[address + i]? = target[n + i]?) :
    Scripted hashed dictionary target start (n + m)
      (CodeTableWriterInterface.copy coder (address : ℤ) m) := by
  have hlen : (target.take n).length = n := List.length_take_of_le (by omega)
  refine hs.snoc (i := .copy address m) hm ?_
  rw [Instruction.exec, hlen, if_pos hlt, SelfCopy.copySymbols_take hlt hle hsame]

/-- What is known at the beginning of a round. -/
structure Scan.Sound (hashed : BlockHash) (dictionary target : List UInt8) (start : γ)
    (s : Scan γ) : Prop where
  next_le : s.nextEncode ≤ s.candidatePos
  candidate_le : s.candidatePos + kBlockSize ≤ target.length
  hash : s.hashValue = RollingHash.hash (blockAt target s.candidatePos)
  targetHash : ∀ h ∈ s.targetHash, h.Filled target dictionary.length s.candidatePos
  scripted : Scripted hashed dictionary target start s.nextEncode s.coder
  tried : ∀ c, s.nextEncode ≤ c → c < s.candidatePos → Unmatched hashed target s.nextEncode c

/-- What is known after the last round. -/
structure Scan.Done (hashed : BlockHash) (dictionary target : List UInt8) (start : γ)
    (s : Scan γ) : Prop where
  next_le : s.nextEncode ≤ target.length
  scripted : Scripted hashed dictionary target start s.nextEncode s.coder
  tried : ∀ c, s.nextEncode ≤ c → c + kBlockSize ≤ target.length →
    Unmatched hashed target s.nextEncode c

section Round

variable {s : Scan γ}

/-- A match is encoded. -/
theorem Scan.Sound.encoded (hs : s.Sound hashed dictionary target start)
    (hd : hashed.Dictionary dictionary) {m : Match}
    (hm : IsCopy dictionary target s.nextEncode (s.candidatePos - s.nextEncode) m)
    (hsize : kMinimumMatchSize ≤ m.size) :
    s.nextEncode + (m.targetOffset + m.size).toNat ≤ target.length ∧
      Scripted hashed dictionary target start (s.nextEncode + (m.targetOffset + m.size).toNat)
        (copy (if m.targetOffset > 0 then
          add s.coder ((target.drop s.nextEncode).take m.targetOffset.toNat) else s.coder)
          m.sourceOffset m.size) := by
  have hnext := hs.next_le
  rcases hm with h0 | ⟨address, offset, hsource, htarget, hle, hlt, hend, hsame⟩
  · unfold kMinimumMatchSize at hsize
    omega
  rw [hsource, htarget]
  have htoNat : ((offset : ℤ) + m.size).toNat = offset + m.size := by omega
  rw [htoNat, Int.toNat_natCast, ← Nat.add_assoc]
  refine ⟨hend, Scripted.copy ?_ hsize hlt hend hsame⟩
  by_cases hoffset : (offset : ℤ) > 0
  · rw [if_pos hoffset]
    apply hs.scripted.add
    apply worthwhile_add hd (by omega) (by omega)
    intro c hc hcn
    apply hs.tried c hc
    unfold kBlockSize at hcn
    omega
  · rw [if_neg hoffset]
    obtain rfl : offset = 0 := by omega
    exact hs.scripted

theorem Scan.Sound.filled (hs : s.Sound hashed dictionary target start) :
    ∀ h ∈ s.targetHash,
      h.Filled target dictionary.length (s.nextEncode + (s.candidatePos - s.nextEncode)) := by
  rw [Nat.add_sub_cancel' hs.next_le]
  exact hs.targetHash

theorem Scan.Sound.room (hs : s.Sound hashed dictionary target start) :
    s.candidatePos - s.nextEncode + kBlockSize ≤ (target.drop s.nextEncode).length := by
  have hle := hs.next_le
  have hcand := hs.candidate_le
  rw [List.length_drop]
  omega

/-- Without a match the candidate was tried. -/
theorem Scan.Sound.unmatched (hs : s.Sound hashed dictionary target start)
    (hsize : (bestMatch hashed s.targetHash s.hashValue (s.candidatePos - s.nextEncode)
      (target.drop s.nextEncode)).size < kMinimumMatchSize) :
    ∀ c, s.nextEncode ≤ c → c ≤ s.candidatePos → Unmatched hashed target s.nextEncode c := by
  intro c hc hcand
  rcases Nat.lt_or_eq_of_le hcand with hlt | rfl
  · exact hs.tried c hc hlt
  · rw [Unmatched, ← hs.hash]
    exact Nat.lt_of_le_of_lt (le_bestMatch hs.filled hs.room s.hashValue) hsize

/-- The hash of the block at the next position. -/
theorem updateHash_blockAt {c : ℕ} (hc : c + kBlockSize < target.length) :
    RollingHash.updateHash kBlockSize (RollingHash.hash (blockAt target c)) (target.getD c 0)
      (target.getD (c + kBlockSize) 0) = RollingHash.hash (blockAt target (c + 1)) := by
  obtain ⟨window, hlen, hhere, hnext⟩ := RollingHash.window_succ (by decide : 0 < kBlockSize) hc
  rw [blockAt, blockAt, hhere, hnext, ← hlen]
  unfold kBlockSize at hlen
  exact RollingHash.updateHash_hash _ _ (by omega)

/-- A round that goes on. -/
theorem Scan.Sound.step (hs : s.Sound hashed dictionary target start)
    (hd : hashed.Dictionary dictionary) {s' : Scan γ}
    (h : s.step hashed target = .inl s') : s'.Sound hashed dictionary target start := by
  have hnext := hs.next_le
  have hcand := hs.candidate_le
  have hcopy := isCopy_bestMatch hd hs.filled hs.room s.hashValue
  rcases s.step_cases hashed target rfl with ⟨hsize, hr⟩ | ⟨hsize, hle, hr⟩
  · rw [hr, Scan.moveOn] at h
    by_cases hlast : s.candidatePos + 1 > target.length - kBlockSize
    · rw [if_pos hlast] at h
      cases h
    rw [if_neg hlast] at h
    cases h
    refine ⟨Nat.le_succ_of_le hnext, by simp only; omega, ?_, ?_, hs.scripted, ?_⟩
    · simp only
      rw [hs.hash]
      exact updateHash_blockAt (by omega)
    · intro h hh
      obtain ⟨h, hmem, rfl⟩ := Option.map_eq_some_iff.mp hh
      exact (hs.targetHash h hmem).addOneIndexHash hcand hs.hash
    · intro c hc hlt
      exact hs.unmatched hsize c hc (Nat.le_of_lt_succ hlt)
  · obtain ⟨hend, hscripted⟩ := hs.encoded hd hcopy hsize
    rw [hr, Scan.advance] at h
    simp only at h
    generalize bestMatch hashed s.targetHash s.hashValue _ _ = m at *
    by_cases hlast : s.nextEncode + (m.targetOffset + m.size).toNat > target.length - kBlockSize
    · rw [if_pos hlast] at h
      cases h
    rw [if_neg hlast] at h
    cases h
    refine ⟨Nat.le_refl _, by simp only; omega, rfl, ?_, hscripted, ?_⟩
    · intro h hh
      obtain ⟨h, hmem, rfl⟩ := Option.map_eq_some_iff.mp hh
      exact ((hs.targetHash h hmem).mono (by simp only; omega)).addAllBlocksThroughIndex
        (Nat.le_refl _)
    · intro c hc hlt
      exact absurd hlt (Nat.not_lt.mpr hc)

/-- The last round. -/
theorem Scan.Sound.done (hs : s.Sound hashed dictionary target start)
    (hd : hashed.Dictionary dictionary) {s' : Scan γ}
    (h : s.step hashed target = .inr s') : s'.Done hashed dictionary target start := by
  have hnext := hs.next_le
  have hcand := hs.candidate_le
  have hcopy := isCopy_bestMatch hd hs.filled hs.room s.hashValue
  rcases s.step_cases hashed target rfl with ⟨hsize, hr⟩ | ⟨hsize, hle, hr⟩
  · rw [hr, Scan.moveOn] at h
    by_cases hlast : s.candidatePos + 1 > target.length - kBlockSize
    · rw [if_pos hlast] at h
      cases h
      refine ⟨by omega, hs.scripted, fun c hc hlt => hs.unmatched hsize c hc (by omega)⟩
    · rw [if_neg hlast] at h
      cases h
  · obtain ⟨hend, hscripted⟩ := hs.encoded hd hcopy hsize
    rw [hr, Scan.advance] at h
    simp only at h
    generalize bestMatch hashed s.targetHash s.hashValue _ _ = m at *
    by_cases hlast : s.nextEncode + (m.targetOffset + m.size).toNat > target.length - kBlockSize
    · rw [if_pos hlast] at h
      cases h
      -- what is left is shorter than a block
      refine ⟨hend, hscripted, fun c hc hlt => ?_⟩
      simp only at hc
      omega
    · rw [if_neg hlast] at h
      cases h

end Round

theorem scripted_nil (hashed : BlockHash) (dictionary target : List UInt8) (start : γ) :
    Scripted hashed dictionary target start 0 start :=
  ⟨[], rfl, List.forall_mem_nil _, rfl⟩

/-- The loop from the beginning of a target that is not shorter than a block. -/
theorem done_encodeLoop (hd : hashed.Dictionary dictionary) (hlen : kBlockSize ≤ target.length)
    (htarget : ∀ h ∈ targetHash, h.Filled target dictionary.length 0) (start : γ) :
    ((encodeLoop hashed target).run {
      nextEncode := 0
      candidatePos := 0
      hashValue := RollingHash.hash (blockAt target 0)
      targetHash
      coder := start }).Done hashed dictionary target start := by
  apply (encodeLoop hashed target).run_induction
    (P := fun s => s.Sound hashed dictionary target start)
    (Q := fun s => s.Done hashed dictionary target start)
  · refine ⟨Nat.le_refl 0, by simpa using hlen, rfl, htarget, scripted_nil .., ?_⟩
    exact fun c _ hc => absurd hc (Nat.not_lt_zero c)
  · exact fun s t hs h => hs.step hd h
  · exact fun s r hs h => hs.done hd h

/-- What the loop left is added. -/
theorem Scan.Done.remainder {s : Scan γ} (hs : s.Done hashed dictionary target start)
    (hd : hashed.Dictionary dictionary) :
    Scripted hashed dictionary target start target.length
      (addUnmatchedRemainder (target.drop s.nextEncode) s.coder) := by
  have hle := hs.next_le
  have htake : (target.drop s.nextEncode).take (target.length - s.nextEncode) =
      target.drop s.nextEncode := by
    rw [List.take_of_length_le]
    rw [List.length_drop]
  unfold addUnmatchedRemainder
  rw [List.length_drop]
  by_cases hpos : target.length - s.nextEncode > 0
  · rw [if_pos hpos]
    have hworth : Worthwhile hashed dictionary (.add ((target.drop s.nextEncode).take
        (target.length - s.nextEncode))) :=
      worthwhile_add hd hpos (by omega) fun c hc hcn => hs.tried c hc (by omega)
    have := hs.scripted.add hworth
    rwa [htake, Nat.add_sub_cancel' hle] at this
  · rw [if_neg hpos]
    obtain heq : s.nextEncode = target.length := by omega
    exact heq ▸ hs.scripted

/-! ## The engine -/

variable {e : DiffEngine}

/-- Whatever the target is, and with target matches or without, the engine calls the coder for a
script that builds the target out of the dictionary, and then for its output. -/
theorem scripted_encode (hd : hashed.Dictionary dictionary) (hne : target ≠ [])
    (hn : target.length < 2 ^ 31) (lookForTargetMatches : Bool) (start : γ) :
    ∃ coder, Scripted hashed dictionary target start target.length coder ∧
      (⟨dictionary, some hashed⟩ : DiffEngine).encode target lookForTargetMatches start =
        output coder := by
  have hpos : ¬target.length = 0 := fun h => hne (List.length_eq_zero_iff.mp h)
  unfold encode
  simp only
  rw [if_neg hpos]
  by_cases hsmall : target.length < kBlockSize
  · rw [if_pos hsmall]
    refine ⟨_, ?_, rfl⟩
    have hdone : (Scan.mk 0 0 0 none start).Done hashed dictionary target start := by
      refine ⟨Nat.zero_le _, scripted_nil .., fun c _ hc => ?_⟩
      omega
    exact hdone.remainder hd
  · rw [if_neg hsmall]
    cases lookForTargetMatches with
    | true =>
      obtain ⟨h, hcreate, -, hfilled⟩ := BlockHash.createTargetHash_eq hn dictionary.length
      rw [if_pos rfl, hcreate]
      refine ⟨_, (done_encodeLoop hd (Nat.not_lt.mp hsmall) ?_ start).remainder hd, rfl⟩
      intro h' hh'
      cases hh'
      exact hfilled 0
    | false =>
      rw [if_neg Bool.false_ne_true]
      refine ⟨_, (done_encodeLoop hd (Nat.not_lt.mp hsmall) ?_ start).remainder hd, rfl⟩
      intro h' hh'
      cases hh'

end DiffEngine

end OpenVcdiff
