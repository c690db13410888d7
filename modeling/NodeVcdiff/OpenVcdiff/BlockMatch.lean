import NodeVcdiff.OpenVcdiff.BlockChains

/-!
# `blockhash.cc`: the best match

A match of a block is extended to both sides as far as the data agrees.
-/

namespace OpenVcdiff

/-- `BlockHash::Match`. -/
structure Match where
  size : ℕ
  sourceOffset : ℤ
  targetOffset : ℤ
  deriving DecidableEq, Repr

namespace Match

/-- The constructor. -/
def new : Match := ⟨0, -1, -1⟩

/-- `ReplaceIfBetterMatch`. -/
def replaceIfBetterMatch (m : Match) (candidateSize : ℕ)
    (candidateSourceOffset candidateTargetOffset : ℤ) : Match :=
  if candidateSize > m.size then ⟨candidateSize, candidateSourceOffset, candidateTargetOffset⟩
  else m

end Match

namespace BlockHash

/-- The loop of `MatchingBytesToLeft` and `MatchingBytesToRight`: how many bytes agree, but not more
than `max_bytes`. -/
def matchingBytes : (maxBytes : ℕ) → List UInt8 → List UInt8 → ℕ
  | maxBytes + 1, a :: source, b :: target =>
    if a = b then matchingBytes maxBytes source target + 1 else 0
  | _, _, _ => 0

/-- `MatchingBytesToLeft` of two positions. -/
def matchingBytesToLeft (source : List UInt8) (sourceMatchStart : ℕ) (target : List UInt8)
    (targetMatchStart maxBytes : ℕ) : ℕ :=
  matchingBytes maxBytes (source.take sourceMatchStart).reverse
    (target.take targetMatchStart).reverse

/-- `MatchingBytesToRight` of two positions. -/
def matchingBytesToRight (source : List UInt8) (sourceMatchEnd : ℕ) (target : List UInt8)
    (targetMatchEnd maxBytes : ℕ) : ℕ :=
  matchingBytes maxBytes (source.drop sourceMatchEnd) (target.drop targetMatchEnd)

variable (h : BlockHash)

/-- The body of the loop in `FindBestMatch`: the match of a block is extended and replaces the best
one if it is longer. -/
def extendMatch (targetCandidateStart : ℕ) (target : List UInt8) (blockNumber : ℕ)
    (bestMatch : Match) : Match :=
  let sourceMatchOffset := blockNumber * kBlockSize
  let sourceMatchEnd := sourceMatchOffset + kBlockSize
  let targetMatchOffset := targetCandidateStart
  let targetMatchEnd := targetMatchOffset + kBlockSize
  let matchingBytesToLeft := matchingBytesToLeft h.sourceData sourceMatchOffset target
    targetMatchOffset (min sourceMatchOffset targetMatchOffset)
  let matchingBytesToRight := matchingBytesToRight h.sourceData sourceMatchEnd target
    targetMatchEnd (min (h.sourceData.length - sourceMatchEnd) (target.length - targetMatchEnd))
  bestMatch.replaceIfBetterMatch (kBlockSize + matchingBytesToLeft + matchingBytesToRight)
    (sourceMatchOffset - matchingBytesToLeft + h.startingOffset)
    (targetMatchOffset - matchingBytesToLeft)

/-- The loop of `FindBestMatch`, which checks at most `matches` more blocks. -/
def checkMatches (targetCandidateStart : ℕ) (target : List UInt8) :
    (checks : ℕ) → Option ℕ → Match → Match
  | _, none, bestMatch => bestMatch
  | 0, some _, bestMatch => bestMatch
  | checks + 1, some blockNumber, bestMatch =>
    checkMatches targetCandidateStart target checks
      (h.nextMatchingBlock blockNumber (target.drop targetCandidateStart))
      (h.extendMatch targetCandidateStart target blockNumber bestMatch)

/-- `FindBestMatch`. The candidate is a position in the target. -/
def findBestMatch (hashValue : UInt32) (targetCandidateStart : ℕ) (target : List UInt8)
    (bestMatch : Match) : Match :=
  h.checkMatches targetCandidateStart target kMaxMatchesToCheck
    (h.firstMatchingBlock hashValue (target.drop targetCandidateStart)) bestMatch

/-! ## Getting on -/

/-- A match reaches the end of the candidate's block, unless nothing was found. -/
def Advances (t : ℕ) (m : Match) : Prop :=
  m.size = 0 ∨ ((t + kBlockSize : ℕ) : ℤ) ≤ m.targetOffset + m.size

variable {h}

theorem Advances.extendMatch {t b : ℕ} {target : List UInt8} {best : Match}
    (hadv : Advances t best) : Advances t (h.extendMatch t target b best) := by
  unfold BlockHash.extendMatch Match.replaceIfBetterMatch
  simp only
  split
  · right
    simp only
    omega
  · exact hadv

theorem Advances.findBestMatch {t : ℕ} {v : UInt32} {target : List UInt8} {best : Match}
    (hadv : Advances t best) : Advances t (h.findBestMatch v t target best) := by
  unfold BlockHash.findBestMatch
  generalize h.firstMatchingBlock v (target.drop t) = start
  induction kMaxMatchesToCheck generalizing start best with
  | zero => cases start <;> exact hadv
  | succ checks ih =>
    cases start with
    | none => exact hadv
    | some b => exact ih hadv.extendMatch _

/-! ## Bytes that agree -/

/-- `n` bytes at two positions are the same. -/
def Agree (source : List UInt8) (p : ℕ) (target : List UInt8) (q n : ℕ) : Prop :=
  ∀ i < n, source[p + i]? = target[q + i]?

variable {source target : List UInt8} {p q m n : ℕ}

theorem Agree.append (h₁ : Agree source p target q m) (h₂ : Agree source (p + m) target (q + m) n) :
    Agree source p target q (m + n) := by
  intro i hi
  by_cases him : i < m
  · exact h₁ i him
  · have := h₂ (i - m) (by omega)
    rwa [Nat.add_assoc, Nat.add_assoc, Nat.add_sub_cancel' (Nat.not_lt.mp him)] at this

/-- Some of the bytes that agree. -/
theorem Agree.mid (hag : Agree source p target q n) (d : ℕ) (hd : d + m ≤ n) :
    Agree source (p + d) target (q + d) m := by
  intro i hi
  have := hag (d + i) (by omega)
  rwa [← Nat.add_assoc, ← Nat.add_assoc] at this

/-- How many bytes are counted. -/
theorem le_matchingBytes_iff {k maxBytes : ℕ} : k ≤ matchingBytes maxBytes source target ↔
    k ≤ maxBytes ∧ k ≤ source.length ∧ k ≤ target.length ∧ Agree source 0 target 0 k := by
  fun_induction matchingBytes maxBytes source target generalizing k with
  | case1 maxBytes source a target ih =>
    cases k with
    | zero => exact ⟨fun _ => ⟨Nat.zero_le _, Nat.zero_le _, Nat.zero_le _, fun _ h => absurd h
        (Nat.not_lt_zero _)⟩, fun _ => Nat.zero_le _⟩
    | succ k =>
      have hagree : Agree (a :: source) 0 (a :: target) 0 (k + 1) ↔ Agree source 0 target 0 k := by
        constructor
        · intro h i hi
          have := h (i + 1) (by omega)
          simpa using this
        · intro h i hi
          cases i with
          | zero => rfl
          | succ i =>
            have := h i (by omega)
            simpa using this
      rw [Nat.add_le_add_iff_right, ih, List.length_cons, List.length_cons,
        Nat.add_le_add_iff_right, Nat.add_le_add_iff_right, Nat.add_le_add_iff_right, hagree]
  | case2 maxBytes a source b target hne =>
    constructor
    · intro h
      obtain rfl := Nat.le_zero.mp h
      exact ⟨Nat.zero_le _, Nat.zero_le _, Nat.zero_le _, fun _ h => absurd h (Nat.not_lt_zero _)⟩
    · intro ⟨_, _, _, hagree⟩
      by_contra hk
      have := hagree 0 (by omega)
      exact hne (Option.some.inj this)
  | case3 maxBytes source target hend =>
    constructor
    · intro h
      obtain rfl := Nat.le_zero.mp h
      exact ⟨Nat.zero_le _, Nat.zero_le _, Nat.zero_le _, fun _ h => absurd h (Nat.not_lt_zero _)⟩
    · intro ⟨hmax, hs, ht, _⟩
      cases maxBytes with
      | zero => exact hmax
      | succ maxBytes =>
        cases source with
        | nil => exact hs
        | cons a source =>
          cases target with
          | nil => exact ht
          | cons b target => exact (hend maxBytes a source b target rfl rfl rfl).elim

theorem le_matchingBytesToRight_iff (source : List UInt8) (p : ℕ) (target : List UInt8)
    (q maxBytes k : ℕ) :
    k ≤ matchingBytesToRight source p target q maxBytes ↔
      k ≤ maxBytes ∧ k ≤ source.length - p ∧ k ≤ target.length - q ∧ Agree source p target q k := by
  have hagree : Agree (source.drop p) 0 (target.drop q) 0 k ↔ Agree source p target q k := by
    unfold Agree
    simp only [Nat.zero_add, List.getElem?_drop]
  rw [matchingBytesToRight, le_matchingBytes_iff, List.length_drop, List.length_drop, hagree]

theorem le_matchingBytesToLeft_iff (hp : p ≤ source.length) (hq : q ≤ target.length)
    (maxBytes k : ℕ) :
    k ≤ matchingBytesToLeft source p target q maxBytes ↔
      k ≤ maxBytes ∧ k ≤ p ∧ k ≤ q ∧ Agree source (p - k) target (q - k) k := by
  have hlp : (source.take p).length = p := List.length_take_of_le hp
  have hlq : (target.take q).length = q := List.length_take_of_le hq
  rw [matchingBytesToLeft, le_matchingBytes_iff, List.length_reverse, List.length_reverse, hlp, hlq]
  -- counted from the right the bytes are those before the two positions
  have hbyte : ∀ i < k, k ≤ p → k ≤ q →
      ((source.take p).reverse[0 + i]? = (target.take q).reverse[0 + i]? ↔
        source[p - k + (k - 1 - i)]? = target[q - k + (k - 1 - i)]?) := by
    intro i hi hkp hkq
    rw [Nat.zero_add, List.getElem?_reverse (by omega), List.getElem?_reverse (by omega), hlp, hlq,
      List.getElem?_take_of_lt (by omega), List.getElem?_take_of_lt (by omega),
      show p - 1 - i = p - k + (k - 1 - i) by omega, show q - 1 - i = q - k + (k - 1 - i) by omega]
  refine and_congr_right fun _ => and_congr_right fun hkp => and_congr_right fun hkq => ?_
  constructor
  · intro h i hi
    have := (hbyte (k - 1 - i) (by omega) hkp hkq).mp (h (k - 1 - i) (by omega))
    rwa [show k - 1 - (k - 1 - i) = i by omega] at this
  · intro h i hi
    exact (hbyte i hi hkp hkq).mpr (h (k - 1 - i) (by omega))

/-! ## The match of a block -/

/-- `n` bytes at two positions are the same, among them those of a block at `s` in the source and
of the candidate at `t` in the target. -/
structure Covers (source : List UInt8) (s : ℕ) (target : List UInt8) (t p q n : ℕ) : Prop where
  diagonal : p + t = s + q
  left : p ≤ s
  right : s + kBlockSize ≤ p + n
  sourceEnd : p + n ≤ source.length
  targetEnd : q + n ≤ target.length
  agree : Agree source p target q n

variable {s t : ℕ}

/-- The block and the candidate are the same. -/
theorem Covers.block (hc : Covers source s target t p q n) :
    (target.drop t).take kBlockSize = blockAt source s := by
  have hd := hc.diagonal
  have hl := hc.left
  have hr := hc.right
  apply List.ext_getElem?
  intro i
  rw [blockAt]
  by_cases hi : i < kBlockSize
  · rw [List.getElem?_take_of_lt hi, List.getElem?_take_of_lt hi, List.getElem?_drop,
      List.getElem?_drop]
    have := hc.agree (s - p + i) (by omega)
    rw [show p + (s - p + i) = s + i by omega, show q + (s - p + i) = t + i by omega] at this
    exact this.symm
  · rw [List.getElem?_take_eq_none (Nat.not_lt.mp hi), List.getElem?_take_eq_none (Nat.not_lt.mp hi)]

/-- The match of a block that is the same as the candidate: none is longer. -/
theorem extendMatch_spec (hs : b * kBlockSize + kBlockSize ≤ h.sourceData.length)
    (ht : t + kBlockSize ≤ target.length) (hm : h.matchesBlock (target.drop t) b = true)
    (best : Match) :
    ∃ p q n, Covers h.sourceData (b * kBlockSize) target t p q n ∧
      h.extendMatch t target b best =
        best.replaceIfBetterMatch n ((p + h.startingOffset : ℕ) : ℤ) q ∧
      ∀ p' q' n', Covers h.sourceData (b * kBlockSize) target t p' q' n' → n' ≤ n := by
  have hblock := matchesBlock_iff.mp hm
  unfold extendMatch
  simp only
  generalize b * kBlockSize = s at *
  have hs' : s ≤ h.sourceData.length := by omega
  have ht' : t ≤ target.length := by omega
  have hleft := le_matchingBytesToLeft_iff hs' ht' (min s t)
  have hright := le_matchingBytesToRight_iff h.sourceData (s + kBlockSize) target (t + kBlockSize)
    (min (h.sourceData.length - (s + kBlockSize)) (target.length - (t + kBlockSize)))
  generalize matchingBytesToLeft h.sourceData s target t (min s t) = l at *
  generalize matchingBytesToRight h.sourceData (s + kBlockSize) target (t + kBlockSize) _ = r at *
  obtain ⟨-, hls, hlt, hal⟩ := (hleft l).mp (Nat.le_refl l)
  obtain ⟨-, hrs, hrt, har⟩ := (hright r).mp (Nat.le_refl r)
  have hmid : Agree h.sourceData s target t kBlockSize := by
    intro i hi
    have := congrArg (·[i]?) hblock
    simp only [blockAt] at this
    rw [List.getElem?_take_of_lt hi, List.getElem?_take_of_lt hi, List.getElem?_drop,
      List.getElem?_drop] at this
    exact this.symm
  refine ⟨s - l, t - l, l + kBlockSize + r, ⟨?_, ?_, ?_, ?_, ?_, ?_⟩, ?_, ?_⟩
  · omega
  · omega
  · omega
  · omega
  · omega
  · apply Agree.append
    · apply hal.append
      rwa [Nat.sub_add_cancel hls, Nat.sub_add_cancel hlt]
    · rwa [← Nat.add_assoc, ← Nat.add_assoc, Nat.sub_add_cancel hls, Nat.sub_add_cancel hlt]
  · congr 1
    · omega
    · omega
    · omega
  · intro p' q' n' hc
    have hd := hc.diagonal
    have hl := hc.left
    have hr := hc.right
    have hse := hc.sourceEnd
    have hte := hc.targetEnd
    -- the bytes before the block and those behind it were counted
    have hk : s - p' ≤ l := by
      apply (hleft _).mpr
      refine ⟨by omega, by omega, by omega, ?_⟩
      rw [show s - (s - p') = p' by omega, show t - (s - p') = q' by omega]
      exact hc.agree.mid 0 (by omega)
    have hk' : p' + n' - (s + kBlockSize) ≤ r := by
      apply (hright _).mpr
      refine ⟨by omega, by omega, by omega, ?_⟩
      have := hc.agree.mid (s + kBlockSize - p') (m := p' + n' - (s + kBlockSize)) (by omega)
      rwa [show p' + (s + kBlockSize - p') = s + kBlockSize by omega,
        show q' + (s + kBlockSize - p') = t + kBlockSize by omega] at this
    omega

/-! ## The best match -/

theorem le_replaceIfBetterMatch (best : Match) (n : ℕ) (source target : ℤ) :
    best.size ≤ (best.replaceIfBetterMatch n source target).size ∧
      n ≤ (best.replaceIfBetterMatch n source target).size := by
  unfold Match.replaceIfBetterMatch
  split
  · next hlt => exact ⟨Nat.le_of_lt hlt, Nat.le_refl n⟩
  · next hge => exact ⟨Nat.le_refl _, Nat.not_lt.mp hge⟩

/-- What `FindBestMatch` leaves: the match it was given or that of a block. -/
def FromBlock (h : BlockHash) (hs : List UInt32) (i t : ℕ) (target : List UInt8)
    (best m : Match) : Prop :=
  m = best ∨ ∃ b ∈ bucket h hs i, ∃ p q n,
    Covers h.sourceData (b * kBlockSize) target t p q n ∧
      m = ⟨n, (p + h.startingOffset : ℕ), q⟩

variable {hs : List UInt32} {v : UInt32} {best : Match}

theorem Holds.block_le (hh : Holds h hs) {i : ℕ} (hb : b ∈ bucket h hs i) :
    b * kBlockSize + kBlockSize ≤ h.sourceData.length := by
  have hlt := (mem_bucket.mp hb).1
  have hroom := hh.room
  unfold getNumberOfBlocks kBlockSize at *
  omega

/-- One round of the loop. -/
theorem Holds.fromBlock_extendMatch (hh : Holds h hs) {i : ℕ} (ht : t + kBlockSize ≤ target.length)
    (hb : b ∈ bucket h hs i) (hm : h.matchesBlock (target.drop t) b = true) {m : Match}
    (hfrom : FromBlock h hs i t target best m ∧ best.size ≤ m.size) :
    FromBlock h hs i t target best (h.extendMatch t target b m) ∧
      best.size ≤ (h.extendMatch t target b m).size := by
  obtain ⟨p, q, n, hc, heq, -⟩ := extendMatch_spec (hh.block_le hb) ht hm m
  rw [heq]
  refine ⟨?_, hfrom.2.trans (le_replaceIfBetterMatch m n _ _).1⟩
  unfold Match.replaceIfBetterMatch
  split
  · exact .inr ⟨b, hb, p, q, n, hc, rfl⟩
  · exact hfrom.1

theorem Holds.fromBlock_checkMatches (hh : Holds h hs) {i : ℕ} (hi : i < h.hashTable.length)
    (ht : t + kBlockSize ≤ target.length) (checks : ℕ) {start : Option ℕ}
    (hstart : ∀ b ∈ start, b ∈ bucket h hs i ∧ h.matchesBlock (target.drop t) b = true)
    {m : Match} (hfrom : FromBlock h hs i t target best m ∧ best.size ≤ m.size) :
    FromBlock h hs i t target best (h.checkMatches t target checks start m) ∧
      best.size ≤ (h.checkMatches t target checks start m).size := by
  induction checks generalizing start m with
  | zero => cases start <;> exact hfrom
  | succ checks ih =>
    cases start with
    | none => exact hfrom
    | some b =>
      obtain ⟨hb, hm⟩ := hstart b rfl
      apply ih
      · intro b' hb'
        exact hh.of_nextMatchingBlock hi hb hb'
      · exact hh.fromBlock_extendMatch ht hb hm hfrom

/-- `FindBestMatch` returns the match of a block, or the one it was given if there is no longer
one. -/
theorem Holds.fromBlock_findBestMatch (hh : Holds h hs) (ht : t + kBlockSize ≤ target.length)
    (v : UInt32) (best : Match) :
    FromBlock h hs (h.getHashTableIndex v) t target best (h.findBestMatch v t target best) ∧
      best.size ≤ (h.findBestMatch v t target best).size := by
  apply hh.fromBlock_checkMatches (getHashTableIndex_lt hh.mask v) ht
  · intro b hb
    exact hh.of_firstMatchingBlock hb
  · exact ⟨.inl rfl, Nat.le_refl _⟩

/-- In a short chain the loop comes to each block that is the same as the candidate. -/
theorem Holds.checkMatches_eq (hh : Holds h hs) {i : ℕ} (hi : i < h.hashTable.length)
    (hshort : (bucket h hs i).length ≤ kMaxProbes + 1) {l l' : List ℕ}
    (hl : bucket h hs i = l' ++ l) {checks : ℕ} (hchecks : l.length ≤ checks) (m : Match) :
    h.checkMatches t target checks (l.find? (h.matchesBlock (target.drop t))) m =
      (l.filter (h.matchesBlock (target.drop t))).foldl
        (fun m b => h.extendMatch t target b m) m := by
  induction l generalizing l' checks m with
  | nil =>
    cases checks <;> rfl
  | cons b l ih =>
    have hl' : bucket h hs i = (l' ++ [b]) ++ l := by
      rw [hl, List.append_assoc]
      rfl
    by_cases hm : h.matchesBlock (target.drop t) b = true
    · obtain ⟨checks, rfl⟩ : ∃ n, checks = n + 1 := ⟨checks - 1, by
        rw [List.length_cons] at hchecks
        omega⟩
      have htake : l.take (kMaxProbes + 1) = l := by
        apply List.take_of_length_le
        rw [hl', List.length_append] at hshort
        omega
      rw [List.find?_cons_of_pos hm, List.filter_cons_of_pos hm, List.foldl_cons, checkMatches,
        hh.nextMatchingBlock_eq hi hl, htake]
      exact ih hl' (Nat.le_of_succ_le_succ hchecks) _
    · rw [List.find?_cons_of_neg hm, List.filter_cons_of_neg hm]
      exact ih hl' (Nat.le_of_succ_le hchecks) m

theorem Holds.findBestMatch_eq (hh : Holds h hs)
    (hshort : (bucket h hs (h.getHashTableIndex v)).length ≤ kMaxProbes + 1) :
    h.findBestMatch v t target best =
      ((bucket h hs (h.getHashTableIndex v)).filter (h.matchesBlock (target.drop t))).foldl
        (fun m b => h.extendMatch t target b m) best := by
  rw [findBestMatch, hh.firstMatchingBlock_eq, List.take_of_length_le hshort]
  apply hh.checkMatches_eq (getHashTableIndex_lt hh.mask v) hshort (List.nil_append _).symm
  exact hshort.trans (by decide)

/-- A match stays the best one or a longer one takes its place. -/
theorem le_foldl_extendMatch (ht : t + kBlockSize ≤ target.length) {l : List ℕ}
    (hl : ∀ b ∈ l, b * kBlockSize + kBlockSize ≤ h.sourceData.length ∧
      h.matchesBlock (target.drop t) b = true) (m : Match) :
    m.size ≤ (l.foldl (fun m b => h.extendMatch t target b m) m).size ∧
      ∀ b ∈ l, ∀ p q n, Covers h.sourceData (b * kBlockSize) target t p q n →
        n ≤ (l.foldl (fun m b => h.extendMatch t target b m) m).size := by
  induction l generalizing m with
  | nil => exact ⟨Nat.le_refl _, fun b hb => absurd hb List.not_mem_nil⟩
  | cons b l ih =>
    obtain ⟨⟨hs, hm⟩, hl⟩ := List.forall_mem_cons.mp hl
    obtain ⟨p, q, n, -, heq, hmax⟩ := extendMatch_spec hs ht hm m
    obtain ⟨hgrow, hmem⟩ := ih hl (h.extendMatch t target b m)
    obtain ⟨hold, hnew⟩ := le_replaceIfBetterMatch m n ((p + h.startingOffset : ℕ) : ℤ) q
    rw [← heq] at hold hnew
    rw [List.foldl_cons]
    refine ⟨hold.trans hgrow, List.forall_mem_cons.mpr ⟨?_, hmem⟩⟩
    intro p' q' n' hc
    exact (hmax p' q' n' hc).trans (hnew.trans hgrow)

/-- Of a short chain `FindBestMatch` returns the longest match. -/
theorem Holds.le_findBestMatch (hh : Holds h hs) (ht : t + kBlockSize ≤ target.length)
    (hshort : (bucket h hs (h.getHashTableIndex v)).length ≤ kMaxProbes + 1)
    (hb : b ∈ bucket h hs (h.getHashTableIndex v))
    (hc : Covers h.sourceData (b * kBlockSize) target t p q n) (best : Match) :
    n ≤ (h.findBestMatch v t target best).size := by
  have hm : h.matchesBlock (target.drop t) b = true := matchesBlock_iff.mpr hc.block
  rw [hh.findBestMatch_eq hshort]
  refine (le_foldl_extendMatch ht ?_ best).2 b (List.mem_filter.mpr ⟨hb, hm⟩) p q n hc
  intro b hb
  obtain ⟨hb, hm⟩ := List.mem_filter.mp hb
  exact ⟨hh.block_le hb, hm⟩

end BlockHash

end OpenVcdiff
