import NodeVcdiff.OpenVcdiff.Varint

/-!
# `addrcache.cc`

The addresses of COPY instructions are written relative to the start, to the current position
or to addresses that were used before. Writer and reader keep the same cache of those. A
`VCDAddress` is a signed 32-bit integer; no sum formed here that exceeds it is used as an address.
-/

namespace OpenVcdiff

open Incremental (Parsed Parser)

/-- `VCD_SELF_MODE`. -/
def VCD_SELF_MODE : ℕ := 0

/-- `VCD_HERE_MODE`. -/
def VCD_HERE_MODE : ℕ := 1

/-- `VCD_FIRST_NEAR_MODE`. -/
def VCD_FIRST_NEAR_MODE : ℕ := 2

/-- `VCD_MAX_MODES`. -/
def VCD_MAX_MODES : ℕ := 256

/-- `VCDiffAddressCache`. -/
structure AddressCache where
  nearCacheSize : ℕ
  sameCacheSize : ℕ
  nextSlot : ℕ
  nearAddresses : List ℤ
  sameAddresses : List ℤ
  deriving DecidableEq, Repr

namespace AddressCache

/-- The constructor with cache sizes. -/
def new (nearCacheSize sameCacheSize : ℕ) : AddressCache :=
  ⟨nearCacheSize, sameCacheSize, 0, [], []⟩

/-- The constructor without arguments. -/
def default : AddressCache := new 4 3

/-- `DefaultLastMode`. -/
def defaultLastMode : ℕ := VCD_FIRST_NEAR_MODE + 4 + 3 - 1

variable (c : AddressCache)

/-- `Init`. -/
def init : Option AddressCache :=
  if c.nearCacheSize > VCD_MAX_MODES - 2 then none
  else if c.sameCacheSize > VCD_MAX_MODES - 2 then none
  else if c.nearCacheSize + c.sameCacheSize > VCD_MAX_MODES - 2 then none
  else some
    { c with
      nextSlot := 0
      nearAddresses :=
        if c.nearCacheSize > 0 then .replicate c.nearCacheSize 0 else c.nearAddresses
      sameAddresses :=
        if c.sameCacheSize > 0 then .replicate (c.sameCacheSize * 256) 0 else c.sameAddresses }

/-- `FirstSameMode`, an `unsigned char`. -/
def firstSameMode : ℕ := (VCD_FIRST_NEAR_MODE + c.nearCacheSize) % 256

/-- `LastMode`, an `unsigned char`. -/
def lastMode : ℕ := ((c.firstSameMode + c.sameCacheSize - 1 : ℤ) % 256).toNat

/-- `IsNearMode`. -/
def isNearMode (mode : ℕ) : Bool := decide (VCD_FIRST_NEAR_MODE ≤ mode ∧ mode < c.firstSameMode)

/-- `IsSameMode`. -/
def isSameMode (mode : ℕ) : Bool := decide (c.firstSameMode ≤ mode ∧ mode ≤ c.lastMode)

/-- `WriteAddressAsVarintForMode`. -/
def writeAddressAsVarintForMode (mode : ℕ) : Bool := !c.isSameMode mode

/-- `NearAddress`. The source does not check the index. -/
def nearAddress (pos : ℕ) : ℤ := c.nearAddresses.getD pos 0

/-- `SameAddress`. The source does not check the index. -/
def sameAddress (pos : ℕ) : ℤ := c.sameAddresses.getD pos 0

/-- `DecodeNearAddress`. -/
def decodeNearAddress (mode encodedAddress : ℕ) : ℤ :=
  c.nearAddress (mode - VCD_FIRST_NEAR_MODE) + encodedAddress

/-- `DecodeSameAddress`. -/
def decodeSameAddress (mode : ℕ) (encodedAddress : UInt8) : ℤ :=
  c.sameAddress ((mode - c.firstSameMode) * 256 + encodedAddress.toNat)

/-- `UpdateCache`. -/
def updateCache (address : ℤ) : AddressCache :=
  { c with
    nearAddresses :=
      if c.nearCacheSize > 0 then c.nearAddresses.set c.nextSlot address else c.nearAddresses
    nextSlot := if c.nearCacheSize > 0 then (c.nextSlot + 1) % c.nearCacheSize else c.nextSlot
    sameAddresses :=
      if c.sameCacheSize > 0 then
        c.sameAddresses.set (address % (c.sameCacheSize * 256)).toNat address
      else c.sameAddresses }

/-- One round of the loop over the NEAR cache in `EncodeAddress`: the best mode so far and the
address in that mode. -/
def tryNear (address : ℤ) (best : ℕ × ℤ) (i : ℕ) : ℕ × ℤ :=
  let nearEncodedAddress := address - c.nearAddress i
  if 0 ≤ nearEncodedAddress ∧ nearEncodedAddress < best.2 then
    ((VCD_FIRST_NEAR_MODE + i) % 256, nearEncodedAddress)
  else best

/-- SELF mode, or HERE mode where that is shorter. -/
def trySelfHere (address here : ℤ) : ℕ × ℤ :=
  if here - address < address then (VCD_HERE_MODE, here - address) else (VCD_SELF_MODE, address)

/-- `EncodeAddress`: the mode, the encoded address and the cache afterwards. -/
def encodeAddress (address here : ℤ) : ℕ × ℤ × AddressCache :=
  if address < 0 then (0, 0, c)
  else if address ≥ here then (0, 0, c)
  else
    let sameCachePos := (address % (c.sameCacheSize * 256)).toNat
    if c.sameCacheSize > 0 ∧ c.sameAddress sameCachePos = address then
      ((c.firstSameMode + sameCachePos / 256) % 256, ((sameCachePos % 256 : ℕ) : ℤ),
        c.updateCache address)
    else
      let best := (List.range c.nearCacheSize).foldl (c.tryNear address) (trySelfHere address here)
      (best.1, best.2, c.updateCache address)

/-- The encoded address as `VCDiffCodeTableWriter::Copy` appends it. -/
def addressBytes (mode : ℕ) (encodedAddress : ℤ) : List UInt8 :=
  if c.writeAddressAsVarintForMode mode then VarintBE.encode .int32 encodedAddress
  else [UInt8.ofNat encodedAddress.toNat]

/-- An address read as a byte in a SAME mode, as an integer in the other modes. -/
def readAddress (here : ℤ) (mode : ℕ) : Parser UInt8 ℤ :=
  if c.isSameMode mode then do
    let encodedAddress ← Parser.next
    return c.decodeSameAddress mode encodedAddress
  else do
    let encodedAddress ← VarintBE.parse .int32
    if mode = VCD_SELF_MODE then return encodedAddress
    else if mode = VCD_HERE_MODE then return here - encodedAddress
    else if c.isNearMode mode then return c.decodeNearAddress mode encodedAddress
    else Parser.fail

/-- `DecodeAddress`: the address and the cache afterwards. -/
def decodeAddress (here : ℤ) (mode : ℕ) : Parser UInt8 (ℤ × AddressCache) :=
  if here < 0 then Parser.fail
  else do
    let decodedAddress ← c.readAddress here mode
    Parser.check (0 ≤ decodedAddress ∧ decodedAddress < here)
    return (decodedAddress, c.updateCache decodedAddress)

/-! ## Modes -/

/-- The cache sizes that `Init` accepts and for which the first SAME mode is a byte. -/
def Fits : Prop := c.nearCacheSize + c.sameCacheSize ≤ 254 ∧ c.nearCacheSize ≤ 253

/-- The caches are as large as they were declared. -/
structure WellFormed : Prop where
  near : c.nearAddresses.length = c.nearCacheSize
  same : c.sameAddresses.length = c.sameCacheSize * 256
  slot : c.nextSlot < c.nearCacheSize ∨ c.nearCacheSize = 0

variable {c}

theorem Fits.firstSameMode_eq (h : c.Fits) : c.firstSameMode = 2 + c.nearCacheSize := by
  unfold Fits at h
  unfold firstSameMode VCD_FIRST_NEAR_MODE
  omega

theorem Fits.lastMode_eq (h : c.Fits) : c.lastMode = 1 + c.nearCacheSize + c.sameCacheSize := by
  rw [lastMode, h.firstSameMode_eq]
  unfold Fits at h
  omega

theorem Fits.isSameMode_iff (h : c.Fits) (mode : ℕ) : c.isSameMode mode = true ↔
    2 + c.nearCacheSize ≤ mode ∧ mode < 2 + c.nearCacheSize + c.sameCacheSize := by
  rw [isSameMode, decide_eq_true_iff, lastMode, h.firstSameMode_eq]
  unfold Fits at h
  omega

theorem Fits.isNearMode_iff (h : c.Fits) (mode : ℕ) :
    c.isNearMode mode = true ↔ 2 ≤ mode ∧ mode < 2 + c.nearCacheSize := by
  rw [isNearMode, decide_eq_true_iff, h.firstSameMode_eq]
  rfl

/-! ## The caches -/

@[simp] theorem updateCache_nearCacheSize (address : ℤ) :
    (c.updateCache address).nearCacheSize = c.nearCacheSize := rfl

@[simp] theorem updateCache_sameCacheSize (address : ℤ) :
    (c.updateCache address).sameCacheSize = c.sameCacheSize := rfl

theorem Fits.updateCache (h : c.Fits) (address : ℤ) : (c.updateCache address).Fits := h

theorem WellFormed.updateCache (h : c.WellFormed) (address : ℤ) :
    (c.updateCache address).WellFormed where
  near := by
    show (if c.nearCacheSize > 0 then _ else _ : List ℤ).length = _
    split
    · rw [List.length_set]; exact h.near
    · exact h.near
  same := by
    show (if c.sameCacheSize > 0 then _ else _ : List ℤ).length = _
    split
    · rw [List.length_set]; exact h.same
    · exact h.same
  slot := by
    by_cases hn : c.nearCacheSize = 0
    · exact .inr hn
    · refine .inl ?_
      show (if c.nearCacheSize > 0 then _ else _) < c.nearCacheSize
      rw [if_pos (by omega)]
      exact Nat.mod_lt _ (by omega)

/-- A cache that `Init` accepted has its sizes, and it does not matter what it was used for
before. -/
theorem init_eq_some {c' : AddressCache} (h : c.init = some c')
    (hn : c.nearCacheSize = 0 → c.nearAddresses = [])
    (hs : c.sameCacheSize = 0 → c.sameAddresses = []) :
    c' = ⟨c.nearCacheSize, c.sameCacheSize, 0, .replicate c.nearCacheSize 0,
      .replicate (c.sameCacheSize * 256) 0⟩ ∧ c.nearCacheSize + c.sameCacheSize ≤ 254 := by
  unfold init VCD_MAX_MODES at h
  split at h
  · cases h
  split at h
  · cases h
  split at h
  · cases h
  · next hsum =>
    refine ⟨?_, by omega⟩
    rw [← Option.some.inj h]
    congr 1
    · by_cases h0 : c.nearCacheSize = 0
      · rw [if_neg (by omega), hn h0, h0]
        rfl
      · rw [if_pos (by omega)]
    · by_cases h0 : c.sameCacheSize = 0
      · rw [if_neg (by omega), hs h0, h0]
        rfl
      · rw [if_pos (by omega)]

/-- `Init` undoes what the cache has seen. -/
theorem init_updateCache (address : ℤ) : (c.updateCache address).init = c.init := by
  unfold init updateCache
  simp only
  split
  · rfl
  split
  · rfl
  split
  · rfl
  congr 2
  · by_cases h : c.nearCacheSize > 0
    · rw [if_pos h, if_pos h]
    · rw [if_neg h, if_neg h, if_neg h]
  · by_cases h : c.sameCacheSize > 0
    · rw [if_pos h, if_pos h]
    · rw [if_neg h, if_neg h, if_neg h]

theorem wellFormed_init {c' : AddressCache} (h : c.init = some c')
    (hn : c.nearCacheSize = 0 → c.nearAddresses = [])
    (hs : c.sameCacheSize = 0 → c.sameAddresses = []) : c'.WellFormed := by
  rw [(init_eq_some h hn hs).1]
  refine ⟨List.length_replicate, List.length_replicate, ?_⟩
  show 0 < c.nearCacheSize ∨ c.nearCacheSize = 0
  omega

theorem WellFormed.nil_of_near (h : c.WellFormed) (h0 : c.nearCacheSize = 0) :
    c.nearAddresses = [] := List.eq_nil_of_length_eq_zero (h.near.trans h0)

theorem WellFormed.nil_of_same (h : c.WellFormed) (h0 : c.sameCacheSize = 0) :
    c.sameAddresses = [] := List.eq_nil_of_length_eq_zero (h.same.trans (by rw [h0]))

/-! ## Encoding an address -/

/-- The address that an integer stands for in the modes that are followed by one. -/
inductive Denotes (c : AddressCache) (here : ℤ) : ℕ → ℤ → ℤ → Prop
  | self (e : ℤ) : Denotes c here VCD_SELF_MODE e e
  | here (e : ℤ) : Denotes c here VCD_HERE_MODE e (here - e)
  | near (i : ℕ) (e : ℤ) : i < c.nearCacheSize →
      Denotes c here (VCD_FIRST_NEAR_MODE + i) e (c.nearAddress i + e)

/-- SELF mode and the better of it and HERE mode. -/
theorem trySelfHere_spec {address here : ℤ} (h0 : 0 ≤ address) (h1 : address < here) :
    Denotes c here (trySelfHere address here).1 (trySelfHere address here).2 address ∧
      0 ≤ (trySelfHere address here).2 ∧ (trySelfHere address here).2 ≤ address ∧
      (trySelfHere address here).2 ≤ here - address := by
  unfold trySelfHere
  split
  · next hlt =>
    have hd : Denotes c here VCD_HERE_MODE (here - address) (here - (here - address)) := .here _
    rw [Int.sub_sub_self] at hd
    exact ⟨hd, by show 0 ≤ here - address; omega, Int.le_of_lt hlt, Int.le_refl _⟩
  · next hge => exact ⟨.self address, h0, Int.le_refl _, by show address ≤ here - address; omega⟩

/-- The loop over the first `n` entries of the NEAR cache finds the shortest encoding. -/
theorem tryNear_fold (hf : c.Fits) {address here : ℤ} (h0 : 0 ≤ address)
    (h1 : address < here) (n : ℕ) (hn : n ≤ c.nearCacheSize) :
    let best := (List.range n).foldl (c.tryNear address) (trySelfHere address here)
    Denotes c here best.1 best.2 address ∧ 0 ≤ best.2 ∧ best.2 ≤ address ∧
      best.2 ≤ here - address ∧
      ∀ i < n, 0 ≤ address - c.nearAddress i → best.2 ≤ address - c.nearAddress i := by
  induction n with
  | zero =>
    obtain ⟨hd, hpos, hself, hhere⟩ := trySelfHere_spec (c := c) h0 h1
    exact ⟨hd, hpos, hself, hhere, fun i hi => absurd hi (Nat.not_lt_zero i)⟩
  | succ n ih =>
    obtain ⟨hd, hpos, hself, hhere, hnear⟩ := ih (by omega)
    simp only [List.range_succ, List.foldl_append, List.foldl_cons, List.foldl_nil]
    generalize (List.range n).foldl (c.tryNear address) (trySelfHere address here) = best at *
    by_cases hbetter : 0 ≤ address - c.nearAddress n ∧ address - c.nearAddress n < best.2
    · have htry : c.tryNear address best n =
          ((VCD_FIRST_NEAR_MODE + n) % 256, address - c.nearAddress n) := if_pos hbetter
      have hmode : (VCD_FIRST_NEAR_MODE + n) % 256 = VCD_FIRST_NEAR_MODE + n := by
        have := hf.2
        unfold VCD_FIRST_NEAR_MODE
        omega
      have hden : Denotes c here (VCD_FIRST_NEAR_MODE + n) (address - c.nearAddress n)
          (c.nearAddress n + (address - c.nearAddress n)) := .near n _ (by omega)
      rw [Int.add_comm, Int.sub_add_cancel] at hden
      rw [htry, hmode]
      refine ⟨hden, hbetter.1, by omega, by omega, fun i hi hi0 => ?_⟩
      by_cases hin : i = n
      · rw [hin]
      · have := hnear i (by omega) hi0
        omega
    · have htry : c.tryNear address best n = best := if_neg hbetter
      rw [htry]
      refine ⟨hd, hpos, hself, hhere, fun i hi hi0 => ?_⟩
      by_cases hin : i = n
      · subst hin
        omega
      · exact hnear i (by omega) hi0

/-- What `EncodeAddress` chooses: a SAME mode where the address is in that cache, else the
smallest integer that stands for the address in some other mode. -/
theorem encodeAddress_spec (hf : c.Fits) {address here : ℤ} (h0 : 0 ≤ address)
    (h1 : address < here) : ∃ mode e, c.encodeAddress address here =
      (mode, e, c.updateCache address) ∧
      ((∃ pos, pos < c.sameCacheSize * 256 ∧ c.sameAddress pos = address ∧
          mode = 2 + c.nearCacheSize + pos / 256 ∧ e = ((pos % 256 : ℕ) : ℤ)) ∨
        (Denotes c here mode e address ∧ 0 ≤ e ∧ e ≤ address ∧
          ∀ mode' e', 0 ≤ e' → Denotes c here mode' e' address → e ≤ e')) := by
  unfold encodeAddress
  rw [if_neg (by omega), if_neg (by omega)]
  set pos := (address % (c.sameCacheSize * 256)).toNat with hpos
  by_cases hsame : c.sameCacheSize > 0 ∧ c.sameAddress pos = address
  · have hlt : pos < c.sameCacheSize * 256 := by
      have hb : (0 : ℤ) < c.sameCacheSize * 256 := by have := hsame.1; omega
      have := Int.emod_lt_of_pos address hb
      have := Int.emod_nonneg address (Int.ne_of_gt hb)
      omega
    rw [if_pos hsame]
    refine ⟨_, _, rfl, .inl ⟨pos, hlt, hsame.2, ?_, rfl⟩⟩
    have := hf.1
    rw [hf.firstSameMode_eq]
    omega
  · rw [if_neg hsame]
    obtain ⟨hd, hnn, hself, hhere, hnear⟩ := tryNear_fold hf h0 h1 _ (Nat.le_refl c.nearCacheSize)
    refine ⟨_, _, rfl, .inr ⟨hd, hnn, hself, fun mode' e' he' hden => ?_⟩⟩
    generalize (List.range c.nearCacheSize).foldl (c.tryNear address)
      (trySelfHere address here) = best at *
    cases hden with
    | self _ => exact hself
    | here _ => omega
    | near i _ hi => exact Int.le_trans (hnear i hi (by omega)) (by omega)

/-- The mode that `EncodeAddress` returns is one of the modes. -/
theorem encodeAddress_mode_le (hf : c.Fits) (address here : ℤ) :
    (c.encodeAddress address here).1 ≤ c.lastMode := by
  rw [hf.lastMode_eq]
  by_cases hvalid : 0 ≤ address ∧ address < here
  · obtain ⟨mode, e, heq, ⟨pos, hpos, -, rfl, -⟩ | ⟨hd, -⟩⟩ := encodeAddress_spec hf hvalid.1 hvalid.2
    · rw [heq]
      show 2 + c.nearCacheSize + pos / 256 ≤ _
      omega
    · rw [heq]
      show mode ≤ _
      cases hd with
      | self _ => exact Nat.zero_le _
      | here _ => show 1 ≤ _; omega
      | near i _ hi => show 2 + i ≤ _; omega
  · have hzero : (c.encodeAddress address here).1 = 0 := by
      unfold encodeAddress
      by_cases h0 : address < 0
      · rw [if_pos h0]
      · rw [if_neg h0, if_pos (by omega)]
    rw [hzero]
    exact Nat.zero_le _

/-- Only the address is put into the cache. -/
theorem encodeAddress_cache (address here : ℤ) : (c.encodeAddress address here).2.2 = c ∨
    (c.encodeAddress address here).2.2 = c.updateCache address := by
  unfold encodeAddress
  split
  · exact .inl rfl
  split
  · exact .inl rfl
  simp only
  split
  · exact .inr rfl
  · exact .inr rfl

/-! ## Reading an address -/

theorem stable_readAddress (here : ℤ) (mode : ℕ) : (c.readAddress here mode).Stable := by
  unfold readAddress
  apply Parser.Stable.ite
  · exact Parser.stable_next.bind fun _ => Parser.stable_pure _
  · refine VarintBE.stable_parse.bind fun _ => ?_
    exact (Parser.stable_pure _).ite ((Parser.stable_pure _).ite
      ((Parser.stable_pure _).ite Parser.stable_fail))

theorem stable_decodeAddress (here : ℤ) (mode : ℕ) : (c.decodeAddress here mode).Stable := by
  unfold decodeAddress
  apply Parser.Stable.ite
  · exact Parser.stable_fail
  · exact (stable_readAddress here mode).bind fun _ =>
      (Parser.stable_check _).bind fun _ => Parser.stable_pure _

theorem leaves_readAddress (here : ℤ) (mode : ℕ) : (c.readAddress here mode).Leaves := by
  unfold readAddress
  apply Parser.Leaves.ite
  · exact Parser.leaves_next.bind fun _ => Parser.leaves_pure _
  · refine VarintBE.leaves_parse.bind fun _ => ?_
    exact (Parser.leaves_pure _).ite ((Parser.leaves_pure _).ite
      ((Parser.leaves_pure _).ite Parser.leaves_fail))

theorem leaves_decodeAddress (here : ℤ) (mode : ℕ) : (c.decodeAddress here mode).Leaves := by
  unfold decodeAddress
  apply Parser.Leaves.ite
  · exact Parser.leaves_fail
  · exact (leaves_readAddress here mode).bind fun _ =>
      (Parser.leaves_check _).bind fun _ => Parser.leaves_pure _

/-- An address that is read lies before the current position, and the cache has it afterwards. -/
theorem decodeAddress_success {here : ℤ} {mode : ℕ} {d rest : List UInt8} {a : ℤ}
    {c' : AddressCache} (h : c.decodeAddress here mode d = .success (a, c') rest) :
    0 ≤ a ∧ a < here ∧ c' = c.updateCache a ∧ c.readAddress here mode d = .success a rest := by
  unfold decodeAddress at h
  split at h
  · cases h
  rw [Parser.bind_apply] at h
  cases hr : c.readAddress here mode d with
  | error => rw [hr] at h; cases h
  | endOfData => rw [hr] at h; cases h
  | success b mid =>
    rw [hr, Parsed.bind_success, Parser.check] at h
    split at h
    · next hb =>
      cases h
      exact ⟨hb.1, hb.2, rfl, rfl⟩
    · cases h

theorem reads_of_denotes (hf : c.Fits) {here e a : ℤ} {mode : ℕ} (hd : Denotes c here mode e a)
    (h0 : 0 ≤ e) (hmax : e ≤ VarintBE.kMaxVal .int32) :
    (c.readAddress here mode).Reads (c.addressBytes mode e) a := by
  have hmode : c.isSameMode mode = false := by
    rw [Bool.eq_false_iff]
    intro hsame
    have := (hf.isSameMode_iff mode).mp hsame
    cases hd with
    | self _ => exact absurd this.1 (by show ¬(_ ≤ 0); omega)
    | here _ => exact absurd this.1 (by show ¬(_ ≤ 1); omega)
    | near i _ hi => exact absurd this.1 (by show ¬(_ ≤ 2 + i); omega)
  obtain ⟨n, rfl⟩ := Int.eq_ofNat_of_zero_le h0
  have hn : n ≤ VarintBE.kMaxVal .int32 := by omega
  unfold addressBytes writeAddressAsVarintForMode readAddress
  rw [hmode]
  simp only [Bool.not_false, if_true, Bool.false_eq_true, if_false]
  rw [← List.append_nil (VarintBE.encode .int32 _)]
  refine (VarintBE.reads_encode hn).bind ?_
  cases hd with
  | self _ => rw [if_pos rfl]; exact Parser.reads_pure _
  | here _ => rw [if_neg (by decide), if_pos rfl]; exact Parser.reads_pure _
  | near i _ hi =>
    have hnear : c.isNearMode (VCD_FIRST_NEAR_MODE + i) = true :=
      (hf.isNearMode_iff _).mpr ⟨Nat.le_add_right 2 i, Nat.add_lt_add_left hi 2⟩
    have hne : ∀ m < 2, ¬VCD_FIRST_NEAR_MODE + i = m := by
      intro m hm heq
      unfold VCD_FIRST_NEAR_MODE at heq
      omega
    rw [if_neg (hne VCD_SELF_MODE (by decide)), if_neg (hne VCD_HERE_MODE (by decide)), if_pos hnear, decodeNearAddress,
      Nat.add_sub_cancel_left]
    exact Parser.reads_pure _

theorem reads_of_same (hf : c.Fits) {here : ℤ} {pos : ℕ} (hpos : pos < c.sameCacheSize * 256) :
    (c.readAddress here (2 + c.nearCacheSize + pos / 256)).Reads
      (c.addressBytes (2 + c.nearCacheSize + pos / 256) ((pos % 256 : ℕ) : ℤ))
      (c.sameAddress pos) := by
  have hmode : c.isSameMode (2 + c.nearCacheSize + pos / 256) = true :=
    (hf.isSameMode_iff _).mpr ⟨by omega, by omega⟩
  unfold addressBytes writeAddressAsVarintForMode readAddress
  rw [hmode]
  simp only [Bool.not_true, Bool.false_eq_true, if_false, if_true, Int.toNat_natCast]
  intro rest
  show Parsed.success (c.decodeSameAddress _ _) _ = _
  rw [decodeSameAddress, hf.firstSameMode_eq, UInt8.toNat_ofNat']
  congr 2
  omega

/-- What was written of an address is read back, and the caches stay the same. -/
theorem reads_encodeAddress (hf : c.Fits) {address here : ℤ} (h0 : 0 ≤ address)
    (h1 : address < here) (hmax : here ≤ VarintBE.kMaxVal .int32) :
    (c.decodeAddress here (c.encodeAddress address here).1).Reads
      (c.addressBytes (c.encodeAddress address here).1 (c.encodeAddress address here).2.1)
      (address, (c.encodeAddress address here).2.2) := by
  obtain ⟨mode, e, heq, hcases⟩ := encodeAddress_spec hf h0 h1
  rw [heq]
  have hread : (c.readAddress here mode).Reads (c.addressBytes mode e) address := by
    obtain ⟨pos, hpos, hval, rfl, rfl⟩ | ⟨hd, hnn, hle, -⟩ := hcases
    · exact hval ▸ reads_of_same hf hpos
    · exact reads_of_denotes hf hd hnn (by omega)
  unfold decodeAddress
  rw [if_neg (by omega), ← List.append_nil (c.addressBytes _ _)]
  exact hread.bind ((Parser.reads_check ⟨h0, h1⟩).bind_nil (Parser.reads_pure _))

/-! ## Sequences of addresses -/

/-- No mode reads outside of the caches. -/
def InBounds (c : AddressCache) : Prop := ∀ mode < VCD_MAX_MODES,
  (c.isNearMode mode = true → mode - VCD_FIRST_NEAR_MODE < c.nearAddresses.length) ∧
  (c.isSameMode mode = true →
    ∀ b : UInt8, (mode - c.firstSameMode) * 256 + b.toNat < c.sameAddresses.length)

theorem WellFormed.inBounds (h : c.WellFormed) (hf : c.Fits) : c.InBounds := by
  intro mode _
  constructor
  · intro hnear
    have := (hf.isNearMode_iff mode).mp hnear
    rw [h.near]
    show mode - 2 < _
    omega
  · intro hsame b
    have := (hf.isSameMode_iff mode).mp hsame
    have := b.toNat_lt
    rw [h.same, hf.firstSameMode_eq]
    omega

theorem foldl_updateCache (as : List ℤ) (h : c.WellFormed) :
    (as.foldl updateCache c).WellFormed ∧
      (as.foldl updateCache c).nearCacheSize = c.nearCacheSize ∧
      (as.foldl updateCache c).sameCacheSize = c.sameCacheSize := by
  induction as generalizing c with
  | nil => exact ⟨h, rfl, rfl⟩
  | cons a as ih => exact ih (h.updateCache a)

/-- Whatever addresses a cache has seen since `Init` accepted its sizes, no mode reads outside of
it, unless it was declared with 254 NEAR entries: then the first SAME mode overflows to 0. -/
theorem inBounds_iff {near same : ℕ} {c : AddressCache} (h : (new near same).init = some c)
    (as : List ℤ) : (as.foldl updateCache c).InBounds ↔ near ≠ 254 := by
  obtain ⟨hc, hsum⟩ := init_eq_some h (fun _ => rfl) (fun _ => rfl)
  have hnear : c.nearCacheSize = near := by rw [hc]; rfl
  have hsame : c.sameCacheSize = same := by rw [hc]; rfl
  have hsum : near + same ≤ 254 := hsum
  obtain ⟨hwf, hn, hs⟩ := foldl_updateCache as (wellFormed_init h (fun _ => rfl) (fun _ => rfl))
  constructor
  · rintro hin rfl
    have h0 : same = 0 := by omega
    -- the mode SELF is taken for a SAME mode, and there is no SAME cache
    have hmode : (as.foldl updateCache c).isSameMode VCD_SELF_MODE = true := by
      rw [isSameMode, lastMode, firstSameMode, hn, hs, hnear, hsame, h0]
      decide
    have hlt := (hin VCD_SELF_MODE (by decide)).2 hmode 0
    rw [hwf.same, hs, hsame, h0] at hlt
    exact absurd hlt (Nat.not_lt_zero _)
  · intro hne
    refine hwf.inBounds ⟨?_, ?_⟩
    · rw [hn, hs, hnear, hsame]
      exact hsum
    · rw [hn, hnear]
      omega

theorem inBounds_iff_default : ∃ c, (new 4 3).init = some c ∧
    (([7, 8].foldl updateCache c).InBounds ↔ 4 ≠ 254) :=
  ⟨_, rfl, inBounds_iff (rfl : (new 4 3).init = some _) [7, 8]⟩

end AddressCache

end OpenVcdiff
