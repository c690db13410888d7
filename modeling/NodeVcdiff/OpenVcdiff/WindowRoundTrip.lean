import NodeVcdiff.OpenVcdiff.WindowHeader

/-!
# A window is decoded to what was encoded

The writer puts a script into a window; the decoder takes the window and appends the target of the
script, in both formats and with or without a checksum.
-/

namespace OpenVcdiff

open Incremental (Parsed Parser)
open SelfCopy (Instruction)

/-! ## How long sections are -/

namespace Sections

variable {s : Sections} {bytes : List UInt8}

theorem length_pushInstructions :
    (s.pushInstructions bytes).length = bytes.length + s.length := by
  cases s with
  | separate i d a =>
    simp only [pushInstructions, setInstructions, instructions, length, List.length_append]
    omega
  | interleaved i => exact List.length_append

theorem length_pushData : (s.pushData bytes).length = bytes.length + s.length := by
  cases s with
  | separate i d a =>
    simp only [pushData, setData, data, length, List.length_append]
    omega
  | interleaved i => exact List.length_append

theorem length_pushAddresses : (s.pushAddresses bytes).length = bytes.length + s.length := by
  cases s with
  | separate i d a =>
    simp only [pushAddresses, setAddresses, addresses, length, List.length_append]
    omega
  | interleaved i => exact List.length_append

end Sections

/-- An instruction takes few more bytes than it appends. -/
structure Piece.Short (p : Piece) : Prop where
  data : p.data.length ≤ p.size
  address : p.address.length ≤ 5

theorem length_addressBytes (c : AddressCache) (mode : ℕ) (e : ℤ) :
    (c.addressBytes mode e).length ≤ 5 := by
  unfold AddressCache.addressBytes
  split
  · exact VarintBE.length_encode_le e
  · exact Nat.le_of_ble_eq_true rfl

theorem short_pieceOf (c : AddressCache) (here : ℤ) {i : Instruction UInt8} (h : 0 < i.size) :
    (pieceOf c here i).1.Short := by
  cases i with
  | add data => exact ⟨Nat.le_refl _, Nat.zero_le _⟩
  | run size byte => exact ⟨h, Nat.zero_le _⟩
  | copy address size => exact ⟨Nat.zero_le _, length_addressBytes _ _ _⟩

theorem length_coded {x : Coded} {e : InstructionMap.Entry} (hf : x.Fits e)
    (hs : x.piece.Short) (s : Sections) : (x.push s).length ≤ x.piece.size + 10 + s.length := by
  have hsize : x.size.length ≤ 5 := by
    rcases hf with ⟨-, h⟩ | ⟨-, h⟩
    · rw [h]
      exact Nat.zero_le _
    · rw [h]
      exact VarintBE.length_encode_le _
  have := hs.data
  have := hs.address
  rw [Coded.push, Sections.length_pushInstructions, Sections.length_pushData,
    Sections.length_pushAddresses]
  omega

/-- The sections take at most eleven bytes more for each instruction. -/
theorem length_layout {t : CodeTableData} {b : Bool} {gs : List Group}
    (hv : ∀ g ∈ gs, g.Valid t) (hs : ∀ p ∈ gs.flatMap Group.pieces, p.Short) :
    (layout b gs).length ≤ ((gs.flatMap Group.pieces).map fun p => p.size + 11).sum := by
  induction gs with
  | nil => cases b <;> exact Nat.zero_le _
  | cons g gs ih =>
    obtain ⟨hg, hgs⟩ := List.forall_mem_cons.mp hv
    rw [List.flatMap_cons] at hs
    obtain ⟨hp, hps⟩ := List.forall_mem_append.mp hs
    have := ih hgs hps
    rw [List.flatMap_cons, List.map_append, List.sum_append]
    show (g.push (layout b gs)).length ≤ _
    cases g with
    | one op x =>
      have hx := hp x.piece (List.mem_singleton.mpr rfl)
      have hlen : (x.push (layout b gs)).length ≤ x.piece.size + 10 + (layout b gs).length := by
        rcases hg with ⟨-, hf⟩ | ⟨-, hf⟩
        · exact length_coded hf hx _
        · exact length_coded hf hx _
      rw [Group.push, Sections.length_pushInstructions, List.length_singleton]
      simp only [Group.pieces, List.map_cons, List.map_nil, List.sum_cons, List.sum_nil]
      omega
    | two op x y =>
      have hx := length_coded hg.2.2.1 (hp x.piece (List.mem_cons_self ..)) (y.push (layout b gs))
      have hy := length_coded hg.2.2.2
        (hp y.piece (List.mem_cons_of_mem _ (List.mem_singleton.mpr rfl))) (layout b gs)
      rw [Group.push, Sections.length_pushInstructions, List.length_singleton]
      simp only [Group.pieces, List.map_cons, List.map_nil, List.sum_cons, List.sum_nil]
      omega

theorem short_piecesOf {is : List (Instruction UInt8)} (h : ∀ i ∈ is, 0 < i.size)
    (c : AddressCache) (n : ℕ) : ∀ p ∈ piecesOf c n is, p.Short := by
  induction is generalizing c n with
  | nil => intro p hp; cases hp
  | cons i is ih =>
    obtain ⟨h0, hpos⟩ := List.forall_mem_cons.mp h
    exact List.forall_mem_cons.mpr ⟨short_pieceOf c _ h0, ih hpos _ _⟩

theorem sum_piecesOf {is : List (Instruction UInt8)} (h : ∀ i ∈ is, 0 < i.size)
    (c : AddressCache) (n : ℕ) :
    ((piecesOf c n is).map fun p => p.size + 11).sum ≤ 12 * (is.map Instruction.size).sum := by
  induction is generalizing c n with
  | nil => exact Nat.le_refl _
  | cons i is ih =>
    obtain ⟨h0, hpos⟩ := List.forall_mem_cons.mp h
    have := ih hpos (pieceOf c (toInt32 n) i).2 (n + i.size)
    rw [piecesOf, List.map_cons, List.map_cons, List.sum_cons, List.sum_cons,
      DecoderState.size_pieceOf]
    omega

/-! ## What is in the sections -/

/-- An instruction that appends something has data or an address. -/
theorem nonempty_pieceOf {c : AddressCache} (hf : c.Fits) {n : ℕ} {i : Instruction UInt8}
    (h : 0 < i.size) {source out out' : List UInt8} (hn : n = source.length + out.length)
    (hmax : n ≤ VarintBE.kMaxVal .int32) (hexec : i.exec source out = some out') :
    0 < (pieceOf c (toInt32 n) i).1.data.length + (pieceOf c (toInt32 n) i).1.address.length := by
  cases i with
  | add data => exact h
  | run size byte => exact Nat.zero_lt_one
  | copy address size =>
    have hlt : address < source.length + out.length := by
      by_contra hge
      rw [Instruction.exec, if_neg hge] at hexec
      cases hexec
    rw [toInt32_of_lt (Nat.lt_succ_of_le hmax)]
    have haddress : (address : ℤ) < n := by omega
    have hread := AddressCache.reads_encodeAddress hf (Int.natCast_nonneg address) haddress (by omega)
    show 0 < 0 + (c.addressBytes _ _).length
    rw [Nat.zero_add, List.length_pos_iff]
    intro hnil
    rw [hnil] at hread
    -- nothing cannot be read as an address
    have hend := hread []
    simp only [List.append_nil] at hend
    obtain ⟨-, -, -, hparse⟩ := AddressCache.decodeAddress_success hend
    rw [AddressCache.readAddress] at hparse
    split at hparse
    · cases hparse
    · cases hparse

theorem nonempty_layout {gs : List Group} {p : Piece} {ps : List Piece}
    (hp : gs.flatMap Group.pieces = p :: ps) (h : 0 < p.data.length + p.address.length) :
    0 < (layout false gs).data.length + (layout false gs).addresses.length := by
  cases gs with
  | nil => cases hp
  | cons g gs =>
    show 0 < (g.push (layout false gs)).data.length + (g.push (layout false gs)).addresses.length
    cases hl : layout false gs with
    | interleaved i =>
      have : (layout false gs).isInterleaved = false := isInterleaved_layout
      rw [hl] at this
      cases this
    | separate i d a =>
      cases g with
      | one op x =>
        obtain ⟨rfl, -⟩ := List.cons.inj hp
        simp only [Group.push, Coded.push_separate, Sections.pushInstructions_separate,
          Sections.data, Sections.addresses, List.length_append]
        omega
      | two op x y =>
        obtain ⟨rfl, -⟩ := List.cons.inj hp
        simp only [Group.push, Coded.push_separate, Sections.pushInstructions_separate,
          Sections.data, Sections.addresses, List.length_append]
        omega

namespace CodeTableWriter

variable {w : CodeTableWriter}

/-- A writer before the first instruction of a window. -/
structure Fresh (w : CodeTableWriter) : Prop where
  instructions : w.instructionsAndSizes = []
  data : w.separateDataForAddAndRun = []
  addresses : w.separateAddressesForCopy = []
  target : w.targetLength = 0
  last : w.lastOpcodeIndex = none
  cache : w.addressCache.init = some w.addressCache

theorem Fresh.written (h : w.Fresh) : w.Written [] := by
  refine ⟨?_, fun _ hg => (List.not_mem_nil hg).elim, .inl h.last⟩
  unfold sections
  rw [h.instructions, h.data, h.addresses]
  cases w.interleaved <;> rfl

/-- An interleaved writer leaves the separate strings empty. -/
def Interleaves (w : CodeTableWriter) : Prop := w.interleaved = true →
  w.separateDataForAddAndRun = [] ∧ w.separateAddressesForCopy = []

theorem Interleaves.put (h : w.Interleaves) (p : Piece) : (w.put p).Interleaves := by
  intro hil
  have hw : w.interleaved = true := by
    obtain ⟨i, d, a, l, hframe⟩ := put_frame w p
    rwa [hframe] at hil
  obtain ⟨i, l, henc⟩ := encodeInstruction_frame w p.inst p.size p.mode
  rw [CodeTableWriter.put, henc]
  unfold appendAddress appendData
  simp only [hw, if_true]
  exact h hw

theorem Interleaves.encode (h : w.Interleaves) (hr : w.Ready) (i : Instruction UInt8) :
    (w.encode i).Interleaves := by
  rw [encode_eq hr i rfl]
  generalize pieceOf w.addressCache _ i = r
  exact Interleaves.put (w := w.withCache r.2) h r.1

theorem Interleaves.encodeAll (h : w.Interleaves) (hr : w.Ready)
    (is : List (Instruction UInt8)) : (is.foldl CodeTableWriter.encode w).Interleaves := by
  induction is generalizing w with
  | nil => exact h
  | cons i is ih => exact ih (h.encode hr i) (hr.encode i)

/-- What a fresh writer has written of a script. -/
structure Wrote (w : CodeTableWriter) (is : List (Instruction UInt8)) (w' : CodeTableWriter)
    (gs : List Group) : Prop where
  written : w'.Written gs
  pieces : gs.flatMap Group.pieces = piecesOf w.addressCache w.dictionarySize is
  settings : SameSettings w w'
  cache : w'.addressCache.init = w.addressCache.init
  target : w'.targetLength = (is.map Instruction.size).sum
  interleaves : w'.Interleaves
  ready : w'.Ready

theorem Fresh.wrote (h : w.Fresh) (hr : w.Ready) (is : List (Instruction UInt8)) :
    ∃ gs, Wrote w is (is.foldl encode w) gs := by
  obtain ⟨gs, hw, hpieces, hready, hs, hcache, hlen⟩ := h.written.encodeAll hr is
  have hil : w.Interleaves := fun _ => ⟨h.data, h.addresses⟩
  refine ⟨gs, hw, ?_, hs, hcache, ?_, hil.encodeAll hr is, hready⟩
  · rw [hpieces, h.target]
    rfl
  · rw [hlen, h.target, Nat.zero_add]

section Wrote

variable {w' : CodeTableWriter} {is : List (Instruction UInt8)} {gs : List Group}

theorem Wrote.valid (h : Wrote w is w' gs) : ∀ g ∈ gs, g.Valid w.codeTableData := by
  obtain ⟨_, _, _, _, _, _, hs⟩ := h.settings
  have := h.written.valid
  rwa [hs] at this

theorem Wrote.length_sections (h : Wrote w is w' gs) : w'.sections.length = w'.body.length := by
  unfold body CodeTableWriter.sections
  simp only [List.length_append]
  split
  · next hil =>
    obtain ⟨hd, ha⟩ := h.interleaves hil
    rw [hd, ha]
    simp only [List.length_nil, Sections.length]
    omega
  · simp only [Sections.length]
    omega

/-- The sections are not much longer than the target. -/
theorem Wrote.length_body (h : Wrote w is w' gs) (hpos : ∀ i ∈ is, 0 < i.size) :
    w'.body.length ≤ 12 * (is.map Instruction.size).sum := by
  have hlen := length_layout (b := w'.interleaved) h.valid
    (h.pieces ▸ short_piecesOf hpos w.addressCache w.dictionarySize)
  rw [h.pieces, ← h.written.sections] at hlen
  rw [← h.length_sections]
  exact Nat.le_trans hlen (sum_piecesOf hpos _ _)

theorem length_encodingHeader (w : CodeTableWriter) : w.encodingHeader.length ≤ 30 := by
  have hsize : ∀ n, (sizeBytes n).length ≤ 5 := fun n => VarintBE.length_encode_le _
  have hcheck : w.checksumBytes.length ≤ 9 := by
    unfold checksumBytes
    split
    · exact VarintBE.length_encode_le _
    · exact Nat.zero_le _
  have h1 := hsize w.targetLength
  have h2 := hsize w.separateDataForAddAndRun.length
  have h3 := hsize w.instructionsAndSizes.length
  have h4 := hsize w.separateAddressesForCopy.length
  simp only [encodingHeader, List.length_append, List.length_singleton]
  omega

/-- After a window the writer is what it was before. -/
theorem Wrote.output (h : Wrote w is w' gs) (hf : w.Fresh) (hne : w'.instructionsAndSizes ≠ []) :
    w'.output.2 = w := by
  have hcache := h.cache.trans hf.cache
  have hmap := h.ready.map
  unfold CodeTableWriter.output
  rw [if_neg hne]
  unfold init
  simp only [hcache, hmap, Option.getD_some]
  obtain ⟨i, d, a, c, n, l, rfl⟩ := h.settings
  obtain ⟨h1, h2, h3, h4, h5, -⟩ := hf
  cases w
  simp only at h1 h2 h3 h4 h5 hmap
  subst h1 h2 h3 h4 h5 hmap
  rfl

theorem Wrote.ne_nil (h : Wrote w is w' gs) (his : is ≠ []) :
    w'.instructionsAndSizes ≠ [] := by
  cases gs with
  | nil => exact absurd (DecoderState.piecesOf_eq_nil h.pieces.symm) his
  | cons g gs =>
    rw [← instructions_sections, h.written.sections]
    obtain ⟨rest, hrest⟩ := Group.instructions_push (g := g) (s := layout w'.interleaved gs)
    show (g.push (layout w'.interleaved gs)).instructions ≠ []
    rw [hrest]
    exact List.cons_ne_nil _ _

end Wrote

end CodeTableWriter

/-! ## Decoding it -/

namespace DecoderState

open CodeTableWriter (Wrote Fresh)

variable {D : DecoderState} {w : CodeTableWriter}

/-- The sections are found where they were written. -/
theorem setUpSections_eq (hil : D.headerIsInterleaved (w.header 0) = w.interleaved) (checksum : ℕ)
    (hsep : w.Interleaves) (rest : List UInt8) :
    D.setUpSections (w.header checksum) (w.body ++ rest) = w.sections := by
  have hil' : D.headerIsInterleaved (w.header checksum) = w.interleaved := hil
  unfold setUpSections CodeTableWriter.sections
  rw [hil']
  cases h : w.interleaved with
  | true =>
    obtain ⟨hd, ha⟩ := hsep h
    simp only [if_true, CodeTableWriter.body, hd, ha, List.nil_append, List.append_nil]
    show Sections.interleaved ((w.instructionsAndSizes ++ rest).take
      w.instructionsAndSizes.length) = _
    rw [List.take_left]
  | false =>
    simp only [Bool.false_eq_true, if_false]
    show Sections.separate (((w.body ++ rest).drop w.separateDataForAddAndRun.length).take
        w.instructionsAndSizes.length) ((w.body ++ rest).take w.separateDataForAddAndRun.length)
      ((((w.body ++ rest).drop w.separateDataForAddAndRun.length).drop
        w.instructionsAndSizes.length).take w.separateAddressesForCopy.length) = _
    simp only [CodeTableWriter.body, List.append_assoc, List.drop_left, List.take_left]

/-- Reader and writer agree on the format. -/
theorem headerIsInterleaved_eq (hsep : w.Interleaves)
    (hallow : w.interleaved = true → D.allowExtensions = true)
    (hne : w.interleaved = false →
      0 < w.separateDataForAddAndRun.length + w.separateAddressesForCopy.length) (checksum : ℕ) :
    D.headerIsInterleaved (w.header checksum) = w.interleaved := by
  unfold headerIsInterleaved
  show (D.allowExtensions && decide (w.separateDataForAddAndRun.length = 0 ∧
    w.separateAddressesForCopy.length = 0)) = _
  cases h : w.interleaved with
  | true =>
    obtain ⟨hd, ha⟩ := hsep h
    rw [hallow h, hd, ha]
    rfl
  | false =>
    have := hne h
    rw [decide_eq_false (by omega), Bool.and_false]

/-- Decoder and writer between two windows. -/
structure Between (D : DecoderState) (w : CodeTableWriter) : Prop where
  foundHeader : D.deltaWindow.foundHeader = false
  start : D.deltaWindow.targetWindowStartPos = D.decodedTarget.length
  cache : D.addrCache.bind AddressCache.init = some w.addressCache
  table : D.deltaWindow.reader.codeTableData = w.codeTableData
  dictionary : w.dictionarySize = D.dictionary.length
  interleaved : w.interleaved = true → D.allowExtensions = true
  checksum : w.addChecksum = true → D.allowExtensions = true
  fresh : w.Fresh
  ready : w.Ready

/-- A script that the decoder can execute within its limits. -/
structure Encodes (D : DecoderState) (is : List (Instruction UInt8)) (out : List UInt8) : Prop where
  positive : ∀ i ∈ is, 0 < i.size
  exec : SelfCopy.exec D.dictionary [] is = some out
  ne_nil : is ≠ []
  length : out.length ≤ kDefaultMaximumTargetFileSize
  addresses : D.dictionary.length + out.length ≤ VarintBE.kMaxVal .int32
  limits : D.targetWindowWouldExceedSizeLimits out.length = false

/-- The decoder after a window. -/
def afterWindow (D : DecoderState) (reader : CodeTableReader) (cache : AddressCache)
    (out : List UInt8) : DecoderState :=
  ({ D with
    decodedTarget := D.decodedTarget ++ out
    addrCache := some cache
    totalOfTargetWindowSizes := D.totalOfTargetWindowSizes + out.length }.withWindow
      { D.deltaWindow with reader }).resetWindow

section Window

variable {is : List (Instruction UInt8)} {out : List UInt8} {w' : CodeTableWriter}
  {gs : List Group}

theorem Encodes.sum_size (h : D.Encodes is out) : (is.map Instruction.size).sum = out.length := by
  have := SelfCopy.length_of_exec h.exec
  rw [List.length_nil, Nat.zero_add] at this
  exact this.symm

theorem Between.fits (hb : D.Between w) (he : D.Encodes is out) (hw : Wrote w is w' gs)
    (hsum : w'.checksum ≤ 0xFFFFFFFF) : w'.Fits := by
  obtain ⟨_, _, _, _, _, _, hs⟩ := hw.settings
  have hlen : out.length ≤ 67108864 := he.length
  have hmax : D.dictionary.length + out.length ≤ 0x7FFFFFFF := he.addresses
  have hdict : w'.dictionarySize = D.dictionary.length := by
    rw [hs]
    exact hb.dictionary
  have htarget := hw.target.trans he.sum_size
  have hbody := hw.length_body he.positive
  rw [he.sum_size] at hbody
  have hheader := CodeTableWriter.length_encodingHeader w'
  refine ⟨?_, ?_, ?_, hsum⟩
  · show _ ≤ 0x7FFFFFFF
    omega
  · show _ ≤ 0x7FFFFFFF
    omega
  · show _ ≤ 0x7FFFFFFF
    omega

theorem Between.accepts (hb : D.Between w) (he : D.Encodes is out) (hw : Wrote w is w' gs) :
    D.Accepts w' := by
  have htarget := hw.target.trans he.sum_size
  obtain ⟨_, _, _, _, _, _, hs⟩ := hw.settings
  refine ⟨?_, ?_, ?_, ?_⟩
  · rw [hs]; exact hb.dictionary
  · rw [hs]; exact hb.interleaved
  · rw [hs]; exact hb.checksum
  · rw [htarget]; exact he.limits

/-- If the sections are separate then there is data or an address. -/
theorem Between.nonempty (hb : D.Between w) (he : D.Encodes is out) (hw : Wrote w is w' gs)
    (hil : w'.interleaved = false) :
    0 < w'.separateDataForAddAndRun.length + w'.separateAddressesForCopy.length := by
  have hsections := hw.written.sections
  rw [hil] at hsections
  cases is with
  | nil => exact absurd rfl he.ne_nil
  | cons i is =>
    have hexec := he.exec
    rw [SelfCopy.exec] at hexec
    obtain ⟨mid, hi, -⟩ := Option.bind_eq_some_iff.mp hexec
    have hn : w.dictionarySize = D.dictionary.length + ([] : List UInt8).length := hb.dictionary
    have hmax := he.addresses
    have := nonempty_layout hw.pieces (nonempty_pieceOf hb.ready.fits
      ((List.forall_mem_cons.mp he.positive).1) hn
      (by rw [hn, List.length_nil]; omega) hi)
    rw [← hsections] at this
    unfold CodeTableWriter.sections at this
    rw [hil] at this
    exact this

/-- The header is found and the sections are set up as they were written. -/
theorem Between.readHeader (hb : D.Between w) (he : D.Encodes is out) (hw : Wrote w is w' gs)
    (hsum : w'.checksum ≤ 0xFFFFFFFF) (rest : List UInt8) :
    D.readHeader (w'.windowHeader ++ (w'.body ++ rest)) =
      (.success, D.enterWindow (w'.header D.deltaWindow.expectedChecksum) (w'.body ++ rest),
        w'.body ++ rest) := by
  have hread := reads_header (hb.fits he hw hsum) (hb.accepts he hw) (w'.body ++ rest)
  unfold DecoderState.readHeader
  rw [hread]
  simp only
  rw [if_neg]
  have hlen : (w'.header D.deltaWindow.expectedChecksum).lengths.total = w'.body.length := by
    simp only [HeaderParser.SectionLengths.total, CodeTableWriter.header, CodeTableWriter.body,
      List.length_append]
    omega
  rw [hlen, List.length_append, decide_eq_false (by omega), Bool.and_false]
  exact Bool.false_ne_true

/-- The decoder at the beginning of a window that was written. -/
theorem Between.decodes (hb : D.Between w) (he : D.Encodes is out) (hw : Wrote w is w' gs)
    (rest : List UInt8) (D' : DecoderState)
    (hD' : D' = { D.enterWindow (w'.header D.deltaWindow.expectedChecksum) (w'.body ++ rest) with
      addrCache := some w.addressCache }) :
    D'.Decodes w.addressCache is out ∧ D'.deltaWindow.sections = layout w'.interleaved gs ∧
      D'.deltaWindow.sourceSegment = D.dictionary ∧ D'.before = D.decodedTarget ∧
      D'.produced = [] := by
  have hsource : D'.deltaWindow.sourceSegment = D.dictionary := by
    rw [hD']
    show D.headerSourceSegment _ = _
    have hflag : (w'.header D.deltaWindow.expectedChecksum).winIndicator &&& VCD_SOURCE ≠ 0 := by
      show w'.winIndicator &&& VCD_SOURCE ≠ 0
      unfold CodeTableWriter.winIndicator
      split <;> decide
    unfold headerSourceSegment
    rw [if_pos hflag]
    show (D.dictionary.drop 0).take w'.dictionarySize = _
    obtain ⟨_, _, _, _, _, _, hs⟩ := hw.settings
    have hdict : w'.dictionarySize = D.dictionary.length := by
      rw [hs]
      exact hb.dictionary
    rw [List.drop_zero, hdict, List.take_length]
  have hlength : out.length = D'.deltaWindow.targetWindowLength := by
    rw [hD']
    exact (hw.target.trans he.sum_size).symm
  have hstart : D'.deltaWindow.targetWindowStartPos = D'.decodedTarget.length := by
    rw [hD']
    exact hb.start
  have htarget : D'.decodedTarget = D.decodedTarget := by rw [hD']; rfl
  have hproduced : D'.produced = [] := by
    rw [produced, hstart, List.drop_length]
  have hbefore : D'.before = D.decodedTarget := by
    rw [before, hstart, List.take_length, htarget]
  refine ⟨⟨Nat.le_of_eq hstart, hb.ready.fits, by rw [hD'], he.positive, ?_, ?_, hlength⟩, ?_,
    hsource, hbefore, hproduced⟩
  · rw [hsource, ← hlength]
    exact he.addresses
  · rw [hsource, hproduced]
    exact he.exec
  · rw [← hw.written.sections, hD']
    apply setUpSections_eq _ _ hw.interleaves
    exact headerIsInterleaved_eq hw.interleaves (hb.accepts he hw).interleaved
      (hb.nonempty he hw) 0

/-- The checks at the end of `DecodeBody`. -/
theorem decodeBody_of_run {b : Bool} {D₁ : DecoderState}
    (hrun : decodeLoop.run D = (.success, D₁)) (hsections : D₁.deltaWindow.sections = .empty b)
    (hkind : D.deltaWindow.sections.isInterleaved = b)
    (hlen : D₁.targetBytesDecoded = D₁.deltaWindow.targetWindowLength)
    (hcheck : D₁.deltaWindow.hasChecksum = true →
      Adler32.computeAdler32 D₁.targetWindow = D₁.deltaWindow.expectedChecksum)
    (chunk : List UInt8) :
    ∃ D₂, D.decodeBody chunk = (.success, D₂, chunk.drop D.deltaWindow.sections.length) ∧
      D₂.resetWindow = D₁.resetWindow := by
  have hinstr : D₁.deltaWindow.sections.instructions = [] := by
    rw [hsections, Sections.instructions_empty]
  unfold decodeBody
  rw [hrun]
  simp only
  rw [if_neg (not_not_intro hlen), if_neg (fun h => h.2 (hcheck h.1)), if_neg (not_not_intro hinstr)]
  cases hs : D.deltaWindow.sections with
  | interleaved i =>
    rw [hs] at hkind
    have hil : D₁.deltaWindow.sections.isInterleaved = true := by
      rw [hsections, ← hkind]
      rfl
    rw [if_pos hil, updateInstructionPointer, if_pos hil, hinstr]
    exact ⟨_, rfl, rfl⟩
  | separate i d a =>
    rw [hs] at hkind
    rw [hsections, ← hkind]
    exact ⟨_, rfl, rfl⟩

/-- Whatever script is written into a window, the decoder takes the window, appends the target of
the script, and decoder and writer are ready for the next window. -/
theorem Between.decodeWindow (hb : D.Between w) (he : D.Encodes is out)
    (hsum : w.addChecksum = true → w.checksum = Adler32.computeAdler32 out)
    (hsum' : w.checksum ≤ 0xFFFFFFFF) (rest : List UInt8) :
    ∃ reader cache, D.decodeWindow ((is.foldl CodeTableWriter.encode w).output.1 ++ rest) =
        (.success, D.afterWindow reader cache out, rest) ∧
      (D.afterWindow reader cache out).Between w ∧
      (is.foldl CodeTableWriter.encode w).output.2 = w := by
  obtain ⟨gs, hw⟩ := hb.fresh.wrote hb.ready is
  generalize is.foldl CodeTableWriter.encode w = w' at hw
  have hcheck : w'.addChecksum = w.addChecksum ∧ w'.checksum = w.checksum := by
    obtain ⟨_, _, _, _, _, _, hs⟩ := hw.settings
    rw [hs]
    exact ⟨rfl, rfl⟩
  have htarget := hw.target.trans he.sum_size
  have hheader := hb.readHeader he hw (hcheck.2 ▸ hsum') rest
  have haccepts := hb.accepts he hw
  have hne := hw.ne_nil he.ne_nil
  -- the body is decoded from where the header ends
  generalize hD' : { D.enterWindow (w'.header D.deltaWindow.expectedChecksum) (w'.body ++ rest) with
      addrCache := some w.addressCache } = D'
  obtain ⟨hdec, hsections, hsource, hbefore, hproduced⟩ := hb.decodes he hw rest D' hD'.symm
  have htable : D'.deltaWindow.reader.codeTableData = w.codeTableData := by
    rw [← hD']
    exact hb.table
  obtain ⟨reader, cache, hreader, hcache, hrun⟩ := run_decodeLoop hdec hsections
    (by rw [← hD']; rfl) (htable ▸ hw.valid)
    (by rw [hw.pieces, hproduced, hsource, hb.dictionary]; rfl)
  rw [hbefore] at hrun
  have hstart : D'.deltaWindow.targetWindowStartPos = D.decodedTarget.length := by
    rw [← hD']
    exact hb.start
  obtain ⟨D₂, hbody, hreset⟩ := decodeBody_of_run hrun rfl
    (by rw [hsections, isInterleaved_layout])
    (by
      show (D.decodedTarget ++ out).length - D'.deltaWindow.targetWindowStartPos = _
      rw [hstart, List.length_append, Nat.add_sub_cancel_left]
      exact hdec.length)
    (by
      intro hsumD
      have hwindow : (D'.advance (.empty w'.interleaved) reader (some cache)
          (D.decodedTarget ++ out)).targetWindow = out := by
        show ((D.decodedTarget ++ out).drop D'.deltaWindow.targetWindowStartPos).take
          D'.deltaWindow.targetWindowLength = out
        rw [hstart, List.drop_left, ← hdec.length, List.take_length]
      have hadd : w'.addChecksum = true := by
        rw [← headerHasChecksum_eq haccepts]
        rw [← hD'] at hsumD
        exact hsumD
      rw [hwindow, ← hsum (hcheck.1 ▸ hadd), ← hcheck.2, ← hD']
      show _ = if w'.addChecksum then w'.checksum else _
      rw [if_pos hadd])
    (w'.body ++ rest)
  have hfinal : D₂.resetWindow = D.afterWindow reader cache out := by
    rw [hreset, ← hD', afterWindow, ← htarget]
    rfl
  refine ⟨reader, cache, ?_, ?_, hw.output hb.fresh hne⟩
  · rw [CodeTableWriter.output_eq hne, List.append_assoc]
    unfold DecoderState.decodeWindow
    rw [hb.foundHeader, hheader]
    have hinit : (D.enterWindow (w'.header D.deltaWindow.expectedChecksum)
        (w'.body ++ rest)).addrCache.bind AddressCache.init = some w.addressCache := hb.cache
    simp only [Bool.not_false, if_true, hinit]
    rw [hD', finishWindow, hbody]
    simp only
    rw [hfinal, hsections, ← hw.written.sections, hw.length_sections, List.drop_left]
  · refine ⟨rfl, rfl, ?_, hreader.trans htable, hb.dictionary, hb.interleaved, hb.checksum,
      hb.fresh, hb.ready⟩
    show cache.init = _
    rw [hcache, hb.fresh.cache]

end Window

end DecoderState

end OpenVcdiff
