import NodeVcdiff.OpenVcdiff.Layout

/-!
# What the writer has written

Whatever instructions it is given, the sections of the writer are a list of valid opcodes for them.
-/

namespace OpenVcdiff

open InstructionMap (Entry entry1 entry2 Single)
open SelfCopy (Instruction)

namespace CodeTableWriter

variable (w : CodeTableWriter)

/-- The sections that have been written. -/
def sections : Sections :=
  if w.interleaved then .interleaved w.instructionsAndSizes
  else .separate w.instructionsAndSizes w.separateDataForAddAndRun w.separateAddressesForCopy

/-- The writer after `Init`, with a code table that is valid. -/
structure Ready : Prop where
  map : w.instructionMap = some (.new w.codeTableData)
  valid : w.codeTableData.Valid w.maxMode
  fits : w.addressCache.Fits
  modes : w.addressCache.lastMode ≤ w.maxMode

/-- The sections are the opcodes `gs`, and a second instruction may only be put into the last
one. -/
structure Written (gs : List Group) : Prop where
  sections : w.sections = layout w.interleaved gs
  valid : ∀ g ∈ gs, g.Valid w.codeTableData
  last : w.lastOpcodeIndex = none ∨ ∃ gs' op x, gs = gs' ++ [.one op x] ∧
    x.piece.inst ≠ .noop ∧ w.lastOpcodeIndex = some (layout w.interleaved gs').instructions.length

/-- The instruction, its data and its address. -/
def put (p : Piece) : CodeTableWriter :=
  ((w.encodeInstruction p.inst p.size p.mode).appendData p.data).appendAddress p.address

variable {w} {gs : List Group} {p : Piece}

theorem findOpcode_eq_some {lookup : ℕ → Option UInt8} {size : ℕ} {op : UInt8} {bytes : List UInt8}
    (h : findOpcode lookup size = some (op, bytes)) :
    (lookup size = some op ∧ bytes = []) ∨ (lookup 0 = some op ∧ bytes = sizeBytes size) := by
  unfold findOpcode at h
  split at h
  · next hop =>
    cases h
    split at hop
    · exact .inl ⟨hop, rfl⟩
    · cases hop
  · obtain ⟨opcode, hop, heq⟩ := Option.map_eq_some_iff.mp h
    cases heq
    exact .inr ⟨hop, rfl⟩

theorem findOpcode_ne_none {lookup : ℕ → Option UInt8} (h : lookup 0 ≠ none) (size : ℕ) :
    findOpcode lookup size ≠ none := by
  unfold findOpcode
  split
  · exact Option.some_ne_none _
  · rw [ne_eq, Option.map_eq_none_iff]
    exact h

/-- `EncodeInstruction` puts the instruction into the last opcode or writes a new one. -/
theorem encodeInstruction_cases (hr : w.Ready) {inst : InstructionType} (hi : inst ≠ .noop)
    (size : ℕ) {mode : ℕ} (hm : mode ≤ w.maxMode) :
    (∃ index op bytes, w.lastOpcodeIndex = some index ∧
      findOpcode ((InstructionMap.new w.codeTableData).lookupSecondOpcode
        (w.instructionsAndSizes.getD index 0) inst · mode) size = some (op, bytes) ∧
      w.encodeInstruction inst size mode =
        { w with
          instructionsAndSizes := w.instructionsAndSizes.set index op ++ bytes
          lastOpcodeIndex := none }) ∨
    ∃ op bytes,
      findOpcode ((InstructionMap.new w.codeTableData).lookupFirstOpcode inst · mode) size =
        some (op, bytes) ∧
      w.encodeInstruction inst size mode =
        { w with
          instructionsAndSizes := w.instructionsAndSizes ++ op :: bytes
          lastOpcodeIndex := some w.instructionsAndSizes.length } := by
  have hfirst : findOpcode
      (fun size => (InstructionMap.new w.codeTableData).lookupFirstOpcode inst size mode) size ≠
        none := by
    apply findOpcode_ne_none
    exact InstructionMap.lookupFirstOpcode_ne_none hr.valid hi hm
  obtain ⟨⟨op, bytes⟩, hop⟩ := Option.ne_none_iff_exists'.mp hfirst
  have hnew (hnone : (do
      let index ← w.lastOpcodeIndex
      let found ← findOpcode ((InstructionMap.new w.codeTableData).lookupSecondOpcode
        (w.instructionsAndSizes.getD index 0) inst · mode) size
      return (index, found)) = none) : w.encodeInstruction inst size mode =
        { w with
          instructionsAndSizes := w.instructionsAndSizes ++ op :: bytes
          lastOpcodeIndex := some w.instructionsAndSizes.length } := by
    unfold encodeInstruction
    rw [hr.map]
    simp only [hnone, hop]
  cases hlast : w.lastOpcodeIndex with
  | none => exact .inr ⟨op, bytes, hop, hnew (by rw [hlast]; rfl)⟩
  | some index =>
    cases hsecond : findOpcode ((InstructionMap.new w.codeTableData).lookupSecondOpcode
        (w.instructionsAndSizes.getD index 0) inst · mode) size with
    | none =>
      refine .inr ⟨op, bytes, hop, hnew ?_⟩
      rw [hlast, Option.bind_eq_bind, Option.bind_some, hsecond]
      rfl
    | some found =>
      refine .inl ⟨index, found.1, found.2, rfl, hsecond, ?_⟩
      unfold encodeInstruction
      rw [hr.map]
      simp only [hlast, Option.bind_eq_bind, Option.bind_some, hsecond]
      rfl

/-! ## Writing an instruction -/

theorem isInterleaved_sections : w.sections.isInterleaved = w.interleaved := by
  unfold sections
  cases w.interleaved <;> rfl

theorem instructions_sections : w.sections.instructions = w.instructionsAndSizes := by
  unfold sections
  cases w.interleaved <;> rfl

/-- What `EncodeInstruction` changes. -/
theorem encodeInstruction_frame (w : CodeTableWriter) (inst : InstructionType) (size mode : ℕ) :
    ∃ i l, w.encodeInstruction inst size mode =
      { w with instructionsAndSizes := i, lastOpcodeIndex := l } := by
  unfold encodeInstruction
  split
  · exact ⟨_, _, rfl⟩
  · simp only
    split
    · exact ⟨_, _, rfl⟩
    · split
      · exact ⟨_, _, rfl⟩
      · exact ⟨_, _, rfl⟩

/-- What `put` changes. -/
theorem put_frame (w : CodeTableWriter) (p : Piece) : ∃ i d a l, w.put p =
    { w with
      instructionsAndSizes := i
      separateDataForAddAndRun := d
      separateAddressesForCopy := a
      lastOpcodeIndex := l } := by
  obtain ⟨i, l, henc⟩ := encodeInstruction_frame w p.inst p.size p.mode
  rw [put, henc]
  unfold appendAddress appendData
  simp only
  by_cases hil : w.interleaved = true
  · simp only [hil, if_true]
    exact ⟨_, _, _, _, rfl⟩
  · simp only [hil]
    exact ⟨_, _, _, _, rfl⟩

/-- A new opcode comes after what is there. -/
theorem sections_put_one {op : UInt8} {bytes : List UInt8}
    (h : w.encodeInstruction p.inst p.size p.mode =
      { w with
        instructionsAndSizes := w.instructionsAndSizes ++ op :: bytes
        lastOpcodeIndex := some w.instructionsAndSizes.length }) :
    (w.put p).sections = w.sections.append
      ((Group.one op ⟨p, bytes⟩).push (.empty w.interleaved)) ∧
    (w.put p).lastOpcodeIndex = some w.instructionsAndSizes.length := by
  rw [put, h]
  unfold appendAddress appendData sections
  cases hil : w.interleaved with
  | true => simp [Group.push]
  | false => simp [Group.push]

/-- The second instruction of an opcode comes after the first one, and the opcode is replaced. -/
theorem sections_put_two {s : Sections} (hs : s.isInterleaved = w.interleaved) {op op' : UInt8}
    {x : Coded} {bytes : List UInt8}
    (hw : w.sections = s.append ((Group.one op x).push (.empty w.interleaved)))
    (h : w.encodeInstruction p.inst p.size p.mode =
      { w with
        instructionsAndSizes := w.instructionsAndSizes.set s.instructions.length op' ++ bytes
        lastOpcodeIndex := none }) :
    (w.put p).sections = s.append ((Group.two op' x ⟨p, bytes⟩).push (.empty w.interleaved)) ∧
    (w.put p).lastOpcodeIndex = none := by
  rw [put, h]
  unfold appendAddress appendData
  unfold sections at hw ⊢
  cases hil : w.interleaved with
  | true =>
    rw [hil] at hw hs
    cases s with
    | separate i d a => cases hs
    | interleaved i =>
      simp only [if_true, Sections.empty_true, Group.push, Coded.push_interleaved,
        Sections.pushInstructions_interleaved, Sections.append_interleaved,
        Sections.interleaved.injEq] at hw
      simp [Group.push, hw, Sections.instructions]
  | false =>
    rw [hil] at hw hs
    cases s with
    | interleaved i => cases hs
    | separate i d a =>
      simp only [Bool.false_eq_true, if_false, Sections.empty_false, Group.push,
        Coded.push_separate, Sections.pushInstructions_separate, Sections.append_separate,
        Sections.separate.injEq] at hw
      simp [Group.push, hw, Sections.instructions]

/-- An opcode that is found says the size, or the size comes after it. -/
theorem exists_of_fits {t : CodeTableData} {op : UInt8} {x : Coded}
    (h : (Group.one op x).Valid t) : ∃ size, Single t op x.piece.inst size x.piece.mode ∧
      ∀ e : Entry, e.Is x.piece.inst size x.piece.mode → x.Fits e := by
  rcases h with ⟨h2, ⟨his, hsize⟩ | ⟨his, hsize⟩⟩ | ⟨h1, ⟨his, hsize⟩ | ⟨his, hsize⟩⟩
  · exact ⟨_, .inl ⟨h2, his⟩, fun _ he => .inl ⟨he, hsize⟩⟩
  · exact ⟨_, .inl ⟨h2, his⟩, fun _ he => .inr ⟨he, hsize⟩⟩
  · exact ⟨_, .inr ⟨h1, his⟩, fun _ he => .inl ⟨he, hsize⟩⟩
  · exact ⟨_, .inr ⟨h1, his⟩, fun _ he => .inr ⟨he, hsize⟩⟩

theorem fits_of_findOpcode {lookup : ℕ → Option UInt8} {op : UInt8} {bytes : List UInt8}
    (h : findOpcode lookup p.size = some (op, bytes)) {P : ℕ → Prop}
    (hP : ∀ size, lookup size = some op → P size) :
    ∃ size, P size ∧ ∀ e : Entry, e.Is p.inst size p.mode → Coded.Fits ⟨p, bytes⟩ e := by
  rcases findOpcode_eq_some h with ⟨hop, hbytes⟩ | ⟨hop, hbytes⟩
  · exact ⟨_, hP _ hop, fun _ he => .inl ⟨he, hbytes⟩⟩
  · exact ⟨_, hP _ hop, fun _ he => .inr ⟨he, hbytes⟩⟩

/-- One more instruction is written. -/
theorem Written.put (hw : w.Written gs) (hr : w.Ready) (hi : p.inst ≠ .noop)
    (hm : p.mode ≤ w.maxMode) : ∃ gs', (w.put p).Written gs' ∧
      gs'.flatMap Group.pieces = gs.flatMap Group.pieces ++ [p] := by
  have hframe : (w.put p).interleaved = w.interleaved ∧
      (w.put p).codeTableData = w.codeTableData := by
    obtain ⟨i, d, a, l, h⟩ := put_frame w p
    rw [h]
    exact ⟨rfl, rfl⟩
  rcases encodeInstruction_cases hr hi p.size hm with
    ⟨index, op', bytes, hlast, hop, henc⟩ | ⟨op, bytes, hop, henc⟩
  · -- the last opcode stands for one instruction and now for two
    rcases hw.last with hnone | ⟨gs₀, op, x, rfl, hx, hindex⟩
    · rw [hnone] at hlast
      cases hlast
    obtain rfl := Option.some.inj (hlast.symm.trans hindex)
    have hsections := hw.sections
    rw [layout_append] at hsections
    have hop' : w.instructionsAndSizes.getD (layout w.interleaved gs₀).instructions.length 0 =
        op := by
      obtain ⟨rest, hrest⟩ := Group.instructions_push (g := .one op x)
        (s := .empty w.interleaved)
      have hinstr : w.instructionsAndSizes =
          (layout w.interleaved gs₀).instructions ++ op :: rest := by
        rw [← instructions_sections, hsections, Sections.instructions_append]
        exact congrArg _ hrest
      rw [hinstr, List.getD_eq_getElem?_getD, List.getElem?_append_right (Nat.le_refl _),
        Nat.sub_self]
      rfl
    rw [hop'] at hop
    have hvalid := List.forall_mem_append.mp hw.valid
    obtain ⟨size, hsingle, hfitx⟩ := exists_of_fits (hvalid.2 _ (List.mem_singleton.mpr rfl))
    obtain ⟨size', ⟨he1, he2, h1, h2⟩, hfity⟩ := fits_of_findOpcode hop fun _ hlookup =>
      InstructionMap.lookupSecondOpcode_eq_some hr.valid hsingle hx hlookup
    obtain ⟨hs, hl⟩ := sections_put_two isInterleaved_layout hsections henc
    refine ⟨gs₀ ++ [.two op' x ⟨p, bytes⟩], ⟨?_, ?_, .inl hl⟩, ?_⟩
    · rw [hs, hframe.1, layout_append]
      rfl
    · rw [hframe.2]
      refine List.forall_mem_append.mpr ⟨hvalid.1, ?_⟩
      exact List.forall_mem_singleton.mpr ⟨h1, h2, hfitx _ he1, hfity _ he2⟩
    · simp [Group.pieces]
  · obtain ⟨size, hsingle, hfit⟩ := fits_of_findOpcode hop fun _ hlookup =>
      InstructionMap.lookupFirstOpcode_eq_some hr.valid hlookup
    obtain ⟨hs, hl⟩ := sections_put_one henc
    refine ⟨gs ++ [.one op ⟨p, bytes⟩], ⟨?_, ?_, .inr ⟨gs, op, _, rfl, hi, ?_⟩⟩, ?_⟩
    · rw [hs, hframe.1, layout_append, hw.sections]
      rfl
    · rw [hframe.2]
      refine List.forall_mem_append.mpr ⟨hw.valid, List.forall_mem_singleton.mpr ?_⟩
      exact hsingle.imp (fun h => ⟨h.1, hfit _ h.2⟩) (fun h => ⟨h.1, hfit _ h.2⟩)
    · rw [hl, hframe.1, ← hw.sections, instructions_sections]
    · simp [Group.pieces]

/-! ## Writing a script -/

@[simp] theorem appendData_nil (w : CodeTableWriter) : w.appendData [] = w := by
  simp [appendData]

@[simp] theorem appendAddress_nil (w : CodeTableWriter) : w.appendAddress [] = w := by
  simp [appendAddress]

/-- What writing instructions changes. -/
def SameSettings (w w' : CodeTableWriter) : Prop := ∃ i d a c n l, w' =
  { w with
    instructionsAndSizes := i
    separateDataForAddAndRun := d
    separateAddressesForCopy := a
    addressCache := c
    targetLength := n
    lastOpcodeIndex := l }

theorem SameSettings.trans {w' w'' : CodeTableWriter} (h : SameSettings w w')
    (h' : SameSettings w' w'') : SameSettings w w'' := by
  obtain ⟨i, d, a, c, n, l, rfl⟩ := h
  obtain ⟨i', d', a', c', n', l', rfl⟩ := h'
  exact ⟨i', d', a', c', n', l', rfl⟩

theorem addressBytes_of_cache {c : AddressCache} (address here : ℤ) (mode : ℕ) (e : ℤ) :
    (c.encodeAddress address here).2.2.addressBytes mode e = c.addressBytes mode e := by
  rcases AddressCache.encodeAddress_cache (c := c) address here with h | h
  · rw [h]
  · rw [h]
    rfl

/-- An instruction is written as a piece. -/
theorem encode_eq (hr : w.Ready) (i : Instruction UInt8) {here : ℤ}
    (hhere : toInt32 (w.dictionarySize + w.targetLength) = here) :
    w.encode i = ((w.withCache (pieceOf w.addressCache here i).2).put
      (pieceOf w.addressCache here i).1).grow i.size := by
  cases i with
  | add data =>
    show w.add data = _
    have hput : w.put ⟨.add, data.length, 0, data, []⟩ =
        (w.encodeInstruction .add data.length 0).appendData data := appendAddress_nil _
    rw [add, ← hput]
    rfl
  | run size byte =>
    show w.run size byte = _
    have hput : w.put ⟨.run, size, 0, [byte], []⟩ =
        (w.encodeInstruction .run size 0).appendData [byte] := appendAddress_nil _
    rw [run, ← hput]
    rfl
  | copy address size =>
    show w.copy address size = _
    unfold copy
    rw [hr.map, hhere]
    simp only [copyAt, pieceOf, put, appendData_nil]
    rw [show (w.withCache _).addressCache = (w.addressCache.encodeAddress address here).2.2 from rfl,
      addressBytes_of_cache]
    rfl

/-- The modes of the pieces have opcodes. -/
theorem mode_pieceOf {c : AddressCache} (hf : c.Fits) (here : ℤ) (i : Instruction UInt8) :
    (pieceOf c here i).1.mode ≤ c.lastMode ∧ (pieceOf c here i).1.inst ≠ .noop := by
  cases i with
  | add data => exact ⟨Nat.zero_le _, by intro h; cases h⟩
  | run size byte => exact ⟨Nat.zero_le _, by intro h; cases h⟩
  | copy address size =>
    exact ⟨AddressCache.encodeAddress_mode_le hf address here, by intro h; cases h⟩

/-- The caches keep their sizes. -/
theorem cache_pieceOf (c : AddressCache) (here : ℤ) (i : Instruction UInt8) :
    (pieceOf c here i).2 = c ∨ ∃ address, (pieceOf c here i).2 = c.updateCache address := by
  cases i with
  | add data => exact .inl rfl
  | run size byte => exact .inl rfl
  | copy address size =>
    exact (AddressCache.encodeAddress_cache address here).imp_right fun h => ⟨address, h⟩

theorem init_pieceOf (c : AddressCache) (here : ℤ) (i : Instruction UInt8) :
    (pieceOf c here i).2.init = c.init := by
  rcases cache_pieceOf c here i with h | ⟨address, h⟩
  · rw [h]
  · rw [h, AddressCache.init_updateCache]

theorem Ready.withCache (hr : w.Ready) (here : ℤ) (i : Instruction UInt8) :
    (w.withCache (pieceOf w.addressCache here i).2).Ready := by
  rcases cache_pieceOf w.addressCache here i with h | ⟨address, h⟩
  · rw [h]
    exact ⟨hr.map, hr.valid, hr.fits, hr.modes⟩
  · rw [h]
    exact ⟨hr.map, hr.valid, hr.fits, hr.modes⟩

theorem Ready.encode (hr : w.Ready) (i : Instruction UInt8) : (w.encode i).Ready := by
  rw [encode_eq hr i rfl]
  generalize hhere : toInt32 (w.dictionarySize + w.targetLength) = here
  have hready := hr.withCache here i
  obtain ⟨_, _, _, _, hframe⟩ := put_frame (w.withCache (pieceOf w.addressCache here i).2)
    (pieceOf w.addressCache here i).1
  rw [hframe]
  exact ⟨hready.map, hready.valid, hready.fits, hready.modes⟩

/-- One more instruction of a script is written. -/
theorem Written.encode (hw : w.Written gs) (hr : w.Ready) (i : Instruction UInt8) {here : ℤ}
    (hhere : toInt32 (w.dictionarySize + w.targetLength) = here) :
    ∃ gs', (w.encode i).Written gs' ∧
      gs'.flatMap Group.pieces = gs.flatMap Group.pieces ++ [(pieceOf w.addressCache here i).1] ∧
      (w.encode i).Ready ∧ SameSettings w (w.encode i) ∧
      (w.encode i).addressCache = (pieceOf w.addressCache here i).2 ∧
      (w.encode i).targetLength = w.targetLength + i.size := by
  have hmode := mode_pieceOf hr.fits here i
  have hready := hr.withCache here i
  have hready' := hr.encode i
  obtain ⟨gs', hw', hpieces⟩ := Written.put (w := w.withCache (pieceOf w.addressCache here i).2)
    (p := (pieceOf w.addressCache here i).1) ⟨hw.sections, hw.valid, hw.last⟩ hready hmode.2
    (Nat.le_trans hmode.1 hr.modes)
  rw [encode_eq hr i hhere] at hready' ⊢
  refine ⟨gs', ?_, hpieces, hready', ?_⟩
  · exact ⟨hw'.sections, hw'.valid, hw'.last⟩
  · obtain ⟨i', d, a, l, hframe⟩ := put_frame (w.withCache (pieceOf w.addressCache here i).2)
      (pieceOf w.addressCache here i).1
    rw [hframe]
    exact ⟨⟨_, _, _, _, _, _, rfl⟩, rfl, rfl⟩

/-- A script is written as its pieces. -/
theorem Written.encodeAll (hw : w.Written gs) (hr : w.Ready) (is : List (Instruction UInt8)) :
    ∃ gs', (is.foldl CodeTableWriter.encode w).Written gs' ∧
      gs'.flatMap Group.pieces = gs.flatMap Group.pieces ++
        piecesOf w.addressCache (w.dictionarySize + w.targetLength) is ∧
      (is.foldl CodeTableWriter.encode w).Ready ∧
      SameSettings w (is.foldl CodeTableWriter.encode w) ∧
      (is.foldl CodeTableWriter.encode w).addressCache.init = w.addressCache.init ∧
      (is.foldl CodeTableWriter.encode w).targetLength =
        w.targetLength + (is.map Instruction.size).sum := by
  induction is generalizing w gs with
  | nil =>
    exact ⟨gs, hw, by rw [piecesOf, List.append_nil], hr, ⟨_, _, _, _, _, _, rfl⟩, rfl, rfl⟩
  | cons i is ih =>
    obtain ⟨gs₁, hw₁, hp₁, hr₁, hs₁, hc₁, hl₁⟩ := hw.encode hr i rfl
    obtain ⟨gs₂, hw₂, hp₂, hr₂, hs₂, hc₂, hl₂⟩ := ih hw₁ hr₁
    have hsize : (w.encode i).dictionarySize = w.dictionarySize := by
      obtain ⟨_, _, _, _, _, _, h⟩ := hs₁
      rw [h]
    refine ⟨gs₂, hw₂, ?_, hr₂, hs₁.trans hs₂, ?_, ?_⟩
    · rw [hp₂, hp₁, hc₁, hl₁, hsize, List.append_assoc, piecesOf, Nat.add_assoc]
      rfl
    · rw [List.foldl_cons, hc₂, hc₁, init_pieceOf]
    · rw [List.foldl_cons, hl₂, hl₁, List.map_cons, List.sum_cons, Nat.add_assoc]

end CodeTableWriter

end OpenVcdiff
