import NodeVcdiff.OpenVcdiff.AddressCache

/-!
# `codetable.cc`

A code table gives each opcode two instructions, with their sizes and modes.
-/

namespace OpenVcdiff

/-- `VCDiffInstructionType`, without the two values that report a failure. -/
inductive InstructionType where
  | noop
  | add
  | run
  | copy
  deriving DecidableEq, Repr

/-- The byte of an instruction type. -/
def InstructionType.toByte : InstructionType → UInt8
  | noop => 0
  | add => 1
  | run => 2
  | copy => 3

/-- The instruction type of a byte. Other bytes do not pass `Validate`. -/
def InstructionType.ofByte (b : UInt8) : Option InstructionType :=
  if b = 0 then some noop
  else if b = 1 then some add
  else if b = 2 then some run
  else if b = 3 then some copy
  else none

/-- `VCD_LAST_INSTRUCTION_TYPE`. -/
def VCD_LAST_INSTRUCTION_TYPE : ℕ := 3

/-- `kCodeTableSize`. -/
def kCodeTableSize : ℕ := 256

/-- An array with an entry for each opcode. -/
def OpcodeArray := { entries : List UInt8 // entries.length = kCodeTableSize }

instance : DecidableEq OpcodeArray := inferInstanceAs (DecidableEq { _entries : List UInt8 // _ })

/-- The entry of an opcode. -/
def OpcodeArray.at (t : OpcodeArray) (opcode : UInt8) : UInt8 := t.1.getD opcode.toNat 0

/-- `VCDiffCodeTableData`. -/
structure CodeTableData where
  inst1 : OpcodeArray
  inst2 : OpcodeArray
  size1 : OpcodeArray
  size2 : OpcodeArray
  mode1 : OpcodeArray
  mode2 : OpcodeArray
  deriving DecidableEq

namespace CodeTableData

section Default

/-! The rows of `kDefaultCodeTableData`, with `n` entries `b` written as `row n b`. -/

/-- Entries that are all the same. -/
def row (n : ℕ) (b : UInt8) : List UInt8 := List.replicate n b

/-- `n` entries that count up from `start`. -/
def count (n start : ℕ) : List UInt8 := (List.range' start n).map UInt8.ofNat

/-- Some entries a number of times. -/
def times (n : ℕ) (entries : List UInt8) : List UInt8 := (List.replicate n entries).flatten

/-- `kDefaultCodeTableData`. -/
def kDefaultCodeTableData : CodeTableData where
  inst1 := ⟨row 1 2 ++ row 18 1 ++ row 144 3 ++ row 84 1 ++ row 9 3, by decide +kernel⟩
  inst2 := ⟨row 1 0 ++ row 18 0 ++ row 144 0 ++ row 84 3 ++ row 9 1, by decide +kernel⟩
  size1 := ⟨row 1 0 ++ (row 1 0 ++ count 17 1) ++ times 9 (row 1 0 ++ count 15 4) ++
    times 6 (row 3 1 ++ row 3 2 ++ row 3 3 ++ row 3 4) ++ times 3 (count 4 1) ++ row 9 4,
    by decide +kernel⟩
  size2 := ⟨row 1 0 ++ row 18 0 ++ row 144 0 ++ times 6 (times 4 (count 3 4)) ++
    times 3 (row 4 4) ++ row 9 1, by decide +kernel⟩
  mode1 := ⟨row 1 0 ++ row 18 0 ++ (row 16 0 ++ row 16 1 ++ row 16 2 ++ row 16 3 ++ row 16 4 ++
    row 16 5 ++ row 16 6 ++ row 16 7 ++ row 16 8) ++ row 84 0 ++ count 9 0, by decide +kernel⟩
  mode2 := ⟨row 1 0 ++ row 18 0 ++ row 144 0 ++ (row 12 0 ++ row 12 1 ++ row 12 2 ++ row 12 3 ++
    row 12 4 ++ row 12 5 ++ row 4 6 ++ row 4 7 ++ row 4 8) ++ row 9 0, by decide +kernel⟩

end Default

/-- The table as it lies in memory. -/
def toBytes (t : CodeTableData) : List UInt8 :=
  t.inst1.1 ++ t.inst2.1 ++ t.size1.1 ++ t.size2.1 ++ t.mode1.1 ++ t.mode2.1

/-- The table that is copied from memory. -/
def ofBytes (bytes : List UInt8) (h : bytes.length = 6 * kCodeTableSize) : CodeTableData :=
  let array (i : ℕ) (hi : i < 6) : OpcodeArray :=
    ⟨(bytes.drop (i * kCodeTableSize)).take kCodeTableSize, by
      rw [List.length_take, List.length_drop, h]
      unfold kCodeTableSize
      omega⟩
  ⟨array 0 (by decide), array 1 (by decide), array 2 (by decide), array 3 (by decide),
    array 4 (by decide), array 5 (by decide)⟩

/-- The opcodes in the order of the loops over the table. -/
def opcodes : List UInt8 := (List.range kCodeTableSize).map UInt8.ofNat

/-- `ValidateOpcode`. -/
def validateOpcode (inst size mode : UInt8) (maxMode : ℕ) : Bool :=
  decide (inst.toNat ≤ VCD_LAST_INSTRUCTION_TYPE) && decide (mode.toNat ≤ maxMode) &&
    !(decide (inst = 0) && decide (size ≠ 0)) && !(decide (inst ≠ 3) && decide (mode ≠ 0))

variable (t : CodeTableData)

/-- An opcode that encodes one instruction of any size: the condition under which `Validate` sets
the flag `hasOpcodeForTypeAndMode[k]`. -/
def hasOpcodeForTypeAndMode (k : ℕ) (opcode : UInt8) : Bool :=
  decide (t.size1.at opcode = 0) && decide (t.inst2.at opcode = 0) &&
    decide ((t.inst1.at opcode).toNat + (t.mode1.at opcode).toNat = k)

/-- `Validate`. -/
def validate (maxMode : ℕ) : Bool :=
  (opcodes.all fun opcode =>
    validateOpcode (t.inst1.at opcode) (t.size1.at opcode) (t.mode1.at opcode) maxMode &&
      validateOpcode (t.inst2.at opcode) (t.size2.at opcode) (t.mode2.at opcode) maxMode) &&
  (List.range (VCD_LAST_INSTRUCTION_TYPE + maxMode + 1)).all fun k =>
    decide (k = 0) || opcodes.any (t.hasOpcodeForTypeAndMode k)

/-- What the encoder and the decoder rely on. -/
structure Valid (maxMode : ℕ) : Prop where
  first : ∀ opcode,
    validateOpcode (t.inst1.at opcode) (t.size1.at opcode) (t.mode1.at opcode) maxMode = true
  second : ∀ opcode,
    validateOpcode (t.inst2.at opcode) (t.size2.at opcode) (t.mode2.at opcode) maxMode = true
  single : ∀ k, 0 < k → k ≤ VCD_LAST_INSTRUCTION_TYPE + maxMode →
    ∃ opcode, t.hasOpcodeForTypeAndMode k opcode = true

theorem mem_opcodes (opcode : UInt8) : opcode ∈ opcodes :=
  List.mem_map.mpr ⟨opcode.toNat, List.mem_range.mpr opcode.toNat_lt, UInt8.ofNat_toNat⟩

variable {t}

/-- An instruction other than COPY has no mode. -/
theorem mode_eq_zero {inst size mode : UInt8} {maxMode : ℕ}
    (h : validateOpcode inst size mode maxMode = true) (hi : inst ≠ 3) : mode = 0 := by
  unfold validateOpcode at h
  simp only [Bool.and_eq_true, Bool.not_eq_true', Bool.and_eq_false_iff, decide_eq_false_iff_not,
    decide_eq_true_iff, not_not] at h
  exact h.2.resolve_left hi

theorem inst_le {inst size mode : UInt8} {maxMode : ℕ}
    (h : validateOpcode inst size mode maxMode = true) : inst.toNat ≤ 3 := by
  unfold validateOpcode at h
  simp only [Bool.and_eq_true, decide_eq_true_iff] at h
  exact h.1.1.1

theorem mode_le {inst size mode : UInt8} {maxMode : ℕ}
    (h : validateOpcode inst size mode maxMode = true) : mode.toNat ≤ maxMode := by
  unfold validateOpcode at h
  simp only [Bool.and_eq_true, decide_eq_true_iff] at h
  exact h.1.1.2

end CodeTableData

end OpenVcdiff
