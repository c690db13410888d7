import NodeVcdiff.OpenVcdiff.DeltaWindow

/-!
# How instructions lie in the sections of a window

The writer appends to the sections and the reader takes from their front. In between the sections
are a list of opcodes, each with the one or two instructions it stands for.
-/

namespace OpenVcdiff

open InstructionMap (Entry entry1 entry2 Single)
open SelfCopy (Instruction)

namespace Sections

variable (s t : Sections) (bytes : List UInt8)

/-- Nothing in any section. -/
def empty : Bool → Sections
  | true => .interleaved []
  | false => .separate [] [] []

/-- More in front of the instructions. -/
def pushInstructions : Sections := s.setInstructions (bytes ++ s.instructions)

/-- More in front of the data. -/
def pushData : Sections := s.setData (bytes ++ s.data)

/-- More in front of the addresses. -/
def pushAddresses : Sections := s.setAddresses (bytes ++ s.addresses)

/-- The sections of two parts of a window, one after the other. -/
def append : Sections → Sections → Sections
  | separate i d a, t => separate (i ++ t.instructions) (d ++ t.data) (a ++ t.addresses)
  | interleaved s, t => interleaved (s ++ t.instructions)

variable {s t bytes}

@[simp] theorem empty_true : empty true = interleaved [] := rfl

@[simp] theorem empty_false : empty false = separate [] [] [] := rfl

@[simp] theorem pushInstructions_interleaved (i : List UInt8) :
    (interleaved i).pushInstructions bytes = interleaved (bytes ++ i) := rfl

@[simp] theorem pushInstructions_separate (i d a : List UInt8) :
    (separate i d a).pushInstructions bytes = separate (bytes ++ i) d a := rfl

@[simp] theorem append_interleaved (i i' : List UInt8) :
    (interleaved i).append (interleaved i') = interleaved (i ++ i') := rfl

@[simp] theorem append_separate (i d a i' d' a' : List UInt8) :
    (separate i d a).append (separate i' d' a') = separate (i ++ i') (d ++ d') (a ++ a') := rfl

@[simp] theorem isInterleaved_empty (b : Bool) : (empty b).isInterleaved = b := by cases b <;> rfl

@[simp] theorem instructions_empty (b : Bool) : (empty b).instructions = [] := by cases b <;> rfl

@[simp] theorem data_empty (b : Bool) : (empty b).data = [] := by cases b <;> rfl

@[simp] theorem addresses_empty (b : Bool) : (empty b).addresses = [] := by cases b <;> rfl

@[simp] theorem isInterleaved_pushInstructions :
    (s.pushInstructions bytes).isInterleaved = s.isInterleaved := by cases s <;> rfl

@[simp] theorem isInterleaved_pushData :
    (s.pushData bytes).isInterleaved = s.isInterleaved := by cases s <;> rfl

@[simp] theorem isInterleaved_pushAddresses :
    (s.pushAddresses bytes).isInterleaved = s.isInterleaved := by cases s <;> rfl

@[simp] theorem instructions_pushInstructions :
    (s.pushInstructions bytes).instructions = bytes ++ s.instructions := by cases s <;> rfl

@[simp] theorem data_pushData : (s.pushData bytes).data = bytes ++ s.data := by cases s <;> rfl

@[simp] theorem addresses_pushAddresses :
    (s.pushAddresses bytes).addresses = bytes ++ s.addresses := by cases s <;> rfl

/-- Taking what is in front of the instructions. -/
@[simp] theorem setInstructions_pushInstructions :
    (s.pushInstructions bytes).setInstructions s.instructions = s := by cases s <;> rfl

/-- Taking what is in front of the data. -/
@[simp] theorem setData_pushData : (s.pushData bytes).setData s.data = s := by cases s <;> rfl

/-- Taking what is in front of the addresses. -/
@[simp] theorem setAddresses_pushAddresses :
    (s.pushAddresses bytes).setAddresses s.addresses = s := by cases s <;> rfl

@[simp] theorem pushInstructions_nil : s.pushInstructions [] = s := by cases s <;> rfl

@[simp] theorem pushData_nil : s.pushData [] = s := by cases s <;> rfl

@[simp] theorem pushAddresses_nil : s.pushAddresses [] = s := by cases s <;> rfl

theorem pushInstructions_append (more : List UInt8) :
    s.pushInstructions (bytes ++ more) = (s.pushInstructions more).pushInstructions bytes := by
  cases s <;> simp [pushInstructions, setInstructions, instructions, List.append_assoc]

theorem empty_append (h : t.isInterleaved = s.isInterleaved) :
    (empty s.isInterleaved).append t = t := by
  cases s <;> cases t <;> first | rfl | cases h

theorem pushInstructions_of_append :
    (s.append t).pushInstructions bytes = (s.pushInstructions bytes).append t := by
  cases s <;> simp [append, pushInstructions, setInstructions, instructions, List.append_assoc]

theorem pushData_of_append : (s.append t).pushData bytes = (s.pushData bytes).append t := by
  cases s <;> simp [append, pushData, setData, data, instructions, List.append_assoc]

theorem pushAddresses_of_append :
    (s.append t).pushAddresses bytes = (s.pushAddresses bytes).append t := by
  cases s <;> simp [append, pushAddresses, setAddresses, addresses, instructions, List.append_assoc]

@[simp] theorem instructions_append :
    (s.append t).instructions = s.instructions ++ t.instructions := by cases s <;> rfl

end Sections

/-! ## Instructions -/

/-- What the writer writes of an instruction besides its size. -/
structure Piece where
  inst : InstructionType
  size : ℕ
  mode : ℕ
  data : List UInt8
  address : List UInt8
  deriving DecidableEq

/-- What is written of an instruction at `here`, and the address cache afterwards. -/
def pieceOf (c : AddressCache) (here : ℤ) : Instruction UInt8 → Piece × AddressCache
  | .add data => (⟨.add, data.length, 0, data, []⟩, c)
  | .run size byte => (⟨.run, size, 0, [byte], []⟩, c)
  | .copy address size =>
    let r := c.encodeAddress address here
    (⟨.copy, size, r.1, [], c.addressBytes r.1 r.2.1⟩, r.2.2)

/-- What is written of a script when `produced` bytes of source and target are there. -/
def piecesOf (c : AddressCache) (produced : ℕ) : List (Instruction UInt8) → List Piece
  | [] => []
  | i :: is =>
    let r := pieceOf c (toInt32 produced) i
    r.1 :: piecesOf r.2 (produced + i.size) is

/-- An instruction with the bytes of its size. -/
structure Coded where
  piece : Piece
  size : List UInt8
  deriving DecidableEq

namespace Coded

/-- An opcode's entry stands for the instruction: the size is in the opcode or after it. -/
def Fits (x : Coded) (e : Entry) : Prop :=
  (e.Is x.piece.inst x.piece.size x.piece.mode ∧ x.size = []) ∨
    (e.Is x.piece.inst 0 x.piece.mode ∧ x.size = CodeTableWriter.sizeBytes x.piece.size)

/-- The instruction in front of what comes after it. -/
def push (x : Coded) (s : Sections) : Sections :=
  ((s.pushAddresses x.piece.address).pushData x.piece.data).pushInstructions x.size

end Coded

/-! ## Opcodes -/

/-- An opcode with its instructions. -/
inductive Group where
  | one (opcode : UInt8) (first : Coded)
  | two (opcode : UInt8) (first second : Coded)
  deriving DecidableEq

namespace Group

/-- The opcode. -/
def opcode : Group → UInt8
  | one op _ => op
  | two op _ _ => op

/-- The instructions. -/
def pieces : Group → List Piece
  | one _ x => [x.piece]
  | two _ x y => [x.piece, y.piece]

/-- In front of what comes after it. -/
def push (s : Sections) : Group → Sections
  | one op x => (x.push s).pushInstructions [op]
  | two op x y => (x.push (y.push s)).pushInstructions [op]

/-- The code table has the opcode for these instructions. -/
def Valid (t : CodeTableData) : Group → Prop
  | one op x => (t.inst2.at op = 0 ∧ x.Fits (entry1 t op)) ∨ (t.inst1.at op = 0 ∧ x.Fits (entry2 t op))
  | two op x y => t.inst1.at op ≠ 0 ∧ t.inst2.at op ≠ 0 ∧ x.Fits (entry1 t op) ∧ y.Fits (entry2 t op)

end Group

/-- The sections that opcodes make up. -/
def layout (interleaved : Bool) (gs : List Group) : Sections :=
  gs.foldr (fun g s => g.push s) (.empty interleaved)

section Layout

variable {b : Bool} {gs hs : List Group} {g : Group} {s t : Sections} {x : Coded}

@[simp] theorem Coded.push_interleaved (i : List UInt8) : x.push (.interleaved i) =
    .interleaved (x.size ++ (x.piece.data ++ (x.piece.address ++ i))) := rfl

@[simp] theorem Coded.push_separate (i d a : List UInt8) : x.push (.separate i d a) =
    .separate (x.size ++ i) (x.piece.data ++ d) (x.piece.address ++ a) := rfl

theorem Coded.push_append : x.push (s.append t) = (x.push s).append t := by
  unfold Coded.push
  rw [Sections.pushAddresses_of_append, Sections.pushData_of_append,
    Sections.pushInstructions_of_append]

theorem Group.push_append : g.push (s.append t) = (g.push s).append t := by
  cases g with
  | one op x => rw [push, push, Coded.push_append, Sections.pushInstructions_of_append]
  | two op x y =>
    rw [push, push, Coded.push_append, Coded.push_append, Sections.pushInstructions_of_append]

@[simp] theorem Coded.isInterleaved_push : (x.push s).isInterleaved = s.isInterleaved := by
  simp [Coded.push]

@[simp] theorem Group.isInterleaved_push : (g.push s).isInterleaved = s.isInterleaved := by
  cases g <;> simp [push]

theorem Group.instructions_push :
    ∃ rest, (g.push s).instructions = g.opcode :: rest := by
  cases g <;> exact ⟨_, by rw [push, Sections.instructions_pushInstructions]; rfl⟩

@[simp] theorem isInterleaved_layout : (layout b gs).isInterleaved = b := by
  induction gs with
  | nil => exact Sections.isInterleaved_empty b
  | cons g gs ih => exact Group.isInterleaved_push.trans ih

theorem layout_append : layout b (gs ++ hs) = (layout b gs).append (layout b hs) := by
  induction gs with
  | nil =>
    have h := Sections.empty_append (s := Sections.empty b) (t := layout b hs) (by simp)
    rw [Sections.isInterleaved_empty] at h
    exact h.symm
  | cons g gs ih =>
    show g.push (layout b (gs ++ hs)) = (g.push (layout b gs)).append (layout b hs)
    rw [ih, Group.push_append]

end Layout

end OpenVcdiff
