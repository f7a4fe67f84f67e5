import MethodBody.Instruction

namespace MethodBody

/-- The low bytes of a number, least significant first. -/
def littleEndian : Nat → Nat → List UInt8
  | 0, _ => []
  | width + 1, n => n.toUInt8 :: littleEndian width (n / 256)

@[simp] theorem length_littleEndian (width n : Nat) : (littleEndian width n).length = width := by
  induction width generalizing n with
  | zero => rfl
  | succ width ih => simp [littleEndian, ih]

def Operand.variableNumber? : Operand → Option UInt16
  | .declared l => some l.index
  | .index n => some n
  | _ => none

/-- The number that stands for an operand of the right kind and width, in two's complement if
signed. -/
def OperandKind.payload? : OperandKind → Option Operand → Option Nat
  | .nothing, none => some 0
  | .shortVariable, some x => (x.variableNumber?.map UInt16.toNat).filter (· < 256)
  | .longVariable, some x => x.variableNumber?.map UInt16.toNat
  | .int8, some (.int32 v) => if -128 ≤ v ∧ v ≤ 127 then some v.toUInt32.toNat else none
  | .int32, some (.int32 v) => some v.toUInt32.toNat
  | .branch, some (.label v) => some v.toUInt32.toNat
  | .int64, some (.int64 v) => some v.toUInt64.toNat
  | .string, some (.token t) => some t.toNat
  | .token, some (.token t) => some t.toNat
  | _, _ => none

namespace Instruction

def size (x : Instruction) : Nat :=
  x.opcode.size + x.opcode.operandKind.size

/-- The opcode followed by the operand, least significant byte first. -/
def encode (x : Instruction) : Except Error (List UInt8) :=
  match x.opcode.operandKind.payload? x.operand with
  | some n => .ok (x.opcode.bytes ++ littleEndian x.opcode.operandKind.size n)
  | none => .error (.operandMisfit x.opcode)

theorem length_of_encode {x : Instruction} {bytes : List UInt8} (h : x.encode = .ok bytes) :
    bytes.length = x.size := by
  unfold encode at h
  split at h
  next =>
    cases h
    simp [size, Opcode.length_bytes]
  next => cases h

end Instruction

def encodeAll (code : List Instruction) : Except Error (List UInt8) :=
  (code.mapM Instruction.encode).map List.flatten

def hexText (bytes : List UInt8) : List Char :=
  bytes.flatMap fun b => hexDigits 2 b.toNat

end MethodBody
