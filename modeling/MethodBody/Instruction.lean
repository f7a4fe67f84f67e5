import MethodBody.Locals

namespace MethodBody

/-- Labels count bytes from the end of the instruction. An index numbers an argument or an
unresolved local. -/
inductive Operand where
  | declared (l : Local)
  | index (n : UInt16)
  | int32 (v : Int32)
  | int64 (v : Int64)
  | string (s : String)
  | label (v : Int32)
  | token (t : UInt32)
deriving DecidableEq

def Operand.local? : Operand → Option Local
  | .declared l => some l
  | _ => none

/-- Equal by value, so that locals may be those of different tables. -/
def Operand.alike : Operand → Operand → Bool
  | .declared a, .declared b => a.alike b
  | a, b => a == b

structure Instruction where
  opcode : Opcode
  operand : Option Operand
deriving DecidableEq

inductive Slot where
  | fixed (slot : Fin 4)
  | declared (l : Local)
deriving DecidableEq

def Slot.index : Slot → UInt16
  | .fixed slot => slot.val.toUInt16
  | .declared l => l.index

/-- Fixed slots are compared by number, declared ones by identity. -/
def Slot.same : Slot → Slot → Bool
  | .fixed a, .fixed b => a == b
  | .declared a, .declared b => a.same b
  | _, _ => false

namespace Instruction

def local? (x : Instruction) : Option Local :=
  x.operand.bind Operand.local?

/-- An instruction that names its slot by an operand has one only if that is a declared local. -/
def slot? (x : Instruction) : Option Slot :=
  x.opcode.valueAccess?.bind fun access =>
    match access.form with
    | .fixed slot => some (.fixed slot)
    | .compact => x.local?.map .declared
    | .general => x.local?.map .declared

/-- Equal by value, so that locals may be those of different tables. -/
def alike (x y : Instruction) : Bool :=
  x.opcode == y.opcode &&
    match x.operand, y.operand with
    | some a, some b => a.alike b
    | none, none => true
    | _, _ => false

end Instruction

end MethodBody
