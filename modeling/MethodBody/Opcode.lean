import MethodBody.ValueAccess

namespace MethodBody

inductive OperandKind where
  | nothing
  | shortVariable
  | longVariable
  | int8
  | int32
  | int64
  | branch
  | string
  | token
deriving DecidableEq

def OperandKind.size : OperandKind → Nat
  | .nothing => 0
  | .shortVariable | .int8 => 1
  | .longVariable => 2
  | .int32 | .branch | .string | .token => 4
  | .int64 => 8

inductive Opcode where
  | nop
  | ldarg0
  | ldarg1
  | ldarg2
  | ldarg3
  | ldloc0
  | ldloc1
  | ldloc2
  | ldloc3
  | stloc0
  | stloc1
  | stloc2
  | stloc3
  | ldargS
  | stargS
  | ldlocS
  | ldlocaS
  | stlocS
  | ldnull
  | ldcI4Zero
  | ldcI4One
  | ldcI4S
  | ldcI4
  | ldcI8
  | dup
  | pop
  | call
  | ret
  | br
  | brfalse
  | brtrue
  | add
  | sub
  | mul
  | callvirt
  | ldstr
  | newobj
  | ldfld
  | stfld
  | ldarg
  | starg
  | ldloc
  | ldloca
  | stloc
deriving DecidableEq

namespace Opcode

/-- Every opcode once, by increasing number. -/
def all : List Opcode :=
  [nop, ldarg0, ldarg1, ldarg2, ldarg3, ldloc0, ldloc1, ldloc2, ldloc3, stloc0, stloc1, stloc2,
    stloc3, ldargS, stargS, ldlocS, ldlocaS, stlocS, ldnull, ldcI4Zero, ldcI4One, ldcI4S, ldcI4,
    ldcI8, dup, pop, call, ret, br, brfalse, brtrue, add, sub, mul, callvirt, ldstr, newobj, ldfld,
    stfld, ldarg, starg, ldloc, ldloca, stloc]

def mnemonic : Opcode → String
  | nop => "nop"
  | ldarg0 => "ldarg.0"
  | ldarg1 => "ldarg.1"
  | ldarg2 => "ldarg.2"
  | ldarg3 => "ldarg.3"
  | ldloc0 => "ldloc.0"
  | ldloc1 => "ldloc.1"
  | ldloc2 => "ldloc.2"
  | ldloc3 => "ldloc.3"
  | stloc0 => "stloc.0"
  | stloc1 => "stloc.1"
  | stloc2 => "stloc.2"
  | stloc3 => "stloc.3"
  | ldargS => "ldarg.s"
  | stargS => "starg.s"
  | ldlocS => "ldloc.s"
  | ldlocaS => "ldloca.s"
  | stlocS => "stloc.s"
  | ldnull => "ldnull"
  | ldcI4Zero => "ldc.i4.0"
  | ldcI4One => "ldc.i4.1"
  | ldcI4S => "ldc.i4.s"
  | ldcI4 => "ldc.i4"
  | ldcI8 => "ldc.i8"
  | dup => "dup"
  | pop => "pop"
  | call => "call"
  | ret => "ret"
  | br => "br"
  | brfalse => "brfalse"
  | brtrue => "brtrue"
  | add => "add"
  | sub => "sub"
  | mul => "mul"
  | callvirt => "callvirt"
  | ldstr => "ldstr"
  | newobj => "newobj"
  | ldfld => "ldfld"
  | stfld => "stfld"
  | ldarg => "ldarg"
  | starg => "starg"
  | ldloc => "ldloc"
  | ldloca => "ldloca"
  | stloc => "stloc"

/-- Opcodes of two bytes have numbers above `0xFF`, with the first byte in the upper half. -/
def number : Opcode → UInt16
  | nop => 0x00
  | ldarg0 => 0x02
  | ldarg1 => 0x03
  | ldarg2 => 0x04
  | ldarg3 => 0x05
  | ldloc0 => 0x06
  | ldloc1 => 0x07
  | ldloc2 => 0x08
  | ldloc3 => 0x09
  | stloc0 => 0x0A
  | stloc1 => 0x0B
  | stloc2 => 0x0C
  | stloc3 => 0x0D
  | ldargS => 0x0E
  | stargS => 0x10
  | ldlocS => 0x11
  | ldlocaS => 0x12
  | stlocS => 0x13
  | ldnull => 0x14
  | ldcI4Zero => 0x16
  | ldcI4One => 0x17
  | ldcI4S => 0x1F
  | ldcI4 => 0x20
  | ldcI8 => 0x21
  | dup => 0x25
  | pop => 0x26
  | call => 0x28
  | ret => 0x2A
  | br => 0x38
  | brfalse => 0x39
  | brtrue => 0x3A
  | add => 0x58
  | sub => 0x59
  | mul => 0x5A
  | callvirt => 0x6F
  | ldstr => 0x72
  | newobj => 0x73
  | ldfld => 0x7B
  | stfld => 0x7D
  | ldarg => 0xFE09
  | starg => 0xFE0B
  | ldloc => 0xFE0C
  | ldloca => 0xFE0D
  | stloc => 0xFE0E

/-- The opcode as it stands in a method body: its page, if it has one, then its lower half. -/
def bytes (op : Opcode) : List UInt8 :=
  if op.number ≤ 0xFF then [op.number.toUInt8] else [(op.number >>> 8).toUInt8, op.number.toUInt8]

def size (op : Opcode) : Nat :=
  if op.number ≤ 0xFF then 1 else 2

theorem length_bytes (op : Opcode) : op.bytes.length = op.size := by
  unfold bytes size
  split <;> rfl

def operandKind : Opcode → OperandKind
  | ldargS | stargS | ldlocS | ldlocaS | stlocS => .shortVariable
  | ldarg | starg | ldloc | ldloca | stloc => .longVariable
  | ldcI4S => .int8
  | ldcI4 => .int32
  | ldcI8 => .int64
  | br | brfalse | brtrue => .branch
  | ldstr => .string
  | call | callvirt | newobj | ldfld | stfld => .token
  | _ => .nothing

/-- The value access an opcode performs. Taking the address of a local is none. -/
def valueAccess? : Opcode → Option ValueAccess
  | ldloc0 => some ⟨.load, .fixed 0⟩
  | ldloc1 => some ⟨.load, .fixed 1⟩
  | ldloc2 => some ⟨.load, .fixed 2⟩
  | ldloc3 => some ⟨.load, .fixed 3⟩
  | ldlocS => some ⟨.load, .compact⟩
  | ldloc => some ⟨.load, .general⟩
  | stloc0 => some ⟨.store, .fixed 0⟩
  | stloc1 => some ⟨.store, .fixed 1⟩
  | stloc2 => some ⟨.store, .fixed 2⟩
  | stloc3 => some ⟨.store, .fixed 3⟩
  | stlocS => some ⟨.store, .compact⟩
  | stloc => some ⟨.store, .general⟩
  | _ => none

def takesAddress : Opcode → Bool
  | ldloca | ldlocaS => true
  | _ => false

/-- Taking an address counts as a load here, although it is no value access. -/
def uses (d : Direction) (op : Opcode) : Bool :=
  (d == .load && op.takesAddress) || op.valueAccess?.any (·.direction == d)

/-- Letter case is ignored for the ASCII letters alone. -/
def ofMnemonic? (name : List Char) : Option Opcode :=
  let lower := String.ofList (name.map Char.toLower)
  all.find? (·.mnemonic == lower)

end Opcode

def ValueAccess.opcode : ValueAccess → Opcode
  | ⟨.load, .fixed 0⟩ => .ldloc0
  | ⟨.load, .fixed 1⟩ => .ldloc1
  | ⟨.load, .fixed 2⟩ => .ldloc2
  | ⟨.load, .fixed 3⟩ => .ldloc3
  | ⟨.load, .compact⟩ => .ldlocS
  | ⟨.load, .general⟩ => .ldloc
  | ⟨.store, .fixed 0⟩ => .stloc0
  | ⟨.store, .fixed 1⟩ => .stloc1
  | ⟨.store, .fixed 2⟩ => .stloc2
  | ⟨.store, .fixed 3⟩ => .stloc3
  | ⟨.store, .compact⟩ => .stlocS
  | ⟨.store, .general⟩ => .stloc

theorem ValueAccess.valueAccess?_opcode (a : ValueAccess) : a.opcode.valueAccess? = some a := by
  obtain ⟨d, f⟩ := a
  match d, f with
  | .load, .fixed 0 | .load, .fixed 1 | .load, .fixed 2 | .load, .fixed 3 => rfl
  | .store, .fixed 0 | .store, .fixed 1 | .store, .fixed 2 | .store, .fixed 3 => rfl
  | .load, .compact | .load, .general | .store, .compact | .store, .general => rfl

theorem Opcode.opcode_of_valueAccess? {op : Opcode} {a : ValueAccess}
    (h : op.valueAccess? = some a) : a.opcode = op := by
  cases op <;> simp [valueAccess?] at h <;> subst h <;> rfl

end MethodBody
