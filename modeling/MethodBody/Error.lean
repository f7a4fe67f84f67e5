import MethodBody.Opcode
import MethodBody.Text.Numeral

namespace MethodBody

/-- A method declares fewer locals than a two-byte operand has values. -/
def localsLimit : Nat := 0xFFFF

/-- What the text of an operand was taken for when it was refused. -/
inductive OperandReading where
  | argument
  | localName
  | variableNumber
  | int8
  | int32
  | int64
  | branch
  | string
  | token
deriving DecidableEq

def OperandReading.word : OperandReading → String
  | .argument => "argument"
  | .localName => "local"
  | .variableNumber => "variable"
  | .int8 => "int8"
  | .int32 => "int32"
  | .int64 => "int64"
  | .branch => "branch"
  | .string => "string"
  | .token => "token"

inductive Fault where
  | unknownDirective (word : String)
  | missingType
  | unexpectedWord (word : String)
  | tooManyLocals
  | unknownMnemonic (name : String)
  | strayOperand (opcode : Opcode) (text : String)
  | invalidOperand (reading : OperandReading) (opcode : Opcode) (text : String)
  | undeclaredLocal (index : UInt16)
deriving DecidableEq

def tooManyLocalsMessage : String :=
  "method declares more than " ++ String.ofList (decimal localsLimit) ++ " locals"

def Fault.message : Fault → String
  | unknownDirective word => "unknown directive '" ++ word ++ "', expected '.local'"
  | missingType => "'.local' requires a type"
  | unexpectedWord word => "unexpected '" ++ word ++ "' after local type, expected 'pinned'"
  | tooManyLocals => tooManyLocalsMessage
  | unknownMnemonic name => "unknown opcode mnemonic '" ++ name ++ "'"
  | strayOperand opcode text => opcode.mnemonic ++ " takes no operand, found '" ++ text ++ "'"
  | invalidOperand reading opcode text =>
    "invalid " ++ reading.word ++ " operand '" ++ text ++ "' for " ++ opcode.mnemonic
  | undeclaredLocal index =>
    "local V_" ++ String.ofList (decimal index.toNat) ++ " is not declared"

inductive Error where
  | noInstruction
  | noValueAccess (opcode : Opcode)
  | wrongDirection (expected : Direction) (opcode : Opcode)
  | noLocal (opcode : Opcode)
  | noCounterpart (opcode : Opcode)
  | tooManyLocals
  | operandMisfit (opcode : Opcode)
  | atLine (line : Nat) (fault : Fault)
deriving DecidableEq

/-- Either something was asked for that cannot be had, or the code itself is malformed. -/
inductive ErrorKind where
  | request
  | code
deriving DecidableEq

def Error.kind : Error → ErrorKind
  | noInstruction => .request
  | noValueAccess _ => .request
  | wrongDirection _ _ => .request
  | tooManyLocals => .request
  | atLine _ _ => .request
  | noLocal _ => .code
  | noCounterpart _ => .code
  | operandMisfit _ => .code

def Error.message : Error → String
  | noInstruction => "instruction is absent"
  | noValueAccess opcode =>
    "instruction opcode is not a local load or store type: " ++ opcode.mnemonic
  | wrongDirection expected opcode =>
    "must be a " ++ expected.word ++ " instruction, found " ++ opcode.mnemonic
  | noLocal _ => "operand is not a valid local-variable reference, or is absent"
  | noCounterpart opcode => "unexpected opcode: " ++ opcode.mnemonic
  | tooManyLocals => tooManyLocalsMessage
  | operandMisfit opcode => "operand does not fit " ++ opcode.mnemonic
  | atLine line fault => "line " ++ String.ofList (decimal line) ++ ": " ++ fault.message

end MethodBody
