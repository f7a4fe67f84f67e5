import MethodBody.Instruction
import MethodBody.Text.Quoted

namespace MethodBody

def localName (index : UInt16) : List Char :=
  'V' :: '_' :: decimal index.toNat

def Operand.print : Operand → List Char
  | declared l => localName l.index
  | index n => decimal n.toNat
  | int32 v => signedDecimal v.toInt
  | int64 v => signedDecimal v.toInt
  | string s => quote s.toList
  | label v => signedDecimal v.toInt
  | token t => '0' :: 'x' :: hexDigits 8 t.toNat

def Instruction.print (x : Instruction) : List Char :=
  match x.operand with
  | some operand => x.opcode.mnemonic.toList ++ ' ' :: operand.print
  | none => x.opcode.mnemonic.toList

def Instruction.text (x : Instruction) : String :=
  String.ofList x.print

def printCode (code : List Instruction) : List Char :=
  code.flatMap fun x => x.print ++ ['\n']

def Declaration.print (d : Declaration) : List Char :=
  ".local ".toList ++ d.type.toList ++ if d.pinned then " pinned".toList else []

/-- One line for each local, then one for each instruction. -/
def printListing (locals : Locals) (code : List Instruction) : List Char :=
  (locals.toList.flatMap fun l => l.print ++ ['\n']) ++ printCode code

end MethodBody
