import MethodBody.Instruction
import MethodBody.Text.Line
import MethodBody.Text.Quoted

namespace MethodBody

/-- The arguments of a `.local` directive. A longer word such as `.locals` is no such directive. -/
def directive? (line : List Char) : Option (List Char) :=
  (".local".toList.isPrefixOf? line).filter fun args => args.head?.all isBlank

/-- Reads a type and the word `pinned`, if it is there. Words behind these are ignored. -/
def readDeclaration (args : List Char) : Except Fault Declaration :=
  match nextWord? args with
  | none => .error .missingType
  | some (type, rest) =>
    match nextWord? rest with
    | none => .ok ⟨String.ofList type, false⟩
    | some (word, _) =>
      if word = "pinned".toList then .ok ⟨String.ofList type, true⟩
      else .error (.unexpectedWord (String.ofList word))

/-- Declares the local of a directive line and passes over every line that is no directive. -/
def readLocal (locals : Locals) (line : List Char) : Except Fault Locals :=
  match directive? line with
  | some args => do
    let d ← readDeclaration args
    match locals.declare d with
    | (.ok _, locals) => return locals
    | (.error _, _) => .error .tooManyLocals
  | none =>
    if line.head? = some '.' then .error (.unknownDirective (String.ofList (splitWord line).1))
    else .ok locals

def readLocals (method : Nat) (text : String) : Except Error Locals :=
  (effectiveLines text.toList).foldlM
    (fun locals (n, line) => (readLocal locals line).mapError (.atLine n)) (.empty method)

/-- A label runs from `IL_` at the start of a line to the first colon. -/
def behindLabel (line : List Char) : List Char :=
  match line.dropWhile (· != ':') with
  | ':' :: rest => if "IL_".toList.isPrefixOf line then trim rest else line
  | _ => line

def readToken : List Char → Option UInt32
  | '0' :: 'x' :: cs => (readBelow UInt32.size 16 cs).map Nat.toUInt32
  | '0' :: 'X' :: cs => (readBelow UInt32.size 16 cs).map Nat.toUInt32
  | _ => none

def readVariable (cs : List Char) : Option UInt16 :=
  (readBelow UInt16.size 10 cs).map Nat.toUInt16

def orInvalid (reading : OperandReading) (op : Opcode) (text : List Char) :
    Option Operand → Except Fault Operand
  | some operand => .ok operand
  | none => .error (.invalidOperand reading op (String.ofList text))

/-- Only an opcode that uses a local can name one. -/
def readLocalName (locals : Locals) (op : Opcode) (text number : List Char) :
    Except Fault Operand :=
  if op.uses .load || op.uses .store then
    match readVariable number with
    | some n =>
      match locals.get? n with
      | some l => .ok (.declared l)
      | none => .error (.undeclaredLocal n)
    | none => .error (.invalidOperand .localName op (String.ofList text))
  else .error (.invalidOperand .argument op (String.ofList text))

/-- A variable is given by the name of a declared local or by a bare number. -/
def readVariableOperand (locals : Locals) (op : Opcode) (text : List Char) :
    Except Fault Operand :=
  match text with
  | 'V' :: '_' :: number => readLocalName locals op text number
  | _ => orInvalid .variableNumber op text ((readVariable text).map .index)

/-- Reads an operand of the kind that the opcode expects. A string may be given as a token. -/
def readOperand (locals : Locals) (op : Opcode) (text : List Char) : Except Fault Operand :=
  match op.operandKind with
  | .nothing => .error (.strayOperand op (String.ofList text))
  | .shortVariable | .longVariable => readVariableOperand locals op text
  | .int8 =>
    orInvalid .int8 op text ((readWithin Int8.size text).map fun v => .int32 (.ofInt v))
  | .int32 =>
    orInvalid .int32 op text ((readWithin Int32.size text).map fun v => .int32 (.ofInt v))
  | .int64 =>
    orInvalid .int64 op text ((readWithin Int64.size text).map fun v => .int64 (.ofInt v))
  | .branch =>
    orInvalid .branch op text ((readWithin Int32.size text).map fun v => .label (.ofInt v))
  | .string =>
    match readToken text with
    | some t => .ok (.token t)
    | none =>
      orInvalid .string op text ((readQuoted text).map fun s => .string (String.ofList s))
  | .token => orInvalid .token op text ((readToken text).map .token)

/-- Reads a mnemonic and its operand behind an optional label. Any opcode may go without its
operand. -/
def readInstruction (locals : Locals) (line : List Char) : Except Fault Instruction :=
  let (name, rest) := splitWord (behindLabel line)
  match Opcode.ofMnemonic? name with
  | none => .error (.unknownMnemonic (String.ofList name))
  | some op =>
    match trim rest with
    | [] => .ok ⟨op, none⟩
    | c :: cs => do
      let operand ← readOperand locals op (c :: cs)
      return ⟨op, some operand⟩

def codeLines (text : String) : List (Nat × List Char) :=
  (effectiveLines text.toList).filter fun (_, line) => (directive? line).isNone

def readCode (locals : Locals) (text : String) : Except Error (List Instruction) :=
  (codeLines text).mapM fun (n, line) => (readInstruction locals line).mapError (.atLine n)

end MethodBody
