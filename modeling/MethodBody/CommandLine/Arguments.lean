import MethodBody.ValueAccess
import MethodBody.Text.Numeral

namespace MethodBody

/-- The options of a command: one with a value, by letter or name, and perhaps a flag. -/
structure OptionTable where
  letter : Char
  name : List Char
  flag : Option (List Char)

/-- What the arguments said so far. An option with a value expects it in the next argument. -/
structure Arguments where
  inputs : List String
  value : Option (List Char)
  flagged : Bool
  expecting : Bool
  ended : Bool

namespace Arguments

def start : Arguments :=
  ⟨[], none, false, false, false⟩

/-- No option may be given twice. -/
def give (a : Arguments) (value : List Char) : Option Arguments :=
  if a.value.isSome then none else some { a with value := some value, expecting := false }

/-- A name may have its value behind an equals sign. -/
def addName (t : OptionTable) (a : Arguments) (name : List Char) : Option Arguments :=
  match name.dropWhile (· != '=') with
  | _ :: value => if name.takeWhile (· != '=') = t.name then a.give value else none
  | [] =>
    if name = t.name then some { a with expecting := true }
    else if some name = t.flag ∧ !a.flagged then some { a with flagged := true }
    else none

/-- A letter may have its value right behind it, with or without an equals sign. -/
def addLetter (t : OptionTable) (a : Arguments) (letter : Char) (value : List Char) :
    Option Arguments :=
  if letter = t.letter then
    match value with
    | [] => some { a with expecting := true }
    | '=' :: value => a.give value
    | value => a.give value
  else none

/-- A separate value never begins with a minus sign, unless it is nothing else. -/
def addValue (a : Arguments) : List Char → Option Arguments
  | '-' :: _ :: _ => none
  | value => a.give value

def add (t : OptionTable) (a : Arguments) (arg : String) : Option Arguments :=
  if a.expecting then a.addValue arg.toList
  else if a.ended then some { a with inputs := arg :: a.inputs }
  else
    match arg.toList with
    | ['-', '-'] => some { a with ended := true }
    | '-' :: '-' :: name => a.addName t name
    | '-' :: letter :: value => a.addLetter t letter value
    | _ => some { a with inputs := arg :: a.inputs }

def read (t : OptionTable) (args : List String) : Option Arguments :=
  (args.foldlM (add t) start).filter (!·.expecting)

def input? (a : Arguments) : Option String :=
  match a.inputs with
  | [path] => if path.isEmpty then none else some path
  | _ => none

end Arguments

inductive Command where
  | complement (input : String) (wanted : Option Direction) (json : Bool)
  | reload (input : String) (position : Nat)
deriving DecidableEq

namespace Command

def input : Command → String
  | complement input _ _ => input
  | reload input _ => input

/-- Both directions are wanted if none is named. -/
def readWanted : Option (List Char) → Option (Option Direction)
  | none => some none
  | some word =>
    if word = "any".toList then some none
    else if word = Direction.load.word.toList then some (some .load)
    else if word = Direction.store.word.toList then some (some .store)
    else none

/-- There is no command for arguments that are not exactly those of one. -/
def ofArguments? : List String → Option Command
  | "complement" :: args => do
    let a ← Arguments.read ⟨'d', "direction".toList, some "json".toList⟩ args
    let path ← a.input?
    let wanted ← readWanted a.value
    return complement path wanted a.flagged
  | "reload" :: args => do
    let a ← Arguments.read ⟨'a', "at".toList, none⟩ args
    let path ← a.input?
    let value ← a.value
    let position ← readBelow UInt64.size 10 value
    return reload path position
  | _ => none

end Command

end MethodBody
