import MethodBody.Instruction

namespace MethodBody

namespace Instruction

/-- The local that an instruction must name if its opcode does not fix the slot. -/
def requireLocal (x : Instruction) : Except Error Local :=
  match x.local? with
  | some l => .ok l
  | none => .error (.noLocal x.opcode)

/-- The access in the other direction to the same slot. Taking an address has none. -/
def counterpart (d : Direction) (x : Instruction) : Except Error Instruction :=
  if x.opcode.uses d then
    match x.opcode.valueAccess? with
    | some access =>
      if access.form.hasOperand then do
        let l ← x.requireLocal
        return ⟨access.complement.opcode, some (.declared l)⟩
      else .ok ⟨access.complement.opcode, none⟩
    | none => .error (.noCounterpart x.opcode)
  else .error (.wrongDirection d x.opcode)

end Instruction

/-- A load and a store of one slot. The half opposite to the source was made for the other. -/
structure AccessPair where
  load : Instruction
  store : Instruction
  source : Direction
deriving DecidableEq

namespace AccessPair

def half (p : AccessPair) : Direction → Instruction
  | .load => p.load
  | .store => p.store

/-- The half that was made for the source. -/
def complement (p : AccessPair) : Instruction :=
  p.half p.source.opposite

/-- Both halves name the local that the load names. -/
def local? (p : AccessPair) : Option Local :=
  p.load.local?

def alike (p q : AccessPair) : Bool :=
  p.load.alike q.load && p.store.alike q.store && p.source == q.source

def ofInstruction (x : Instruction) : Except Error AccessPair :=
  match x.opcode.valueAccess? with
  | none => .error (.noValueAccess x.opcode)
  | some access => do
    let y ← x.counterpart access.direction
    return match access.direction with
      | .load => ⟨x, y, .load⟩
      | .store => ⟨y, x, .store⟩

/-- An instruction may be absent, as it is behind the end of a method body. -/
def ofOption : Option Instruction → Except Error AccessPair
  | some x => ofInstruction x
  | none => .error .noInstruction

/-- The pair of a value access in the given direction. Any other instruction has none, whatever its
operand. -/
def matching? (d : Direction) (x : Instruction) : Except Error (Option AccessPair) :=
  if x.opcode.takesAddress then .ok none
  else if x.opcode.uses d then (ofInstruction x).map some
  else .ok none

end AccessPair

end MethodBody
