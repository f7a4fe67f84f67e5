import MethodBody.AccessPair

namespace MethodBody

/-- Puts the load of a stored local right behind the store, so that the value stays on the
stack. -/
def reloadAfter (position : Nat) (code : List Instruction) : Except Error (List Instruction) :=
  match code[position]? with
  | none => .error .noInstruction
  | some x => do
    match ← AccessPair.matching? .store x with
    | some p => return code.insertIdx (position + 1) p.complement
    | none => .error (.wrongDirection .store x.opcode)

/-- Turns a value access into the access in the other direction. -/
def complementAt (position : Nat) (code : List Instruction) : Except Error (List Instruction) := do
  let p ← AccessPair.ofOption code[position]?
  return code.set position p.complement

end MethodBody
