import MethodBody.Proofs.Operands
import Mathlib.Data.List.Forall2
import Mathlib.Data.Nat.Digits.Defs
import Mathlib.Tactic.Ring

namespace MethodBody

namespace Operand

variable {locals : Locals} {op : Opcode} {text : List Char} {x : Operand}

end Operand

end MethodBody
