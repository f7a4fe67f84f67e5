namespace MethodBody

/-- A value access reads a local onto the stack or writes the stack top into it. -/
inductive Direction where
  | load
  | store
deriving DecidableEq

def Direction.opposite : Direction → Direction
  | .load => .store
  | .store => .load

def Direction.word : Direction → String
  | .load => "load"
  | .store => "store"

@[simp] theorem Direction.opposite_opposite (d : Direction) : d.opposite.opposite = d := by
  cases d <;> rfl

/-- A local among the first four has opcodes of its own. Others need one or two operand bytes. -/
inductive SlotForm where
  | fixed (slot : Fin 4)
  | compact
  | general
deriving DecidableEq

def SlotForm.hasOperand : SlotForm → Bool
  | .fixed _ => false
  | .compact => true
  | .general => true

structure ValueAccess where
  direction : Direction
  form : SlotForm
deriving DecidableEq

def ValueAccess.complement (a : ValueAccess) : ValueAccess :=
  { a with direction := a.direction.opposite }

@[simp] theorem ValueAccess.complement_complement (a : ValueAccess) :
    a.complement.complement = a := by
  simp [complement]

end MethodBody
