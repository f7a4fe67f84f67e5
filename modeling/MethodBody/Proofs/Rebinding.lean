import MethodBody.Proofs.Operands

namespace MethodBody

/-- The operand with its local replaced by the entry of the same number. -/
def Operand.rebind? (locals : Locals) : Operand → Option Operand
  | declared l => (locals.get? l.index).map .declared
  | x => some x

def Instruction.rebind? (locals : Locals) (x : Instruction) : Option Instruction :=
  match x.operand with
  | some operand => (operand.rebind? locals).map fun operand => ⟨x.opcode, some operand⟩
  | none => some ⟨x.opcode, none⟩

def Local.inMethod (method : Nat) (l : Local) : Local :=
  { l with method }

def LocalTable.inMethod (method : Nat) (table : LocalTable) : LocalTable :=
  { table with method }

theorem LocalTable.declare_inMethod (method : Nat) (table : LocalTable) (d : Declaration) :
    (table.inMethod method).declare d =
      ((table.declare d).1, (table.declare d).2.inMethod method) := by
  have hindex : (table.inMethod method).nextIndex? = table.nextIndex? := rfl
  rw [declare, declare, hindex]
  cases table.nextIndex? <;> rfl

theorem LocalTable.Reachable.inMethod {table : LocalTable} (h : table.Reachable) (method : Nat) :
    (table.inMethod method).Reachable := by
  induction h with
  | empty => exact .empty method
  | @declare table _ d ih =>
    have hnext := ih.declare d
    rw [declare_inMethod] at hnext
    exact hnext

/-- The same declarations in another method. -/
def Locals.inMethod (method : Nat) (locals : Locals) : Locals :=
  ⟨locals.toLocalTable.inMethod method, locals.reachable.inMethod method⟩

def Operand.inMethod (method : Nat) : Operand → Operand
  | declared l => declared (l.inMethod method)
  | x => x

def Instruction.inMethod (method : Nat) (x : Instruction) : Instruction :=
  ⟨x.opcode, x.operand.map (Operand.inMethod method)⟩

namespace Locals

theorem get?_inMethod (method : Nat) (locals : Locals) (index : UInt16) :
    (locals.inMethod method).get? index = (locals.get? index).map (Local.inMethod method) := by
  rw [LocalTable.get?, LocalTable.get?, Option.map_map]
  rfl

theorem toList_inMethod (method : Nat) (locals : Locals) :
    (locals.inMethod method).toList = locals.toList.map (Local.inMethod method) := by
  rw [LocalTable.toList, LocalTable.toList, List.map_map]
  rfl

end Locals

namespace Operand

theorem print_inMethod (method : Nat) (x : Operand) : (x.inMethod method).print = x.print := by
  cases x <;> rfl

theorem WellFormed.inMethod {locals : Locals} {op : Opcode} {x : Operand}
    (h : x.WellFormed locals op) (method : Nat) :
    (x.inMethod method).WellFormed (locals.inMethod method) op := by
  cases h with
  | index hk => exact .index hk
  | @declared l hop hl =>
    have hl' : (locals.inMethod method).get? l.index = some (l.inMethod method) := by
      rw [Locals.get?_inMethod, hl]
      rfl
    exact .declared hop hl'
  | int8 hk hl hu => exact .int8 hk hl hu
  | int32 hk => exact .int32 hk
  | int64 hk => exact .int64 hk
  | label hk => exact .label hk
  | string hk hs => exact .string hk hs
  | stringToken hk => exact .stringToken hk
  | token hk => exact .token hk

theorem WellFormed.rebind?_inMethod {locals : Locals} {op : Opcode} {x : Operand}
    (h : x.WellFormed locals op) (method : Nat) :
    x.rebind? (locals.inMethod method) = some (x.inMethod method) := by
  cases h with
  | declared _ hl =>
    rw [rebind?, Locals.get?_inMethod, hl]
    rfl
  | _ => rfl

end Operand

namespace Instruction

theorem print_inMethod (method : Nat) (x : Instruction) : (x.inMethod method).print = x.print := by
  obtain ⟨op, operand⟩ := x
  cases operand with
  | none => rfl
  | some operand => simp only [print, inMethod, Option.map_some, Operand.print_inMethod]

theorem WellFormed.inMethod {locals : Locals} {x : Instruction} (h : x.WellFormed locals)
    (method : Nat) : (x.inMethod method).WellFormed (locals.inMethod method) := by
  intro y hy
  obtain ⟨operand, ho, rfl⟩ := Option.map_eq_some_iff.mp hy
  exact (h operand ho).inMethod method

theorem WellFormed.rebind?_inMethod {locals : Locals} {x : Instruction} (h : x.WellFormed locals)
    (method : Nat) : x.rebind? (locals.inMethod method) = some (x.inMethod method) := by
  obtain ⟨op, operand⟩ := x
  cases operand with
  | none => rfl
  | some operand =>
    have hoperand := (h operand rfl).rebind?_inMethod method
    simp only [rebind?, hoperand]
    rfl

end Instruction

namespace Locals

/-- What a number stands for as the name of a local. -/
def named (locals : Locals) (n : UInt16) : Except Fault Operand :=
  match locals.get? n with
  | some l => .ok (.declared l)
  | none => .error (.undeclaredLocal n)

/-- The answer to the text of an operand, with the name of a local looked up anew. -/
def resolve (locals : Locals) : Except Fault Operand → Except Fault Operand
  | .ok (.declared l) => locals.named l.index
  | .error (.undeclaredLocal n) => locals.named n
  | answer => answer

theorem named_eq_ok_iff {locals : Locals} {n : UInt16} {x : Operand} :
    locals.named n = .ok x ↔ ∃ l, locals.get? n = some l ∧ x = .declared l := by
  unfold named
  cases locals.get? n <;> simp [eq_comm]

theorem named_eq_error_iff {locals : Locals} {n : UInt16} {fault : Fault} :
    locals.named n = .error fault ↔ locals.get? n = none ∧ fault = .undeclaredLocal n := by
  unfold named
  cases locals.get? n <;> simp [eq_comm]

theorem resolve_named (first second : Locals) (n : UInt16) :
    second.resolve (first.named n) = second.named n := by
  unfold named
  cases h : first.get? n with
  | none => rfl
  | some l =>
    obtain ⟨_, _, rfl, _⟩ := first.numbered.get?_eq_some_iff.mp h
    rfl

end Locals

section Reading

variable (first second : Locals) (op : Opcode)

theorem readLocalName_resolve (text number : List Char) :
    readLocalName second op text number = second.resolve (readLocalName first op text number) := by
  unfold readLocalName
  split
  next =>
    cases readVariable number with
    | none => rfl
    | some n => exact (first.resolve_named second n).symm
  next => rfl

/-- Nothing but the name of a local is read into something that depends on the locals. -/
theorem orInvalid_resolve {α : Type} {f : α → Operand}
    (hf : ∀ v, second.resolve (.ok (f v)) = .ok (f v)) (reading : OperandReading)
    (text : List Char) (v? : Option α) :
    orInvalid reading op text (v?.map f) =
      second.resolve (orInvalid reading op text (v?.map f)) := by
  cases v? with
  | none => rfl
  | some v => exact (hf v).symm

theorem readVariableOperand_resolve (text : List Char) :
    readVariableOperand second op text = second.resolve (readVariableOperand first op text) := by
  unfold readVariableOperand
  split
  next number => exact readLocalName_resolve first second op _ number
  next => exact orInvalid_resolve second op (fun _ => rfl) _ text _

/-- The answers against two tables of locals are one answer with its name looked up in each. -/
theorem readOperand_resolve (text : List Char) :
    readOperand second op text = second.resolve (readOperand first op text) := by
  unfold readOperand
  cases op.operandKind with
  | nothing => rfl
  | shortVariable => exact readVariableOperand_resolve first second op text
  | longVariable => exact readVariableOperand_resolve first second op text
  | int8 => exact orInvalid_resolve second op (fun _ => rfl) _ text _
  | int32 => exact orInvalid_resolve second op (fun _ => rfl) _ text _
  | int64 => exact orInvalid_resolve second op (fun _ => rfl) _ text _
  | branch => exact orInvalid_resolve second op (fun _ => rfl) _ text _
  | string =>
    cases readToken text with
    | some t => rfl
    | none => exact orInvalid_resolve second op (fun _ => rfl) _ text _
  | token => exact orInvalid_resolve second op (fun _ => rfl) _ text _

end Reading

/-- A line depends on the locals by its operand alone. -/
theorem readInstruction_cases (line : List Char) :
    (∃ fault, ∀ locals, readInstruction locals line = .error fault) ∨
    (∃ op, ∀ locals, readInstruction locals line = .ok ⟨op, none⟩) ∨
    ∃ op text, ∀ locals, readInstruction locals line =
      (readOperand locals op text).map fun operand => ⟨op, some operand⟩ := by
  unfold readInstruction
  dsimp only
  cases Opcode.ofMnemonic? (splitWord (behindLabel line)).1 with
  | none => exact .inl ⟨_, fun _ => rfl⟩
  | some op =>
    cases trim (splitWord (behindLabel line)).2 with
    | nil => exact .inr (.inl ⟨op, fun _ => rfl⟩)
    | cons c cs =>
      refine .inr (.inr ⟨op, c :: cs, fun locals => ?_⟩)
      dsimp only
      cases readOperand locals op (c :: cs) <;> rfl

theorem readOperand_inMethod (method : Nat) (locals : Locals) (op : Opcode) (text : List Char) :
    readOperand (locals.inMethod method) op text =
      (readOperand locals op text).map (Operand.inMethod method) := by
  have hself := readOperand_resolve locals locals op text
  rw [readOperand_resolve locals]
  cases hread : readOperand locals op text with
  | ok x =>
    rw [hread] at hself
    cases x with
    | declared l =>
      obtain ⟨_, hl, he⟩ := Locals.named_eq_ok_iff.mp hself.symm
      cases he
      exact Locals.named_eq_ok_iff.mpr ⟨_, by rw [Locals.get?_inMethod, hl]; rfl, rfl⟩
    | _ => rfl
  | error fault =>
    rw [hread] at hself
    cases fault with
    | undeclaredLocal n =>
      have hn := (Locals.named_eq_error_iff.mp hself.symm).1
      exact Locals.named_eq_error_iff.mpr ⟨by rw [Locals.get?_inMethod, hn]; rfl, rfl⟩
    | _ => rfl

/-- A line is read against the locals of another method as it would be against equal ones here. -/
theorem readInstruction_inMethod (method : Nat) (locals : Locals) (line : List Char) :
    readInstruction (locals.inMethod method) line =
      (readInstruction locals line).map (Instruction.inMethod method) := by
  rcases readInstruction_cases line with ⟨fault, h⟩ | ⟨op, h⟩ | ⟨op, text, h⟩
  · rw [h, h]
    rfl
  · rw [h, h]
    rfl
  · rw [h, h, readOperand_inMethod]
    cases readOperand locals op text <;> rfl

/-- Well-formed code finds all of its locals again where another method declares the same. -/
theorem mapM_rebind?_inMethod {locals : Locals} {code : List Instruction}
    (h : ∀ x ∈ code, x.WellFormed locals) (method : Nat) :
    code.mapM (Instruction.rebind? (locals.inMethod method)) =
      some (code.map (Instruction.inMethod method)) := by
  induction code with
  | nil => rfl
  | cons x code ih =>
    have hx := (h x List.mem_cons_self).rebind?_inMethod method
    have hcode := ih fun y hy => h y (List.mem_cons_of_mem x hy)
    rw [List.mapM_cons, hx, hcode]
    rfl

end MethodBody
