import MethodBody.Edit
import MethodBody.Proofs.Matching
import MethodBody.Proofs.Operands
import Mathlib.Data.List.InsertIdx
import Mathlib.Logic.Relation

namespace MethodBody

/-- The code that any number of reloads, one after the other, can make of a method body. -/
def Reloads : List Instruction → List Instruction → Prop :=
  Relation.ReflTransGen fun code code' => ∃ position, reloadAfter position code = .ok code'

theorem ValueAccess.opcode_mem_namesLocal {a : ValueAccess} (h : a.form.hasOperand = true) :
    a.opcode ∈ [Opcode.ldloc, .ldlocS, .stloc, .stlocS, .ldloca, .ldlocaS] := by
  obtain ⟨d, form⟩ := a
  cases form with
  | fixed slot => cases h
  | compact => cases d <;> decide
  | general => cases d <;> decide

namespace Instruction

theorem WellFormed.get?_of_local? {locals : Locals} {x : Instruction} {l : Local}
    (hx : x.WellFormed locals) (h : x.local? = some l) : locals.get? l.index = some l := by
  cases hx _ (local?_eq_some_iff.mp h)
  assumption

/-- The other half of a value access names the same local, by an opcode that can name one. -/
theorem WellFormed.counterpart {locals : Locals} {d : Direction} {x y : Instruction}
    (hx : x.WellFormed locals) (h : x.counterpart d = .ok y) : y.WellFormed locals := by
  unfold Instruction.counterpart at h
  split at h
  next =>
    split at h
    next access _ =>
      split at h
      next hform =>
        obtain ⟨l, hl, h⟩ := bind_eq_ok_iff.mp h
        cases h
        intro operand ho
        cases Option.some.inj ho
        have hop := ValueAccess.opcode_mem_namesLocal (a := access.complement) hform
        exact .declared hop (hx.get?_of_local? (local?_of_requireLocal hl))
      next =>
        cases h
        intro operand ho
        cases ho
    next => cases h
  next => cases h

end Instruction

/-- A reload puts the load of the stored local behind the store and changes nothing else. -/
theorem reloadAfter_cases {position : Nat} {code code' : List Instruction}
    (h : reloadAfter position code = .ok code') :
    ∃ x y, code[position]? = some x ∧ x.counterpart .store = .ok y ∧
      code' = code.insertIdx (position + 1) y := by
  unfold reloadAfter at h
  split at h
  next => cases h
  next x hx =>
    obtain ⟨p?, hp, h⟩ := bind_eq_ok_iff.mp h
    cases p? with
    | none => cases h
    | some p =>
      cases h
      exact ⟨x, p.complement, hx, AccessPair.counterpart_of_matching? hp, rfl⟩

theorem wellFormed_of_reloadAfter {locals : Locals} {position : Nat} {code code' : List Instruction}
    (hwf : ∀ x ∈ code, x.WellFormed locals) (h : reloadAfter position code = .ok code') :
    ∀ x ∈ code', x.WellFormed locals := by
  obtain ⟨x, y, hx, hy, rfl⟩ := reloadAfter_cases h
  intro z hz
  rcases List.eq_or_mem_of_mem_insertIdx hz with rfl | hz
  · exact (hwf x (List.mem_of_getElem? hx)).counterpart hy
  · exact hwf z hz

theorem Reloads.wellFormed {locals : Locals} {code code' : List Instruction}
    (hr : Reloads code code') (hwf : ∀ x ∈ code, x.WellFormed locals) :
    ∀ x ∈ code', x.WellFormed locals := by
  induction hr with
  | refl => exact hwf
  | tail _ hstep ih =>
    obtain ⟨position, hstep⟩ := hstep
    exact wellFormed_of_reloadAfter ih hstep

end MethodBody
