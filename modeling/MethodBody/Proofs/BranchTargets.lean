import MethodBody.Encoding
import MethodBody.Proofs.ReloadEffect

namespace MethodBody

/-- How many bytes of a method body stand before a position. -/
def byteOffset (code : List Instruction) (position : Nat) : Nat :=
  ((code.take position).map Instruction.size).sum

theorem byteOffset_of_append {before behind : List Instruction} {position : Nat}
    (h : position ≤ before.length) :
    byteOffset (before ++ behind) position = byteOffset before position := by
  rw [byteOffset, List.take_append_of_le_length h]
  rfl

theorem byteOffset_append (before behind : List Instruction) (position : Nat) :
    byteOffset (before ++ behind) (before.length + position) =
      byteOffset before before.length + byteOffset behind position := by
  rw [byteOffset, List.take_length_add_append, List.map_append, List.sum_append, byteOffset,
    List.take_length]
  rfl

theorem byteOffset_cons_succ (x : Instruction) (code : List Instruction) (position : Nat) :
    byteOffset (x :: code) (position + 1) = x.size + byteOffset code position := by
  rw [byteOffset, List.take_succ_cons, List.map_cons, List.sum_cons]
  rfl

theorem shifted_singleton (i position : Nat) :
    shifted [i] position = if i < position then position + 1 else position := by
  rw [shifted, List.countP_singleton]
  split <;> simp_all

/-- A branch at a position, which goes on by so many bytes from where it ends. -/
def BranchAt (code : List Instruction) (position : Nat) (v : Int32) : Prop :=
  ∃ op ∈ [Opcode.br, .brfalse, .brtrue], code[position]? = some ⟨op, some (.label v)⟩

/-- Where in the bytes of a method body such a branch goes to. -/
def destination (code : List Instruction) (position : Nat) (v : Int32) : Int :=
  byteOffset code (position + 1) + v.toInt

/-- A branch that goes to where the instruction at the target begins, or to the end of the body. -/
structure BranchesTo (code : List Instruction) (position : Nat) (v : Int32) (target : Nat) :
    Prop where
  branchAt : BranchAt code position v
  target_le : target ≤ code.length
  destination_eq : destination code position v = byteOffset code target

section Insertion

variable (before : List Instruction) (x y : Instruction) (behind : List Instruction)

/-- One more instruction behind another moves on all that stands further on. -/
theorem getElem?_shifted (position : Nat) :
    (before ++ x :: y :: behind)[shifted [before.length] position]? =
      (before ++ x :: behind)[position]? := by
  rw [shifted_singleton]
  split
  next h =>
    obtain ⟨k, rfl⟩ := Nat.exists_eq_add_of_lt h
    have hnew : before.length + k + 1 + 1 - before.length = k + 1 + 1 := by omega
    have hold : before.length + k + 1 - before.length = k + 1 := by omega
    rw [List.getElem?_append_right (by omega), List.getElem?_append_right (by omega), hnew, hold]
    rfl
  next h =>
    rcases Nat.lt_or_eq_of_le (Nat.le_of_not_lt h) with hlt | rfl
    · rw [List.getElem?_append_left hlt, List.getElem?_append_left hlt]
    · simp

/-- All that has moved on begins so many bytes further on as the new instruction takes up. -/
theorem byteOffset_shifted (position : Nat) :
    byteOffset (before ++ x :: y :: behind) (shifted [before.length] position) =
      byteOffset (before ++ x :: behind) position +
        if before.length < position then y.size else 0 := by
  rw [shifted_singleton]
  split
  next h =>
    obtain ⟨k, rfl⟩ := Nat.exists_eq_add_of_lt h
    have hnew : before.length + k + 1 + 1 = before.length + (k + 1 + 1) := by omega
    have hold : before.length + k + 1 = before.length + (k + 1) := by omega
    rw [hnew, hold, byteOffset_append, byteOffset_append]
    simp only [byteOffset_cons_succ]
    omega
  next h =>
    have hle : position ≤ before.length := Nat.le_of_not_lt h
    rw [byteOffset_of_append hle, byteOffset_of_append hle, Nat.add_zero]

/-- A branch counts from its own end, so it moves its destination on as far as it is moved on. -/
theorem destination_shifted {position : Nat} (h : position ≠ before.length) (v : Int32) :
    destination (before ++ x :: y :: behind) (shifted [before.length] position) v =
      destination (before ++ x :: behind) position v +
        ((if before.length < position then y.size else 0 : Nat) : Int) := by
  have hend : shifted [before.length] (position + 1) = shifted [before.length] position + 1 := by
    rw [shifted_succ, List.count_singleton, if_neg (by simpa using h.symm), Nat.add_zero]
  have hmoved := byteOffset_shifted before x y behind (position + 1)
  have hiff : before.length < position + 1 ↔ before.length < position := by omega
  rw [hend, if_congr hiff rfl rfl] at hmoved
  rw [destination, destination, hmoved]
  omega

/-- A branch keeps its target just if both are moved on or neither is. -/
theorem BranchesTo.shifted_iff {b t : Nat} {v : Int32}
    (h : BranchesTo (before ++ x :: behind) b v t) (hne : b ≠ before.length) :
    BranchesTo (before ++ x :: y :: behind) (shifted [before.length] b) v
        (shifted [before.length] t) ↔
      (if before.length < b then y.size else 0) = if before.length < t then y.size else 0 := by
  have hgoes := destination_shifted before x y behind hne v
  have hlies := byteOffset_shifted before x y behind t
  rw [h.destination_eq] at hgoes
  constructor
  · intro h'
    have hmeet := h'.destination_eq
    rw [hgoes, hlies] at hmeet
    omega
  · intro hmoved
    refine ⟨?_, ?_, ?_⟩
    · rw [BranchAt, getElem?_shifted]
      exact h.branchAt
    · have hle := h.target_le
      rw [shifted_singleton]
      simp only [List.length_append, List.length_cons] at hle ⊢
      split <;> omega
    · rw [hgoes, hlies, hmoved]
      omega

end Insertion

theorem BranchAt.ne_of_store {before behind : List Instruction} {x : Instruction} {position : Nat}
    {v : Int32} (h : BranchAt (before ++ x :: behind) position v) (hx : x.Accesses .store) :
    position ≠ before.length := by
  rintro rfl
  obtain ⟨op, hop, hb⟩ := h
  have hnone : ∀ op ∈ [Opcode.br, .brfalse, .brtrue], op.valueAccess? = none := by decide
  obtain rfl : x = ⟨op, some (.label v)⟩ := by simpa using hb
  obtain ⟨form, haccess⟩ := Instruction.accesses_iff.mp hx
  cases (hnone op hop).symm.trans haccess

/-- The bytes that a value access takes up. The direction makes no difference. -/
def SlotForm.width : SlotForm → Nat
  | .fixed _ => 1
  | .compact => 2
  | .general => 4

theorem Instruction.size_of_valueAccess? {x : Instruction} {a : ValueAccess}
    (h : x.opcode.valueAccess? = some a) : x.size = a.form.width := by
  obtain ⟨op, operand⟩ := x
  cases op <;> cases h <;> rfl

/-- A reload is one instruction more, right behind its store. -/
theorem exists_append_of_reloadAfter {position : Nat} {code code' : List Instruction}
    (h : reloadAfter position code = .ok code') :
    ∃ before x y behind form, x.IsCounterpart ⟨.store, form⟩ y ∧ position = before.length ∧
      code = before ++ x :: behind ∧ code' = before ++ x :: y :: behind := by
  obtain ⟨x, y, form, hx, hc, rfl⟩ := reloadAfter_eq_ok_iff.mp h
  obtain ⟨before, behind, rfl, rfl⟩ := exists_append_of_getElem? hx
  refine ⟨before, x, y, behind, form, hc, rfl, rfl, ?_⟩
  simp [List.take_length_add_append, List.drop_length_add_append]

/-- A branch keeps its target unless the new load comes between them. Then it misses by the size of
the load. -/
theorem reloadAfter_branches {position : Nat} {code code' : List Instruction}
    (h : reloadAfter position code = .ok code') :
    ∃ x r form s, code[position]? = some x ∧ code'[position + 1]? = some r ∧
      x.opcode.valueAccess? = some ⟨.store, form⟩ ∧ r.opcode.valueAccess? = some ⟨.load, form⟩ ∧
      x.slot? = some s ∧ r.slot? = some s ∧ (r.size = 1 ∨ r.size = 2 ∨ r.size = 4) ∧
      ∀ (b t : Nat) (v : Int32), BranchesTo code b v t →
        b ≠ position ∧
        code'[shifted [position] b]? = code[b]? ∧ code'[shifted [position] t]? = code[t]? ∧
        (BranchesTo code' (shifted [position] b) v (shifted [position] t) ↔
          (b < position ∧ t ≤ position) ∨ (position < b ∧ position < t)) ∧
        (b < position → position < t →
          destination code' (shifted [position] b) v + r.size =
            byteOffset code' (shifted [position] t)) ∧
        (position < b → t ≤ position →
          destination code' (shifted [position] b) v =
            byteOffset code' (shifted [position] t) + r.size) := by
  obtain ⟨before, x, r, behind, form, hc, rfl, rfl, rfl⟩ := exists_append_of_reloadAfter h
  have hsize : r.size = 1 ∨ r.size = 2 ∨ r.size = 4 := by
    rw [Instruction.size_of_valueAccess? hc.access_counterpart]
    cases form <;> simp [ValueAccess.complement, SlotForm.width]
  obtain ⟨s, hxs, hrs⟩ := hc.exists_slot
  refine ⟨x, r, form, s, by simp, by simp, hc.access, hc.access_counterpart, hxs, hrs, hsize,
    fun b t v hb => ?_⟩
  have hne : b ≠ before.length :=
    hb.branchAt.ne_of_store (Instruction.accesses_iff.mpr ⟨form, hc.access⟩)
  have hgoes := destination_shifted before x r behind hne v
  have hlies := byteOffset_shifted before x r behind t
  rw [hb.destination_eq] at hgoes
  refine ⟨hne, getElem?_shifted before x r behind b, getElem?_shifted before x r behind t,
    ?_, ?_, ?_⟩
  · rw [hb.shifted_iff before x r behind hne]
    split <;> split <;> omega
  · intro hbefore hbehind
    rw [hgoes, hlies, if_neg (by omega), if_pos hbehind]
    omega
  · intro hbehind hbefore
    rw [hgoes, hlies, if_pos hbehind, if_neg (by omega)]
    omega

/-- The first and the last branch cross the store, the one in the middle does not. -/
theorem reloadAfter_branches_across :
    ∃ code code' : List Instruction,
      code = [⟨.brtrue, some (.label 2)⟩,
        ⟨.stlocS, some (.declared ⟨⟨⟨"int32", false⟩, 4⟩, 0, 4⟩)⟩, ⟨.brfalse, some (.label (-5))⟩,
        ⟨.br, some (.label (-17))⟩] ∧
      reloadAfter 1 code = .ok code' ∧
      code'[2]? = some ⟨.ldlocS, some (.declared ⟨⟨⟨"int32", false⟩, 4⟩, 0, 4⟩)⟩ ∧
      BranchesTo code 0 2 2 ∧ ¬BranchesTo code' 0 2 3 ∧
      destination code' 0 2 + 2 = byteOffset code' 3 ∧
      BranchesTo code 2 (-5) 2 ∧ BranchesTo code' 3 (-5) 3 ∧
      BranchesTo code 3 (-17) 0 ∧ ¬BranchesTo code' 4 (-17) 0 ∧
      destination code' 4 (-17) = byteOffset code' 0 + 2 := by
  let code : List Instruction := [⟨.brtrue, some (.label 2)⟩,
    ⟨.stlocS, some (.declared ⟨⟨⟨"int32", false⟩, 4⟩, 0, 4⟩)⟩, ⟨.brfalse, some (.label (-5))⟩,
    ⟨.br, some (.label (-17))⟩]
  have hstep : reloadAfter 1 code = .ok (code.insertIdx 2
      ⟨.ldlocS, some (.declared ⟨⟨⟨"int32", false⟩, 4⟩, 0, 4⟩)⟩) := rfl
  have hforwards : BranchesTo code 0 2 2 :=
    ⟨⟨.brtrue, by decide, rfl⟩, by decide, by decide⟩
  have hbehind : BranchesTo code 2 (-5) 2 :=
    ⟨⟨.brfalse, by decide, rfl⟩, by decide, by decide⟩
  have hback : BranchesTo code 3 (-17) 0 := ⟨⟨.br, by decide, rfl⟩, by decide, by decide⟩
  obtain ⟨_, r, _, _, _, hr, _, _, _, _, _, hbranches⟩ := reloadAfter_branches hstep
  obtain rfl : _ = r := Option.some.inj hr
  obtain ⟨_, _, _, hkept, hearly, _⟩ := hbranches 0 2 2 hforwards
  obtain ⟨_, _, _, hkept', _⟩ := hbranches 2 2 (-5) hbehind
  obtain ⟨_, _, _, hkept'', _, hlate⟩ := hbranches 3 0 (-17) hback
  exact ⟨code, _, rfl, hstep, rfl, hforwards, fun h => absurd (hkept.mp h) (by decide),
    hearly (by decide) (by decide), hbehind, hkept'.mpr (by decide), hback,
    fun h => absurd (hkept''.mp h) (by decide), hlate (by decide) (by decide)⟩

end MethodBody
