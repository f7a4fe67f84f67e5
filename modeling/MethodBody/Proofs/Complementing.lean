import MethodBody.Fixture
import MethodBody.Proofs.Matching

namespace MethodBody

theorem SlotForm.eq_fixed {form : SlotForm} (h : form.hasOperand = false) :
    ∃ slot, form = .fixed slot := by
  cases form with
  | fixed slot => exact ⟨slot, rfl⟩
  | compact => cases h
  | general => cases h

theorem Slot.same_self (s : Slot) : s.same s = true := by
  cases s <;> simp [Slot.same]

theorem Operand.alike_self (o : Operand) : o.alike o = true := by
  cases o <;> simp [Operand.alike, Local.alike]

namespace Instruction

theorem alike_self (x : Instruction) : x.alike x = true := by
  cases ho : x.operand <;> simp [alike, ho, Operand.alike_self]

theorem alike_of_no_operand (x : Instruction) :
    (⟨x.opcode, none⟩ : Instruction).alike x = true ↔ x.operand = none := by
  cases ho : x.operand <;> simp [alike, ho]

theorem slot?_of_fixed {x : Instruction} {a : ValueAccess} {slot : Fin 4}
    (ha : x.opcode.valueAccess? = some a) (hf : a.form = .fixed slot) :
    x.slot? = some (.fixed slot) := by
  simp [slot?, ha, hf]

theorem slot?_of_declared {x : Instruction} {a : ValueAccess} {l : Local}
    (ha : x.opcode.valueAccess? = some a) (hf : a.form.hasOperand = true)
    (ho : x.operand = some (.declared l)) : x.slot? = some (.declared l) := by
  have hl : x.local? = some l := local?_eq_some_iff.mpr ho
  cases hform : a.form with
  | fixed slot =>
    rw [hform] at hf
    cases hf
  | compact => simp [slot?, ha, hform, hl]
  | general => simp [slot?, ha, hform, hl]

/-- The second instruction is the first one in the other direction. A fixed slot drops any operand.
-/
structure IsCounterpart (a : ValueAccess) (x y : Instruction) : Prop where
  access : x.opcode.valueAccess? = some a
  opcode : y.opcode = a.complement.opcode
  named : a.form.hasOperand = true →
    ∃ l, x.operand = some (.declared l) ∧ y.operand = some (.declared l)
  dropped : a.form.hasOperand = false → y.operand = none

theorem isCounterpart_of_eq_ok {x y : Instruction} {a : ValueAccess}
    (ha : x.opcode.valueAccess? = some a) (h : x.counterpart a.direction = .ok y) :
    IsCounterpart a x y := by
  rw [counterpart_of_valueAccess? ha] at h
  split at h
  next hform =>
    obtain ⟨l, hl, rfl⟩ := map_eq_ok_iff.mp h
    have ho : x.operand = some (.declared l) := local?_eq_some_iff.mp (local?_of_requireLocal hl)
    exact ⟨ha, rfl, fun _ => ⟨l, ho, rfl⟩, fun hf => absurd hform (by simp [hf])⟩
  next hform =>
    cases h
    exact ⟨ha, rfl, fun hf => absurd hf hform, fun _ => rfl⟩

theorem exists_isCounterpart {x : Instruction} {a : ValueAccess}
    (ha : x.opcode.valueAccess? = some a) (hm : ¬x.Malformed a.direction) :
    ∃ y, x.IsCounterpart a y := by
  obtain ⟨y, hy⟩ := counterpart_exists (accesses_iff.mpr ⟨a.form, ha⟩) hm
  exact ⟨y, isCounterpart_of_eq_ok ha hy⟩

theorem exists_isCounterpart_iff {a : ValueAccess} {x : Instruction} :
    (∃ y, x.IsCounterpart a y) ↔ x.opcode.valueAccess? = some a ∧
      (a.form.hasOperand = false ∨ ∃ l, x.operand = some (.declared l)) := by
  constructor
  · rintro ⟨y, h⟩
    refine ⟨h.access, ?_⟩
    cases hf : a.form.hasOperand with
    | false => exact .inl rfl
    | true =>
      obtain ⟨l, hl, _⟩ := h.named hf
      exact .inr ⟨l, hl⟩
  · rintro ⟨ha, ho⟩
    have hm : ¬x.Malformed a.direction := by
      intro hm
      obtain ⟨form, hform, hf, hnone⟩ := malformed_iff_forall.mp hm
      have he : a.form = form := congrArg ValueAccess.form (Option.some.inj (ha.symm.trans hform))
      rcases ho with hfixed | ⟨l, hl⟩
      · rw [← he, hfixed] at hf
        cases hf
      · exact hnone l hl
    exact exists_isCounterpart ha hm

namespace IsCounterpart

variable {a : ValueAccess} {x y : Instruction}

theorem counterpart_eq (h : IsCounterpart a x y) : x.counterpart a.direction = .ok y := by
  have hy : y = ⟨a.complement.opcode, y.operand⟩ := by rw [← h.opcode]
  rw [counterpart_of_valueAccess? h.access, hy]
  cases hf : a.form.hasOperand with
  | false => simp [h.dropped hf]
  | true =>
    obtain ⟨l, hx, hl⟩ := h.named hf
    have hlocal : x.local? = some l := local?_eq_some_iff.mpr hx
    simp [requireLocal, hlocal, hl, Except.map]

theorem access_counterpart (h : IsCounterpart a x y) :
    y.opcode.valueAccess? = some a.complement := by
  rw [h.opcode]
  exact a.complement.valueAccess?_opcode

/-- The way back restores the opcode, but not an operand that was dropped. -/
theorem back (h : IsCounterpart a x y) : IsCounterpart a.complement y ⟨x.opcode, y.operand⟩ where
  access := h.access_counterpart
  opcode := by
    rw [ValueAccess.complement_complement]
    exact (Opcode.opcode_of_valueAccess? h.access).symm
  named := by
    intro hf
    obtain ⟨l, _, hl⟩ := h.named hf
    exact ⟨l, hl, hl⟩
  dropped := h.dropped

theorem operand_eq_iff (h : IsCounterpart a x y) :
    y.operand = x.operand ↔ a.form.hasOperand = true ∨ x.operand = none := by
  cases hf : a.form.hasOperand with
  | false => simp [h.dropped hf, eq_comm]
  | true =>
    obtain ⟨l, hx, hy⟩ := h.named hf
    simp [hx, hy]

theorem back_alike_iff (h : IsCounterpart a x y) :
    (⟨x.opcode, y.operand⟩ : Instruction).alike x = true ↔ y.operand = x.operand := by
  cases hf : a.form.hasOperand with
  | false => rw [h.dropped hf, x.alike_of_no_operand, eq_comm]
  | true =>
    have ho : y.operand = x.operand := h.operand_eq_iff.mpr (.inl hf)
    simp [ho, x.alike_self]

theorem exists_slot (h : IsCounterpart a x y) : ∃ s, x.slot? = some s ∧ y.slot? = some s := by
  have hy := h.access_counterpart
  cases hf : a.form.hasOperand with
  | false =>
    obtain ⟨slot, hslot⟩ := SlotForm.eq_fixed hf
    exact ⟨.fixed slot, slot?_of_fixed h.access hslot, slot?_of_fixed hy hslot⟩
  | true =>
    obtain ⟨l, hxl, hyl⟩ := h.named hf
    exact ⟨.declared l, slot?_of_declared h.access hf hxl, slot?_of_declared hy hf hyl⟩

end IsCounterpart

end Instruction

namespace AccessPair

open Instruction

theorem ofInstruction_eq_ok_iff {x : Instruction} {p : AccessPair} :
    ofInstruction x = .ok p ↔ ∃ a y, IsCounterpart a x y ∧ p = ofHalves a.direction x y := by
  constructor
  · intro h
    cases ha : x.opcode.valueAccess? with
    | none =>
      simp only [ofInstruction, ha] at h
      cases h
    | some a =>
      have hx : x.Accesses a.direction := accesses_iff.mpr ⟨a.form, ha⟩
      rw [ofInstruction_of_accesses hx] at h
      obtain ⟨y, hy, rfl⟩ := map_eq_ok_iff.mp h
      exact ⟨a, y, isCounterpart_of_eq_ok ha hy, rfl⟩
  · rintro ⟨a, y, h, rfl⟩
    have hx : x.Accesses a.direction := accesses_iff.mpr ⟨a.form, h.access⟩
    rw [ofInstruction_of_accesses hx, h.counterpart_eq]
    rfl

theorem source_ofHalves (d : Direction) (x y : Instruction) : (ofHalves d x y).source = d := by
  cases d <;> rfl

theorem half_ofHalves (d : Direction) (x y : Instruction) : (ofHalves d x y).half d = x := by
  cases d <;> rfl

theorem ofHalves_opposite (d : Direction) (x y : Instruction) :
    (ofHalves d.opposite y x).load = (ofHalves d x y).load ∧
      (ofHalves d.opposite y x).store = (ofHalves d x y).store := by
  cases d <;> exact ⟨rfl, rfl⟩

/-- What holds of an access and of its counterpart holds of the two halves of their pair. -/
theorem forall_half {motive : Direction → Instruction → Prop} {d : Direction} {x y : Instruction}
    (hx : motive d x) (hy : motive d.opposite y) :
    motive .load (ofHalves d x y).load ∧ motive .store (ofHalves d x y).store := by
  cases d with
  | load => exact ⟨hx, hy⟩
  | store => exact ⟨hy, hx⟩

/-- The complement of the complement is the access again, unless a stray operand was dropped on the
way. -/
theorem complement_involutive {x : Instruction} {p : AccessPair} (h : ofInstruction x = .ok p) :
    ∃ a, x.opcode.valueAccess? = some a ∧ p.source = a.direction ∧ p.half p.source = x ∧
      p.load.opcode.valueAccess? = some ⟨.load, a.form⟩ ∧
      p.store.opcode.valueAccess? = some ⟨.store, a.form⟩ ∧
      (∃ s t, p.load.slot? = some s ∧ p.store.slot? = some t ∧ s.same t = true) ∧
      p.sameSlot = true ∧
      (a.form.hasOperand = true → ∃ l, x.operand = some (.declared l) ∧
        p.load.operand = some (.declared l) ∧ p.store.operand = some (.declared l)) ∧
      ∃ q, ofInstruction p.complement = .ok q ∧ q.source = p.source.opposite ∧
        q.complement.opcode = x.opcode ∧
        (∃ s, x.slot? = some s ∧ q.complement.slot? = some s) ∧
        (q.complement = x ↔ a.form.hasOperand = true ∨ x.operand = none) ∧
        (q.complement.alike x = true ↔ a.form.hasOperand = true ∨ x.operand = none) ∧
        (q.complement = x → q.load = p.load ∧ q.store = p.store) ∧
        (a.form.hasOperand = false → q.complement = ⟨x.opcode, none⟩) := by
  obtain ⟨a, y, hxy, rfl⟩ := ofInstruction_eq_ok_iff.mp h
  obtain ⟨s, hxs, hys⟩ := hxy.exists_slot
  have hforms := forall_half (motive := fun d z => z.opcode.valueAccess? = some ⟨d, a.form⟩)
    hxy.access hxy.access_counterpart
  have hslots := forall_half (d := a.direction) (motive := fun _ z => z.slot? = some s) hxs hys
  refine ⟨a, hxy.access, source_ofHalves _ x y, ?_, hforms.1, hforms.2, ?_, ?_, ?_, ?_⟩
  · rw [source_ofHalves, half_ofHalves]
  · exact ⟨s, s, hslots.1, hslots.2, s.same_self⟩
  · simp [sameSlot, hslots.1, hslots.2, s.same_self]
  · intro hf
    obtain ⟨l, hx, hy⟩ := hxy.named hf
    exact ⟨l, hx, forall_half (motive := fun _ z => z.operand = some (.declared l)) hx hy⟩
  -- The way back starts from the other half, where a stray operand is gone already.
  · have hback := hxy.back
    have hz : (⟨x.opcode, y.operand⟩ : Instruction) = x ↔ y.operand = x.operand := by
      cases x
      simp
    obtain ⟨t, hyt, hzt⟩ := hback.exists_slot
    have hts : s = t := Option.some.inj (hys.symm.trans hyt)
    have hq := ofInstruction_eq_ok_iff.mpr ⟨a.complement, _, hback, rfl⟩
    rw [complement_ofHalves, source_ofHalves]
    refine ⟨_, hq, source_ofHalves _ _ _, ?_⟩
    rw [complement_ofHalves]
    refine ⟨rfl, ⟨s, hxs, hts ▸ hzt⟩, hz.trans hxy.operand_eq_iff,
      hxy.back_alike_iff.trans hxy.operand_eq_iff, ?_, ?_⟩
    · intro he
      rw [he]
      exact ofHalves_opposite a.direction x y
    · intro hf
      rw [hxy.dropped hf]

/-- The stray operand of a store to a fixed slot is lost on the way there and back. -/
theorem complement_involutive_stray :
    ofInstruction ⟨.stloc2, some (.int32 7)⟩ =
        .ok ⟨⟨.ldloc2, none⟩, ⟨.stloc2, some (.int32 7)⟩, .store⟩ ∧
      ∃ q, ofInstruction ⟨.ldloc2, none⟩ = .ok q ∧ q.complement = ⟨.stloc2, none⟩ ∧
        q.complement ≠ ⟨.stloc2, some (.int32 7)⟩ := by
  refine ⟨rfl, ?_⟩
  obtain ⟨a, ha, _, _, _, _, _, _, _, q, hq, _, _, _, hx, _, _, hdropped⟩ :=
    complement_involutive (x := ⟨.stloc2, some (.int32 7)⟩)
      (p := ⟨⟨.ldloc2, none⟩, ⟨.stloc2, some (.int32 7)⟩, .store⟩) rfl
  cases ha
  exact ⟨q, hq, hdropped rfl, by simp [hx, SlotForm.hasOperand]⟩

end AccessPair

end MethodBody
