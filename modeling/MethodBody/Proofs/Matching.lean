import MethodBody.AccessPair
import MethodBody.Proofs.Success

namespace MethodBody

theorem Opcode.takesAddress_eq_false {op : Opcode} {a : ValueAccess}
    (h : op.valueAccess? = some a) : op.takesAddress = false := by
  cases op <;> simp [valueAccess?] at h <;> rfl

theorem Opcode.uses_of_valueAccess? {op : Opcode} {a : ValueAccess}
    (h : op.valueAccess? = some a) (d : Direction) : op.uses d = (a.direction == d) := by
  simp [uses, takesAddress_eq_false h, h]

theorem Opcode.uses_eq_false {op : Opcode} {d : Direction}
    (ha : op.takesAddress = false) (hd : op.valueAccess?.any (·.direction == d) = false) :
    op.uses d = false := by
  simp [uses, ha, hd]

namespace Instruction

/-- The opcode loads or stores the value of a local in the given direction. -/
def Accesses (d : Direction) (x : Instruction) : Prop :=
  x.opcode.valueAccess?.any (·.direction == d) = true

instance (d : Direction) (x : Instruction) : Decidable (x.Accesses d) :=
  inferInstanceAs (Decidable (_ = true))

/-- A value access in the given direction whose operand should name a declared local, but is another
one or absent. -/
def Malformed (d : Direction) (x : Instruction) : Prop :=
  x.opcode.valueAccess?.any (fun a => a.direction == d && a.form.hasOperand) = true ∧
    x.local? = none

instance (d : Direction) (x : Instruction) : Decidable (x.Malformed d) :=
  inferInstanceAs (Decidable (_ = true ∧ _ = none))

theorem local?_eq_some_iff {x : Instruction} {l : Local} :
    x.local? = some l ↔ x.operand = some (.declared l) := by
  cases ho : x.operand with
  | none => simp [local?, ho]
  | some operand => cases operand <;> simp [local?, ho, Operand.local?]

theorem local?_of_requireLocal {x : Instruction} {l : Local} (h : x.requireLocal = .ok l) :
    x.local? = some l := by
  unfold requireLocal at h
  split at h
  next hl =>
    cases h
    exact hl
  next => cases h

theorem accesses_iff {d : Direction} {x : Instruction} :
    x.Accesses d ↔ ∃ form, x.opcode.valueAccess? = some ⟨d, form⟩ := by
  constructor
  · intro h
    obtain ⟨⟨d', form⟩, ha, hd⟩ := (Option.any_eq_true _ _).mp h
    cases eq_of_beq hd
    exact ⟨form, ha⟩
  · rintro ⟨form, ha⟩
    simp [Accesses, ha]

theorem Accesses.direction_eq {d e : Direction} {x : Instruction} (hd : x.Accesses d)
    (he : x.Accesses e) : d = e := by
  obtain ⟨f, hf⟩ := accesses_iff.mp hd
  obtain ⟨g, hg⟩ := accesses_iff.mp he
  rw [hf] at hg
  cases hg
  rfl

theorem malformed_iff {d : Direction} {x : Instruction} :
    x.Malformed d ↔ ∃ form, x.opcode.valueAccess? = some ⟨d, form⟩ ∧ form.hasOperand = true ∧
      x.local? = none := by
  constructor
  · rintro ⟨h, hl⟩
    obtain ⟨⟨d', form⟩, ha, hd⟩ := (Option.any_eq_true _ _).mp h
    obtain ⟨hd, hf⟩ := Bool.and_eq_true_iff.mp hd
    cases eq_of_beq hd
    exact ⟨form, ha, hf, hl⟩
  · rintro ⟨form, ha, hf, hl⟩
    exact ⟨by simp [ha, hf], hl⟩

theorem malformed_iff_forall {d : Direction} {x : Instruction} :
    x.Malformed d ↔ ∃ form, x.opcode.valueAccess? = some ⟨d, form⟩ ∧ form.hasOperand = true ∧
      ∀ l, x.operand ≠ some (.declared l) := by
  simp only [malformed_iff, Option.eq_none_iff_forall_ne_some, ne_eq, local?_eq_some_iff]

theorem Malformed.accesses {d : Direction} {x : Instruction} (h : x.Malformed d) :
    x.Accesses d := by
  obtain ⟨form, ha, _⟩ := malformed_iff.mp h
  exact accesses_iff.mpr ⟨form, ha⟩

/-- The other half of a value access keeps the form, and with it the local that the form names. -/
theorem counterpart_of_valueAccess? {x : Instruction} {a : ValueAccess}
    (h : x.opcode.valueAccess? = some a) :
    x.counterpart a.direction =
      if a.form.hasOperand then
        x.requireLocal.map fun l => ⟨a.complement.opcode, some (.declared l)⟩
      else .ok ⟨a.complement.opcode, none⟩ := by
  simp only [counterpart, Opcode.uses_of_valueAccess? h, beq_self_eq_true, if_true, h]
  split
  · cases x.requireLocal <;> rfl
  · rfl

theorem counterpart_of_malformed {d : Direction} {x : Instruction} (h : x.Malformed d) :
    x.counterpart d = .error (.noLocal x.opcode) := by
  obtain ⟨form, ha, hf, hl⟩ := malformed_iff.mp h
  rw [counterpart_of_valueAccess? (a := ⟨d, form⟩) ha]
  simp only [hf, if_true, requireLocal, hl]
  rfl

theorem counterpart_exists {d : Direction} {x : Instruction} (ha : x.Accesses d)
    (hm : ¬x.Malformed d) : ∃ y, x.counterpart d = .ok y := by
  obtain ⟨form, ha⟩ := accesses_iff.mp ha
  rw [counterpart_of_valueAccess? (a := ⟨d, form⟩) ha]
  split
  next hf =>
    cases hl : x.local? with
    | none => exact absurd (malformed_iff.mpr ⟨form, ha, hf, hl⟩) hm
    | some l => exact ⟨_, by simp only [requireLocal, hl]; rfl⟩
  next => exact ⟨_, rfl⟩

end Instruction

namespace AccessPair

def ofHalves (d : Direction) (x y : Instruction) : AccessPair :=
  match d with
  | .load => ⟨x, y, .load⟩
  | .store => ⟨y, x, .store⟩

theorem ofInstruction_of_accesses {d : Direction} {x : Instruction} (h : x.Accesses d) :
    ofInstruction x = (x.counterpart d).map (ofHalves d x) := by
  obtain ⟨form, ha⟩ := Instruction.accesses_iff.mp h
  simp only [ofInstruction, ha]
  cases x.counterpart d <;> cases d <;> rfl

theorem matching?_of_accesses {d : Direction} {x : Instruction} (h : x.Accesses d) :
    matching? d x = (ofInstruction x).map some := by
  obtain ⟨form, ha⟩ := Instruction.accesses_iff.mp h
  simp [matching?, Opcode.takesAddress_eq_false ha, Opcode.uses_of_valueAccess? ha]

theorem matching?_of_not_accesses {d : Direction} {x : Instruction} (h : ¬x.Accesses d) :
    matching? d x = .ok none := by
  unfold matching?
  split
  next => rfl
  next ha =>
    rw [Opcode.uses_eq_false (by simpa using ha) (by simpa [Instruction.Accesses] using h)]
    rfl

theorem ofInstruction_of_malformed {d : Direction} {x : Instruction} (h : x.Malformed d) :
    ofInstruction x = .error (.noLocal x.opcode) := by
  rw [ofInstruction_of_accesses h.accesses, Instruction.counterpart_of_malformed h]
  rfl

theorem ofInstruction_exists {d : Direction} {x : Instruction} (ha : x.Accesses d)
    (hm : ¬x.Malformed d) : ∃ p, ofInstruction x = .ok p := by
  obtain ⟨y, hy⟩ := Instruction.counterpart_exists ha hm
  exact ⟨ofHalves d x y, by rw [ofInstruction_of_accesses ha, hy]; rfl⟩

theorem complement_ofHalves (d : Direction) (x y : Instruction) :
    (ofHalves d x y).complement = y := by
  cases d <;> rfl

/-- What comes of matching an instruction: no access in that direction, a malformed one, or a pair.
-/
inductive Matched (d : Direction) (x : Instruction) : Except Error (Option AccessPair) → Prop where
  | other (h : ¬x.Accesses d) : Matched d x (.ok none)
  | malformed (h : x.Malformed d) : Matched d x (.error (.noLocal x.opcode))
  | pair {p : AccessPair} (h : x.Accesses d) (hp : ofInstruction x = .ok p) :
    Matched d x (.ok (some p))

theorem matched_of_eq {d : Direction} {x : Instruction} {result : Except Error (Option AccessPair)}
    (h : matching? d x = result) : Matched d x result := by
  subst h
  by_cases ha : x.Accesses d
  · rw [matching?_of_accesses ha]
    by_cases hm : x.Malformed d
    · rw [ofInstruction_of_malformed hm]
      exact .malformed hm
    · obtain ⟨p, hp⟩ := ofInstruction_exists ha hm
      rw [hp]
      exact .pair ha hp
  · rw [matching?_of_not_accesses ha]
    exact .other ha

theorem counterpart_of_matching? {d : Direction} {x : Instruction} {p : AccessPair}
    (h : matching? d x = .ok (some p)) : x.counterpart d = .ok p.complement := by
  cases matched_of_eq h with
  | pair ha hp =>
    rw [ofInstruction_of_accesses ha] at hp
    obtain ⟨y, hy, rfl⟩ := map_eq_ok_iff.mp hp
    rw [hy, complement_ofHalves]

end AccessPair

end MethodBody
