import MethodBody.Listing.Reader
import MethodBody.Listing.Printer
import MethodBody.Proofs.Numerals
import MethodBody.Proofs.Places

namespace MethodBody

/-- The operands that a listing can give to an opcode whose locals are declared there. -/
inductive Operand.WellFormed (locals : Locals) (op : Opcode) : Operand → Prop
  | index {n : UInt16} : op.operandKind = .shortVariable ∨ op.operandKind = .longVariable →
      WellFormed locals op (.index n)
  | declared {l : Local} : op ∈ [.ldloc, .ldlocS, .stloc, .stlocS, .ldloca, .ldlocaS] →
      locals.get? l.index = some l → WellFormed locals op (.declared l)
  | int8 {v : Int32} : op.operandKind = .int8 → -128 ≤ v → v ≤ 127 → WellFormed locals op (.int32 v)
  | int32 {v : Int32} : op.operandKind = .int32 → WellFormed locals op (.int32 v)
  | int64 {v : Int64} : op.operandKind = .int64 → WellFormed locals op (.int64 v)
  | label {v : Int32} : op.operandKind = .branch → WellFormed locals op (.label v)
  | string {s : String} : op.operandKind = .string → '\n' ∉ s.toList →
      WellFormed locals op (.string s)
  | stringToken {t : UInt32} : op.operandKind = .string → WellFormed locals op (.token t)
  | token {t : UInt32} : op.operandKind = .token → WellFormed locals op (.token t)

/-- An instruction that a listing can hold. Any opcode may go without its operand. -/
def Instruction.WellFormed (locals : Locals) (x : Instruction) : Prop :=
  ∀ operand ∈ x.operand, operand.WellFormed locals x.opcode

theorem Opcode.mem_namesLocal_iff {op : Opcode} :
    op ∈ [ldloc, ldlocS, stloc, stlocS, ldloca, ldlocaS] ↔
      (op.operandKind = .shortVariable ∨ op.operandKind = .longVariable) ∧
        (op.uses .load || op.uses .store) = true := by
  cases op <;> decide

theorem readVariable_decimal (n : UInt16) : readVariable (decimal n.toNat) = some n := by
  simp [readVariable, readBelow_decimal (UInt16.toNat_lt_size n)]

theorem readToken_hexDigits (t : UInt32) :
    readToken ('0' :: 'x' :: hexDigits 8 t.toNat) = some t := by
  have hread : readBelow UInt32.size 16 (hexDigits 8 t.toNat) = some t.toNat :=
    readBelow_hexDigits (by decide) (UInt32.toNat_lt_size t) (UInt32.toNat_lt_size t)
  simp [readToken, hread]

theorem readWithin_int32 (v : Int32) :
    readWithin Int32.size (signedDecimal v.toInt) = some v.toInt := by
  have hl := v.le_toInt
  have hu := v.toInt_lt
  apply readWithin_signedDecimal <;> rw [Int32.size] <;> omega

theorem readWithin_int64 (v : Int64) :
    readWithin Int64.size (signedDecimal v.toInt) = some v.toInt := by
  have hl := v.le_toInt
  have hu := v.toInt_lt
  apply readWithin_signedDecimal <;> rw [Int64.size] <;> omega

theorem readWithin_int8 {v : Int32} (hl : -128 ≤ v) (hu : v ≤ 127) :
    readWithin Int8.size (signedDecimal v.toInt) = some v.toInt := by
  have hl : -128 ≤ v.toInt := Int32.le_iff_toInt_le.mp hl
  have hu : v.toInt ≤ 127 := Int32.le_iff_toInt_le.mp hu
  apply readWithin_signedDecimal <;> rw [Int8.size] <;> omega

theorem int8_of_readWithin {v : Int} {cs : List Char} (h : readWithin Int8.size cs = some v) :
    -128 ≤ Int32.ofInt v ∧ Int32.ofInt v ≤ 127 := by
  obtain ⟨hl, hu⟩ := bounds_of_readWithin h
  rw [Int8.size] at hl hu
  have hv : (Int32.ofInt v).toInt = v := Int32.toInt_ofInt_of_le (by omega) (by omega)
  rw [Int32.le_iff_toInt_le, Int32.le_iff_toInt_le, hv]
  have hmin : -128 ≤ v := by omega
  have hmax : v ≤ 127 := by omega
  exact ⟨hmin, hmax⟩

theorem readVariableOperand_decimal (locals : Locals) (op : Opcode) (n : UInt16) :
    readVariableOperand locals op (decimal n.toNat) = .ok (.index n) := by
  unfold readVariableOperand
  split
  next number he =>
    have hv : 'V' ∈ decimal n.toNat := by simp [he]
    exact absurd (isDigit_of_mem_decimal hv) (by decide)
  next =>
    rw [readVariable_decimal]
    rfl

theorem readVariableOperand_localName {locals : Locals} {op : Opcode} {l : Local}
    (hu : (op.uses .load || op.uses .store) = true) (hl : locals.get? l.index = some l) :
    readVariableOperand locals op (localName l.index) = .ok (.declared l) := by
  simp only [readVariableOperand, localName, readLocalName, hu, if_true, readVariable_decimal, hl]

/-- A well-formed operand is what its own print is read as. -/
theorem readOperand_print {locals : Locals} {op : Opcode} {x : Operand}
    (h : x.WellFormed locals op) : readOperand locals op x.print = .ok x := by
  cases h with
  | @index n hk =>
    have hread := readVariableOperand_decimal locals op n
    rcases hk with hk | hk <;> simpa only [readOperand, hk, Operand.print] using hread
  | @declared l hop hl =>
    obtain ⟨hk, hu⟩ := Opcode.mem_namesLocal_iff.mp hop
    have hread := readVariableOperand_localName hu hl
    rcases hk with hk | hk <;> simpa only [readOperand, hk, Operand.print] using hread
  | @int8 v hk hl hu =>
    simp only [readOperand, hk, Operand.print, readWithin_int8 hl hu]
    simp [orInvalid]
  | @int32 v hk =>
    simp only [readOperand, hk, Operand.print, readWithin_int32]
    simp [orInvalid]
  | @int64 v hk =>
    simp only [readOperand, hk, Operand.print, readWithin_int64]
    simp [orInvalid]
  | @label v hk =>
    simp only [readOperand, hk, Operand.print, readWithin_int32]
    simp [orInvalid]
  | @string s hk =>
    have hquoted : readQuoted (quote s.toList) = some s.toList := readQuoted_eq_some_iff.mpr rfl
    have htoken : readToken (quote s.toList) = none := rfl
    simp only [readOperand, hk, Operand.print, htoken, hquoted]
    simp [orInvalid]
  | @stringToken t hk => simp only [readOperand, hk, Operand.print, readToken_hexDigits]
  | @token t hk =>
    simp only [readOperand, hk, Operand.print, readToken_hexDigits]
    rfl

theorem eq_some_of_orInvalid {reading : OperandReading} {op : Opcode} {text : List Char}
    {operand? : Option Operand} {x : Operand} (h : orInvalid reading op text operand? = .ok x) :
    operand? = some x := by
  cases operand? <;> cases h
  rfl

theorem wellFormed_of_readLocalName {locals : Locals} {op : Opcode} {text number : List Char}
    {x : Operand} (hk : op.operandKind = .shortVariable ∨ op.operandKind = .longVariable)
    (h : readLocalName locals op text number = .ok x) : x.WellFormed locals op := by
  unfold readLocalName at h
  split at h
  next hu =>
    split at h
    next n _ =>
      split at h
      next l hl =>
        cases h
        obtain ⟨_, _, hi, _⟩ := locals.numbered.get?_eq_some_iff.mp hl
        exact .declared (Opcode.mem_namesLocal_iff.mpr ⟨hk, hu⟩) (by rw [hi, hl])
      next => cases h
    next => cases h
  next => cases h

theorem wellFormed_of_readVariableOperand {locals : Locals} {op : Opcode} {text : List Char}
    {x : Operand} (hk : op.operandKind = .shortVariable ∨ op.operandKind = .longVariable)
    (h : readVariableOperand locals op text = .ok x) : x.WellFormed locals op := by
  unfold readVariableOperand at h
  split at h
  next => exact wellFormed_of_readLocalName hk h
  next =>
    obtain ⟨n, _, rfl⟩ := Option.map_eq_some_iff.mp (eq_some_of_orInvalid h)
    exact .index hk

theorem not_mem_of_not_mem_quote {c : Char} {s : List Char} (h : c ∉ quote s) : c ∉ s := by
  intro hm
  have hescape : c ∈ escape s := by
    refine List.mem_flatMap.mpr ⟨c, hm, ?_⟩
    split <;> simp
  exact h (by simp [quote, hescape])

theorem wellFormed_of_readOperand {locals : Locals} {op : Opcode} {text : List Char} {x : Operand}
    (hline : '\n' ∉ text) (h : readOperand locals op text = .ok x) : x.WellFormed locals op := by
  unfold readOperand at h
  split at h
  next => cases h
  next hk => exact wellFormed_of_readVariableOperand (.inl hk) h
  next hk => exact wellFormed_of_readVariableOperand (.inr hk) h
  next hk =>
    obtain ⟨v, hv, rfl⟩ := Option.map_eq_some_iff.mp (eq_some_of_orInvalid h)
    obtain ⟨hl, hu⟩ := int8_of_readWithin hv
    exact .int8 hk hl hu
  next hk =>
    obtain ⟨v, _, rfl⟩ := Option.map_eq_some_iff.mp (eq_some_of_orInvalid h)
    exact .int32 hk
  next hk =>
    obtain ⟨v, _, rfl⟩ := Option.map_eq_some_iff.mp (eq_some_of_orInvalid h)
    exact .int64 hk
  next hk =>
    obtain ⟨v, _, rfl⟩ := Option.map_eq_some_iff.mp (eq_some_of_orInvalid h)
    exact .label hk
  next hk =>
    split at h
    next t _ =>
      cases h
      exact .stringToken hk
    next =>
      obtain ⟨s, hs, rfl⟩ := Option.map_eq_some_iff.mp (eq_some_of_orInvalid h)
      rw [readQuoted_eq_some_iff.mp hs] at hline
      exact .string hk (by simpa using not_mem_of_not_mem_quote hline)
  next hk =>
    obtain ⟨t, _, rfl⟩ := Option.map_eq_some_iff.mp (eq_some_of_orInvalid h)
    exact .token hk

end MethodBody
