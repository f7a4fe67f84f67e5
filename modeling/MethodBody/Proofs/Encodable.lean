import MethodBody.Proofs.PrintedCode
import MethodBody.Proofs.UniqueDecoding

namespace MethodBody

theorem Opcode.mem_short_iff {op : Opcode} :
    op ∈ [ldargS, stargS, ldlocS, ldlocaS, stlocS] ↔ op.operandKind = .shortVariable := by
  cases op <;> decide

/-- What a listing can hold but no method body can. -/
inductive Instruction.Unfit : Instruction → Prop
  | bare {op : Opcode} (h : op.operandKind ≠ .nothing) : Unfit ⟨op, none⟩
  | literal {s : String} : Unfit ⟨.ldstr, some (.string s)⟩
  | farLocal {op : Opcode} {l : Local} (hop : op ∈ [.ldargS, .stargS, .ldlocS, .ldlocaS, .stlocS])
    (h : 255 < l.index.toNat) : Unfit ⟨op, some (.declared l)⟩
  | farIndex {op : Opcode} {n : UInt16} (hop : op ∈ [.ldargS, .stargS, .ldlocS, .ldlocaS, .stlocS])
    (h : 255 < n.toNat) : Unfit ⟨op, some (.index n)⟩

theorem Opcode.eq_ldstr_of_operandKind {op : Opcode} (h : op.operandKind = .string) :
    op = .ldstr := by
  cases op <;> cases h
  rfl

theorem OperandKind.payload?_none {kind : OperandKind} (h : kind ≠ .nothing) :
    kind.payload? none = none := by
  cases kind with
  | nothing => exact absurd rfl h
  | _ => rfl

theorem OperandKind.payload?_shortVariable {x : Operand} {n : UInt16}
    (hx : x.variableNumber? = some n) :
    shortVariable.payload? (some x) = if 255 < n.toNat then none else some n.toNat := by
  have hfits : n.toNat < 256 ↔ ¬255 < n.toNat := by omega
  simp only [payload?, hx, Option.map_some, Option.filter_some, decide_eq_true_eq, hfits, ite_not]

namespace Instruction

theorem encode_of_payload?_eq_none {x : Instruction}
    (h : x.opcode.operandKind.payload? x.operand = none) :
    x.encode = .error (.operandMisfit x.opcode) := by
  rw [encode, h]

theorem Unfit.encode_eq {x : Instruction} (h : x.Unfit) :
    x.encode = .error (.operandMisfit x.opcode) := by
  apply encode_of_payload?_eq_none
  cases h with
  | bare hk => exact OperandKind.payload?_none hk
  | literal => rfl
  | farLocal hop hn =>
    rw [Opcode.mem_short_iff.mp hop, OperandKind.payload?_shortVariable rfl, if_pos hn]
  | farIndex hop hn =>
    rw [Opcode.mem_short_iff.mp hop, OperandKind.payload?_shortVariable rfl, if_pos hn]

/-- The reader keeps all other operands within the width that the encoder has for them. -/
theorem WellFormed.encode_exists {locals : Locals} {x : Instruction} (h : x.WellFormed locals)
    (hx : ¬x.Unfit) : ∃ bytes, x.encode = .ok bytes := by
  suffices hpayload : ∃ n, x.opcode.operandKind.payload? x.operand = some n by
    obtain ⟨n, hn⟩ := hpayload
    exact ⟨_, encode_eq_ok_iff.mpr ⟨n, hn, rfl⟩⟩
  obtain ⟨op, operand⟩ := x
  cases operand with
  | none =>
    by_cases hk : op.operandKind = .nothing
    · exact ⟨0, by simp only [hk, OperandKind.payload?]⟩
    · exact absurd (.bare hk) hx
  | some operand =>
    cases h operand rfl with
    | @index n hk =>
      rcases hk with hk | hk
      · have hn : ¬255 < n.toNat := fun hn => hx (.farIndex (Opcode.mem_short_iff.mpr hk) hn)
        exact ⟨n.toNat, by rw [hk, OperandKind.payload?_shortVariable rfl, if_neg hn]⟩
      · exact ⟨n.toNat, by rw [hk]; rfl⟩
    | @declared l hop =>
      rcases (Opcode.mem_namesLocal_iff.mp hop).1 with hk | hk
      · have hn : ¬255 < l.index.toNat := fun hn => hx (.farLocal (Opcode.mem_short_iff.mpr hk) hn)
        exact ⟨l.index.toNat, by rw [hk, OperandKind.payload?_shortVariable rfl, if_neg hn]⟩
      · exact ⟨l.index.toNat, by rw [hk]; rfl⟩
    | @int8 v hk hl hu => exact ⟨v.toUInt32.toNat, by rw [hk]; exact if_pos ⟨hl, hu⟩⟩
    | @int32 v hk => exact ⟨v.toUInt32.toNat, by rw [hk]; rfl⟩
    | @int64 v hk => exact ⟨v.toUInt64.toNat, by rw [hk]; rfl⟩
    | @label v hk => exact ⟨v.toUInt32.toNat, by rw [hk]; rfl⟩
    | string hk =>
      cases Opcode.eq_ldstr_of_operandKind hk
      exact absurd .literal hx
    | @stringToken t hk => exact ⟨t.toNat, by rw [hk]; rfl⟩
    | @token t hk => exact ⟨t.toNat, by rw [hk]; rfl⟩

end Instruction

/-- An instruction that was read has as many bytes as its size, unless only a listing can hold it.
-/
theorem readCode_encode {locals : Locals} {text : String} {code : List Instruction}
    (h : readCode locals text = .ok code) :
    (∀ x ∈ code,
      (¬x.Unfit → ∃ bytes, x.encode = .ok bytes ∧ bytes.length = x.size) ∧
      (x.Unfit → x.encode = .error (.operandMisfit x.opcode))) ∧
    ((∀ x ∈ code, ¬x.Unfit) →
      ∃ bytes, encodeAll code = .ok bytes ∧ bytes.length = (code.map Instruction.size).sum) := by
  have hwf := wellFormed_of_readCode h
  refine ⟨fun x hx => ⟨fun hfit => ?_, Instruction.Unfit.encode_eq⟩, fun hfit => ?_⟩
  · obtain ⟨bytes, hbytes⟩ := (hwf x hx).encode_exists hfit
    exact ⟨bytes, hbytes, Instruction.length_of_encode hbytes⟩
  · obtain ⟨bytes, hbytes⟩ := encodeAll_exists fun x hx => (hwf x hx).encode_exists (hfit x hx)
    exact ⟨bytes, hbytes, length_encodeAll hbytes⟩

/-- The number 256 goes into two bytes, but not into one. -/
theorem readCode_encode_far :
    readCode (.empty 0) "ldarg 256\nldarg.s 256" =
        .ok [⟨.ldarg, some (.index 256)⟩, ⟨.ldargS, some (.index 256)⟩] ∧
      (∃ bytes, Instruction.encode ⟨.ldarg, some (.index 256)⟩ = .ok bytes ∧ bytes.length = 4) ∧
      Instruction.encode ⟨.ldargS, some (.index 256)⟩ = .error (.operandMisfit .ldargS) := by
  have hread : readCode (.empty 0) "ldarg 256\nldarg.s 256" =
      .ok [⟨.ldarg, some (.index 256)⟩, ⟨.ldargS, some (.index 256)⟩] := rfl
  obtain ⟨hlong, hshort⟩ := List.forall_mem_cons.mp (readCode_encode hread).1
  refine ⟨hread, hlong.1 ?_, (List.forall_mem_singleton.mp hshort).2 ?_⟩
  · rintro (_ | _ | _ | ⟨hop, _⟩)
    exact absurd hop (by decide)
  · exact .farIndex (by decide) (by decide)

end MethodBody
