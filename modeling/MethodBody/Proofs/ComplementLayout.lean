import MethodBody.Proofs.BranchTargets
import MethodBody.Proofs.UniqueDecoding

namespace MethodBody

/-- The kind of operand that names the slot, if an operand names it. -/
def SlotForm.operandKind : SlotForm → OperandKind
  | .fixed _ => .nothing
  | .compact => .shortVariable
  | .general => .longVariable

theorem Opcode.operandKind_of_valueAccess? {op : Opcode} {a : ValueAccess}
    (h : op.valueAccess? = some a) : op.operandKind = a.form.operandKind := by
  cases op <;> cases h <;> rfl

namespace Instruction

namespace IsCounterpart

variable {a : ValueAccess} {x y : Instruction}

theorem operandKind_form (h : x.IsCounterpart a y) : y.opcode.operandKind = a.form.operandKind :=
  Opcode.operandKind_of_valueAccess? (a := a.complement) h.access_counterpart

theorem operandKind_eq (h : x.IsCounterpart a y) :
    y.opcode.operandKind = x.opcode.operandKind := by
  rw [h.operandKind_form, Opcode.operandKind_of_valueAccess? h.access]

theorem size_eq (h : x.IsCounterpart a y) : y.size = x.size := by
  rw [size_of_valueAccess? h.access, size_of_valueAccess? h.access_counterpart]
  rfl

theorem size_opcode_eq (h : x.IsCounterpart a y) : y.opcode.size = x.opcode.size := by
  have hsize : y.opcode.size + y.opcode.operandKind.size =
      x.opcode.size + x.opcode.operandKind.size := h.size_eq
  rw [h.operandKind_eq] at hsize
  omega

/-- What encodes has no operand behind a fixed slot, so its counterpart has the same operand. -/
theorem operand_eq_of_encode {p : List UInt8} (h : x.IsCounterpart a y) (hp : x.encode = .ok p) :
    y.operand = x.operand := by
  refine h.operand_eq_iff.mpr ?_
  obtain ⟨n, hn, _⟩ := encode_eq_ok_iff.mp hp
  rw [Opcode.operandKind_of_valueAccess? h.access] at hn
  cases hf : a.form with
  | fixed slot =>
    right
    rw [hf] at hn
    cases ho : x.operand with
    | none => rfl
    | some operand =>
      rw [ho] at hn
      cases hn
  | compact => exact .inl rfl
  | general => exact .inl rfl

theorem encode_eq {p : List UInt8} (h : x.IsCounterpart a y) (hp : x.encode = .ok p) :
    ∃ rest, p = x.opcode.bytes ++ rest ∧ y.encode = .ok (y.opcode.bytes ++ rest) := by
  have hoperand := h.operand_eq_of_encode hp
  obtain ⟨n, hn, rfl⟩ := encode_eq_ok_iff.mp hp
  refine ⟨littleEndian x.opcode.operandKind.size n, rfl, encode_eq_ok_iff.mpr ⟨n, ?_, ?_⟩⟩
  · rw [h.operandKind_eq, hoperand, hn]
  · rw [h.operandKind_eq]

theorem unique {b : ValueAccess} {z : Instruction} (h : x.IsCounterpart a y)
    (h' : x.IsCounterpart b z) : y = z := by
  obtain rfl : a = b := Option.some.inj (h.access.symm.trans h'.access)
  exact Except.ok.inj (h.counterpart_eq.symm.trans h'.counterpart_eq)

end IsCounterpart

end Instruction

/-- Turns the value accesses at the given positions, one after the other. -/
def complementEach (positions : List Nat) (code : List Instruction) :
    Except Error (List Instruction) :=
  positions.foldlM (fun code position => complementAt position code) code

/-- There is a value access at the position that has a counterpart. -/
def AccessAt (code : List Instruction) (position : Nat) : Prop :=
  ∃ a x y, code[position]? = some x ∧ x.IsCounterpart a y

theorem accessAt_iff {code : List Instruction} {position : Nat} :
    AccessAt code position ↔
      ∃ x p, code[position]? = some x ∧ AccessPair.ofInstruction x = .ok p := by
  constructor
  · rintro ⟨a, x, y, hx, h⟩
    exact ⟨x, _, hx, AccessPair.ofInstruction_eq_ok_iff.mpr ⟨a, y, h, rfl⟩⟩
  · rintro ⟨x, p, hx, hp⟩
    obtain ⟨a, y, h, _⟩ := AccessPair.ofInstruction_eq_ok_iff.mp hp
    exact ⟨a, x, y, hx, h⟩

/-- The accesses at the positions are replaced by their counterparts, and all else is kept. -/
structure Complemented (positions : List Nat) (code code' : List Instruction) : Prop where
  length_eq : code'.length = code.length
  kept : ∀ i ∉ positions, code'[i]? = code[i]?
  turned : ∀ i ∈ positions, ∃ a x y, code[i]? = some x ∧ code'[i]? = some y ∧ x.IsCounterpart a y

theorem complementAt_eq {code : List Instruction} {position : Nat} {a : ValueAccess}
    {x y : Instruction} (hx : code[position]? = some x) (h : x.IsCounterpart a y) :
    complementAt position code = .ok (code.set position y) := by
  have hpair : AccessPair.ofInstruction x = .ok (AccessPair.ofHalves a.direction x y) :=
    AccessPair.ofInstruction_eq_ok_iff.mpr ⟨a, y, h, rfl⟩
  simp only [complementAt, hx, AccessPair.ofOption, hpair]
  exact congrArg (fun z => Except.ok (code.set position z)) (AccessPair.complement_ofHalves _ x y)

/-- A position that is turned does not come again, so what is turned later is still as it was. -/
theorem complementEach_exists {positions : List Nat} {code : List Instruction}
    (hnodup : positions.Nodup) (h : ∀ i ∈ positions, AccessAt code i) :
    ∃ code', complementEach positions code = .ok code' ∧ Complemented positions code code' := by
  induction positions generalizing code with
  | nil => exact ⟨code, rfl, rfl, fun _ _ => rfl, by simp⟩
  | cons i positions ih =>
    obtain ⟨hi, hnodup⟩ := List.nodup_cons.mp hnodup
    obtain ⟨a, x, y, hx, hxy⟩ := h i List.mem_cons_self
    have hother {j : Nat} (hj : j ≠ i) : (code.set i y)[j]? = code[j]? :=
      List.getElem?_set_ne hj.symm
    have hne {j : Nat} (hj : j ∈ positions) : j ≠ i := fun he => hi (he ▸ hj)
    have hrest : ∀ j ∈ positions, AccessAt (code.set i y) j := by
      intro j hj
      rw [AccessAt, hother (hne hj)]
      exact h j (List.mem_cons_of_mem i hj)
    obtain ⟨code', hcode', hturned⟩ := ih hnodup hrest
    have hlt : i < code.length := (List.getElem?_eq_some_iff.mp hx).1
    refine ⟨code', ?_, ?_, ?_, ?_⟩
    · rw [complementEach, List.foldlM_cons, complementAt_eq hx hxy]
      exact hcode'
    · rw [hturned.length_eq, List.length_set]
    · intro j hj
      obtain ⟨hji, hj⟩ := not_or.mp (List.mem_cons.not.mp hj)
      rw [hturned.kept j hj, hother hji]
    · intro j hj
      rcases List.mem_cons.mp hj with rfl | hj
      · exact ⟨a, x, y, hx, by rw [hturned.kept j hi, List.getElem?_set_self hlt], hxy⟩
      · obtain ⟨b, z, w, hz, hw, hzw⟩ := hturned.turned j hj
        exact ⟨b, z, w, by rw [← hother (hne hj), hz], hw, hzw⟩

theorem byteOffset_eq_sum (code : List Instruction) (position : Nat) :
    byteOffset code position = ((code.map Instruction.size).take position).sum := by
  rw [byteOffset, List.map_take]

section Bytes

variable {code : List Instruction} {bytes : List UInt8}

theorem encode_exists_of_mem (h : encodeAll code = .ok bytes) :
    ∀ x ∈ code, ∃ p, x.encode = .ok p := by
  obtain ⟨ps, hps, _⟩ := map_eq_ok_iff.mp h
  exact mapM_exists_iff.mp ⟨ps, hps⟩

/-- The bytes of an instruction stand at its offset. -/
theorem getElem?_encodeAll (h : encodeAll code = .ok bytes) {i j : Nat} {x : Instruction}
    {p : List UInt8} (hx : code[i]? = some x) (hp : x.encode = .ok p) (hj : j < x.size) :
    bytes[byteOffset code i + j]? = p[j]? := by
  induction code generalizing i bytes with
  | nil => cases hx
  | cons y code ih =>
    obtain ⟨q, rest, hq, hrest, rfl⟩ := encodeAll_cons_eq_ok h
    cases i with
    | zero =>
      obtain rfl : y = x := Option.some.inj hx
      cases hq.symm.trans hp
      have hlength := Instruction.length_of_encode hp
      have hzero : byteOffset (y :: code) 0 + j = j := Nat.zero_add j
      rw [hzero, List.getElem?_append_left (by omega)]
    | succ i =>
      have hlength := Instruction.length_of_encode hq
      have hindex : byteOffset (y :: code) (i + 1) + j - q.length = byteOffset code i + j := by
        rw [byteOffset_cons_succ, hlength]
        omega
      rw [List.getElem?_append_right (by rw [byteOffset_cons_succ, hlength]; omega), hindex]
      exact ih hrest hx

/-- Every byte belongs to an instruction. -/
theorem exists_instruction_of_lt {k : Nat} (hk : k < (code.map Instruction.size).sum) :
    ∃ i x j, code[i]? = some x ∧ j < x.size ∧ k = byteOffset code i + j := by
  induction code generalizing k with
  | nil => cases hk
  | cons x code ih =>
    rw [List.map_cons, List.sum_cons] at hk
    by_cases hx : k < x.size
    · exact ⟨0, x, k, rfl, hx, (Nat.zero_add k).symm⟩
    · obtain ⟨i, y, j, hy, hj, hkj⟩ := ih (k := k - x.size) (by omega)
      refine ⟨i + 1, y, j, hy, hj, ?_⟩
      rw [byteOffset_cons_succ]
      omega

end Bytes

namespace Complemented

variable {positions : List Nat} {code code' : List Instruction}

theorem map_size (h : Complemented positions code code') :
    code'.map Instruction.size = code.map Instruction.size := by
  refine List.ext_getElem? fun i => ?_
  rw [List.getElem?_map, List.getElem?_map]
  by_cases hi : i ∈ positions
  · obtain ⟨a, x, y, hx, hy, hxy⟩ := h.turned i hi
    rw [hx, hy, Option.map_some, Option.map_some, hxy.size_eq]
  · rw [h.kept i hi]

theorem byteOffset_eq (h : Complemented positions code code') (position : Nat) :
    byteOffset code' position = byteOffset code position := by
  rw [byteOffset_eq_sum, byteOffset_eq_sum, h.map_size]

/-- Instructions at one position are the same or exchanged for one another. -/
theorem cases_at (h : Complemented positions code code') {i : Nat} {x : Instruction}
    (hx : code[i]? = some x) :
    (i ∉ positions ∧ code'[i]? = some x) ∨
      ∃ a y, i ∈ positions ∧ code'[i]? = some y ∧ x.IsCounterpart a y := by
  by_cases hi : i ∈ positions
  · obtain ⟨a, x', y, hx', hy, hxy⟩ := h.turned i hi
    cases hx.symm.trans hx'
    exact .inr ⟨a, y, hi, hy, hxy⟩
  · exact .inl ⟨hi, by rw [h.kept i hi, hx]⟩

theorem accessAt (h : Complemented positions code code') : ∀ i ∈ positions, AccessAt code' i := by
  intro i hi
  obtain ⟨a, x, y, _, hy, hxy⟩ := h.turned i hi
  exact ⟨_, y, _, hy, hxy.back⟩

theorem encodeAll_exists (h : Complemented positions code code')
    (hcode : ∀ x ∈ code, ∃ p, x.encode = .ok p) : ∃ bytes, encodeAll code' = .ok bytes := by
  refine MethodBody.encodeAll_exists fun z hz => ?_
  obtain ⟨i, hi⟩ := List.mem_iff_getElem?.mp hz
  have hlt : i < code.length := by
    rw [← h.length_eq]
    exact (List.getElem?_eq_some_iff.mp hi).1
  have hx := List.getElem?_eq_getElem hlt
  obtain ⟨p, hp⟩ := hcode _ (List.mem_of_getElem? hx)
  rcases h.cases_at hx with ⟨_, hsame⟩ | ⟨a, y, _, hy, hxy⟩
  · cases hi.symm.trans hsame
    exact ⟨p, hp⟩
  · cases hi.symm.trans hy
    obtain ⟨rest, _, hrest⟩ := hxy.encode_eq hp
    exact ⟨_, hrest⟩

/-- The bytes only differ within the opcodes of the accesses that are turned. -/
theorem exists_opcode_of_ne {bytes bytes' : List UInt8} (h : Complemented positions code code')
    (hcode : encodeAll code = .ok bytes) (hcode' : encodeAll code' = .ok bytes') {k : Nat}
    (hne : bytes'[k]? ≠ bytes[k]?) :
    ∃ i ∈ positions, ∃ x, code[i]? = some x ∧ byteOffset code i ≤ k ∧
      k < byteOffset code i + x.opcode.size := by
  have hlength : bytes.length = (code.map Instruction.size).sum := length_encodeAll hcode
  have hlength' : bytes'.length = (code.map Instruction.size).sum := by
    rw [length_encodeAll hcode', h.map_size]
  by_cases hk : k < (code.map Instruction.size).sum
  · obtain ⟨i, x, j, hx, hj, rfl⟩ := exists_instruction_of_lt hk
    obtain ⟨p, hp⟩ := encode_exists_of_mem hcode x (List.mem_of_getElem? hx)
    have hbyte := getElem?_encodeAll hcode hx hp hj
    rcases h.cases_at hx with ⟨_, hsame⟩ | ⟨a, y, hi, hy, hxy⟩
    · have hbyte' := getElem?_encodeAll hcode' hsame hp hj
      rw [h.byteOffset_eq] at hbyte'
      exact absurd (hbyte'.trans hbyte.symm) hne
    · obtain ⟨rest, rfl, hq⟩ := hxy.encode_eq hp
      have hbyte' := getElem?_encodeAll hcode' hy hq (by rw [hxy.size_eq]; exact hj)
      rw [h.byteOffset_eq] at hbyte'
      refine ⟨i, hi, x, hx, Nat.le_add_right _ _, Nat.add_lt_add_left ?_ _⟩
      -- Behind the opcodes, which are equally long, both encodings have the same operand.
      by_contra hbehind
      have hopcode : y.opcode.bytes.length = x.opcode.bytes.length := by
        rw [Opcode.length_bytes, Opcode.length_bytes, hxy.size_opcode_eq]
      have hle : x.opcode.bytes.length ≤ j := by
        rw [Opcode.length_bytes]
        exact Nat.le_of_not_lt hbehind
      rw [List.getElem?_append_right hle] at hbyte
      rw [List.getElem?_append_right (hopcode ▸ hle), hopcode] at hbyte'
      exact hne (hbyte'.trans hbyte.symm)
  · rw [List.getElem?_eq_none (by omega), List.getElem?_eq_none (by omega)] at hne
    exact absurd rfl hne

/-- Turning twice leads back to code that can be encoded. -/
theorem eq_of_twice {code'' : List Instruction} (h : Complemented positions code code')
    (h' : Complemented positions code' code'') (hcode : ∀ x ∈ code, ∃ p, x.encode = .ok p) :
    code'' = code := by
  refine List.ext_getElem? fun i => ?_
  by_cases hi : i ∈ positions
  · obtain ⟨a, x, y, hx, hy, hxy⟩ := h.turned i hi
    obtain ⟨b, y', z, hy', hz, hyz⟩ := h'.turned i hi
    obtain rfl : y = y' := Option.some.inj (hy.symm.trans hy')
    obtain ⟨p, hp⟩ := hcode x (List.mem_of_getElem? hx)
    have hback : z = ⟨x.opcode, y.operand⟩ := hyz.unique hxy.back
    rw [hx, hz, hback, hxy.operand_eq_of_encode hp]
  · rw [h'.kept i hi, h.kept i hi]

end Complemented

/-- Turning value accesses moves no instruction and changes opcode bytes only. Turning them again
undoes it. -/
theorem complementEach_layout {code : List Instruction} {positions : List Nat}
    (hnodup : positions.Nodup)
    (h : ∀ i ∈ positions, ∃ x p, code[i]? = some x ∧ AccessPair.ofInstruction x = .ok p) :
    ∃ code', complementEach positions code = .ok code' ∧
      code'.length = code.length ∧
      (∀ i ∉ positions, code'[i]? = code[i]?) ∧
      (∀ i ∈ positions, ∀ x p, code[i]? = some x → AccessPair.ofInstruction x = .ok p →
        code'[i]? = some p.complement) ∧
      (∀ i, byteOffset code' i = byteOffset code i) ∧
      (code'.map Instruction.size).sum = (code.map Instruction.size).sum ∧
      (∀ bytes, encodeAll code = .ok bytes → ∃ bytes', encodeAll code' = .ok bytes' ∧
        bytes'.length = bytes.length ∧
        ∀ k, bytes'[k]? ≠ bytes[k]? → ∃ i ∈ positions, ∃ x, code[i]? = some x ∧
          byteOffset code i ≤ k ∧ k < byteOffset code i + x.opcode.size) ∧
      ∃ code'', complementEach positions code' = .ok code'' ∧
        ∀ bytes, encodeAll code = .ok bytes → code'' = code ∧ encodeAll code'' = .ok bytes := by
  have haccess : ∀ i ∈ positions, AccessAt code i := fun i hi => accessAt_iff.mpr (h i hi)
  obtain ⟨code', hcode', hturned⟩ := complementEach_exists hnodup haccess
  obtain ⟨code'', hcode'', hback⟩ := complementEach_exists hnodup hturned.accessAt
  refine ⟨code', hcode', hturned.length_eq, hturned.kept, ?_, hturned.byteOffset_eq,
    by rw [hturned.map_size], ?_, code'', hcode'', ?_⟩
  · intro i hi x p hx hp
    obtain ⟨a, x', y, hx', hy, hxy⟩ := hturned.turned i hi
    obtain rfl : x = x' := Option.some.inj (hx.symm.trans hx')
    obtain ⟨b, z, hxz, rfl⟩ := AccessPair.ofInstruction_eq_ok_iff.mp hp
    rw [hy, AccessPair.complement_ofHalves, hxy.unique hxz]
  · intro bytes hbytes
    obtain ⟨bytes', hbytes'⟩ := hturned.encodeAll_exists (encode_exists_of_mem hbytes)
    refine ⟨bytes', hbytes', ?_, fun k => hturned.exists_opcode_of_ne hbytes hbytes'⟩
    rw [length_encodeAll hbytes, length_encodeAll hbytes', hturned.map_size]
  · intro bytes hbytes
    have hcode := hturned.eq_of_twice hback (encode_exists_of_mem hbytes)
    exact ⟨hcode, by rw [hcode, hbytes]⟩

/-- A short load and a long store are turned around a branch, which keeps its place. -/
theorem complementEach_layout_branch :
    ∃ code code' : List Instruction,
      code = [⟨.ldlocS, some (.declared ⟨⟨⟨"int32", false⟩, 4⟩, 0, 4⟩)⟩, ⟨.br, some (.label (-7))⟩,
        ⟨.stloc, some (.declared ⟨⟨⟨"object", false⟩, 300⟩, 0, 300⟩)⟩, ⟨.ret, none⟩] ∧
      complementEach [2, 0] code = .ok code' ∧
      code'[2]? = some ⟨.ldloc, some (.declared ⟨⟨⟨"object", false⟩, 300⟩, 0, 300⟩)⟩ ∧
      byteOffset code' 3 = 11 ∧
      encodeAll code = .ok [0x11, 4, 0x38, 0xF9, 0xFF, 0xFF, 0xFF, 0xFE, 0x0E, 0x2C, 1, 0x2A] ∧
      (∃ bytes', encodeAll code' = .ok bytes' ∧ bytes'.length = 12) ∧
      complementEach [2, 0] code' = .ok code := by
  let code : List Instruction := [⟨.ldlocS, some (.declared ⟨⟨⟨"int32", false⟩, 4⟩, 0, 4⟩)⟩,
    ⟨.br, some (.label (-7))⟩, ⟨.stloc, some (.declared ⟨⟨⟨"object", false⟩, 300⟩, 0, 300⟩)⟩,
    ⟨.ret, none⟩]
  have hbytes : encodeAll code =
      .ok [0x11, 4, 0x38, 0xF9, 0xFF, 0xFF, 0xFF, 0xFE, 0x0E, 0x2C, 1, 0x2A] := rfl
  have haccess : ∀ i ∈ [2, 0], ∃ x p, code[i]? = some x ∧ AccessPair.ofInstruction x = .ok p :=
    List.forall_mem_cons.mpr ⟨⟨_, _, rfl, rfl⟩, List.forall_mem_singleton.mpr ⟨_, _, rfl, rfl⟩⟩
  obtain ⟨code', hcode', _, _, hturned, hoffset, _, hencode, code'', hcode'', hback⟩ :=
    complementEach_layout (by decide) haccess
  obtain ⟨bytes', hbytes', hlength, _⟩ := hencode _ hbytes
  obtain ⟨rfl, _⟩ := hback _ hbytes
  exact ⟨code, code', rfl, hcode', hturned 2 (by decide) _ _ rfl rfl, hoffset 3, hbytes,
    ⟨bytes', hbytes', hlength⟩, hcode''⟩

end MethodBody
