import MethodBody.Encoding
import MethodBody.Proofs.Success
import Mathlib.Algebra.Ring.Nat
import Mathlib.Data.List.Nodup

namespace MethodBody

theorem littleEndian_eq_iff {width m n : Nat} :
    littleEndian width m = littleEndian width n ↔ m % 256 ^ width = n % 256 ^ width := by
  induction width generalizing m n with
  | zero => simp [littleEndian, Nat.mod_one]
  | succ width ih =>
    have hbyte : m.toUInt8 = n.toUInt8 ↔ m % 256 = n % 256 := by
      rw [← UInt8.toNat_inj]
      exact Iff.rfl
    rw [littleEndian, littleEndian, List.cons.injEq, ih, hbyte, Nat.pow_succ', Nat.mod_mul,
      Nat.mod_mul]
    omega

namespace Opcode

theorem mem_all (op : Opcode) : op ∈ all := by
  cases op <;> decide

theorem number_injective {a b : Opcode} (h : a.number = b.number) : a = b :=
  List.inj_on_of_nodup_map (by decide : (all.map number).Nodup) (mem_all a) (mem_all b) h

/-- The first byte tells the page: on the page of one-byte opcodes, no number is that of the other
page. -/
theorem bytes_cases (op : Opcode) :
    (op.bytes = [op.number.toUInt8] ∧ op.number.toNat < 0xFE) ∨
      (op.bytes = [0xFE, op.number.toUInt8] ∧ op.number.toNat / 256 = 0xFE) := by
  cases op <;> decide

theorem bytes_append_inj {a b : Opcode} {r s : List UInt8} (h : a.bytes ++ r = b.bytes ++ s) :
    a = b ∧ r = s := by
  have low (op : Opcode) : op.number.toUInt8.toNat = op.number.toNat % 256 := rfl
  have ha := low a
  have hb := low b
  rcases bytes_cases a with ⟨ea, na⟩ | ⟨ea, na⟩ <;>
    rcases bytes_cases b with ⟨eb, nb⟩ | ⟨eb, nb⟩ <;>
    rw [ea, eb] at h
  · obtain ⟨hn, hr⟩ := List.cons.inj h
    rw [hn] at ha
    exact ⟨number_injective (UInt16.toNat_inj.mp (by omega)), hr⟩
  · obtain ⟨hn, _⟩ := List.cons.inj h
    rw [hn, show (0xFE : UInt8).toNat = 0xFE from rfl] at ha
    omega
  · obtain ⟨hn, _⟩ := List.cons.inj h
    rw [← hn, show (0xFE : UInt8).toNat = 0xFE from rfl] at hb
    omega
  · obtain ⟨_, h⟩ := List.cons.inj h
    obtain ⟨hn, hr⟩ := List.cons.inj h
    rw [hn] at ha
    exact ⟨number_injective (UInt16.toNat_inj.mp (by omega)), hr⟩

end Opcode

/-- A declared local stands in a method body as its number and nothing else. -/
def Operand.unresolved : Operand → Operand
  | .declared l => .index l.index
  | x => x

theorem Operand.unresolved_of_variableNumber? {x : Operand} {n : UInt16}
    (h : x.variableNumber? = some n) : x.unresolved = .index n := by
  cases x <;> cases h <;> rfl

/-- The operand of the kind that a number in a method body stands for. -/
def OperandKind.ofPayload : OperandKind → Nat → Option Operand
  | .nothing, _ => none
  | .shortVariable, n => some (.index n.toUInt16)
  | .longVariable, n => some (.index n.toUInt16)
  | .int8, n => some (.int32 (Int8.ofNat n).toInt32)
  | .int32, n => some (.int32 n.toUInt32.toInt32)
  | .int64, n => some (.int64 n.toUInt64.toInt64)
  | .branch, n => some (.label n.toUInt32.toInt32)
  | .string, n => some (.token n.toUInt32)
  | .token, n => some (.token n.toUInt32)

theorem low_byte_of_int8 {v : Int32} (hl : -128 ≤ v) (hu : v ≤ 127) :
    (Int8.ofNat (v.toUInt32.toNat % 256)).toInt32 = v := by
  have hl : -128 ≤ v.toInt := Int32.le_iff_toInt_le.mp hl
  have hu : v.toInt ≤ 127 := Int32.le_iff_toInt_le.mp hu
  have hv : (v.toUInt32.toNat : Int) = v.toInt % 2 ^ 32 := by
    have hb := v.toBitVec.isLt
    rw [← Int32.toInt_toBitVec, BitVec.toInt_eq_toNat_cond]
    show (v.toBitVec.toNat : Int) = _
    split <;> omega
  rw [← Int32.toInt_inj, Int8.toInt_toInt32, Int8.toInt_ofNat', Int.bmod]
  simp only [Int8.size]
  omega

theorem OperandKind.ofPayload_payload? {kind : OperandKind} {x : Option Operand} {n : Nat}
    (h : kind.payload? x = some n) :
    kind.ofPayload (n % 256 ^ kind.size) = x.map Operand.unresolved := by
  unfold payload? at h
  split at h
  next => rfl
  next x =>
    obtain ⟨h, hn⟩ := Option.filter_eq_some_iff.mp h
    obtain ⟨i, hi, rfl⟩ := Option.map_eq_some_iff.mp h
    have hn : i.toNat < 256 := of_decide_eq_true hn
    simp [ofPayload, size, Operand.unresolved_of_variableNumber? hi, Nat.mod_eq_of_lt hn]
  next x =>
    obtain ⟨i, hi, rfl⟩ := Option.map_eq_some_iff.mp h
    simp [ofPayload, size, Operand.unresolved_of_variableNumber? hi]
  next v =>
    split at h
    next hv =>
      cases h
      simp [ofPayload, size, Operand.unresolved, low_byte_of_int8 hv.1 hv.2]
    next => cases h
  next =>
    cases h
    simp [ofPayload, size, Operand.unresolved]
  next =>
    cases h
    simp [ofPayload, size, Operand.unresolved]
  next =>
    cases h
    simp [ofPayload, size, Operand.unresolved]
  next =>
    cases h
    simp [ofPayload, size, Operand.unresolved]
  next =>
    cases h
    simp [ofPayload, size, Operand.unresolved]
  next => cases h

namespace Instruction

theorem encode_eq_ok_iff {x : Instruction} {bytes : List UInt8} :
    x.encode = .ok bytes ↔ ∃ n, x.opcode.operandKind.payload? x.operand = some n ∧
      bytes = x.opcode.bytes ++ littleEndian x.opcode.operandKind.size n := by
  unfold encode
  cases x.opcode.operandKind.payload? x.operand <;> simp [eq_comm]

def unresolved (x : Instruction) : Instruction :=
  { x with operand := x.operand.map Operand.unresolved }

/-- Encodings at the head of the same bytes end together and differ at most in names of locals. -/
theorem encode_append_inj {x y : Instruction} {p q r s : List UInt8} (hx : x.encode = .ok p)
    (hy : y.encode = .ok q) (h : p ++ r = q ++ s) :
    x.unresolved = y.unresolved ∧ p = q ∧ r = s := by
  obtain ⟨m, hm, rfl⟩ := encode_eq_ok_iff.mp hx
  obtain ⟨n, hn, rfl⟩ := encode_eq_ok_iff.mp hy
  rw [List.append_assoc, List.append_assoc] at h
  obtain ⟨hop, h⟩ := Opcode.bytes_append_inj h
  rw [← hop] at hn h ⊢
  obtain ⟨hbytes, hrest⟩ := List.append_inj h (by simp)
  have hoperand : x.operand.map Operand.unresolved = y.operand.map Operand.unresolved := by
    rw [← OperandKind.ofPayload_payload? hm, ← OperandKind.ofPayload_payload? hn,
      littleEndian_eq_iff.mp hbytes]
  exact ⟨by rw [unresolved, unresolved, hop, hoperand], by rw [hbytes], hrest⟩

theorem encode_ne_nil (x : Instruction) : x.encode ≠ .ok [] := by
  intro h
  have hs := length_of_encode h
  simp only [List.length_nil, size, Opcode.size] at hs
  split at hs <;> omega

end Instruction

theorem encodeAll_cons (x : Instruction) (code : List Instruction) :
    encodeAll (x :: code) = x.encode.bind fun p => (encodeAll code).map (p ++ ·) := by
  simp only [encodeAll, List.mapM_cons]
  cases x.encode with
  | error e => rfl
  | ok p => cases code.mapM Instruction.encode <;> rfl

theorem encodeAll_cons_eq_ok {x : Instruction} {code : List Instruction} {bytes : List UInt8}
    (h : encodeAll (x :: code) = .ok bytes) :
    ∃ p rest, x.encode = .ok p ∧ encodeAll code = .ok rest ∧ bytes = p ++ rest := by
  rw [encodeAll_cons] at h
  obtain ⟨p, hx, h⟩ := bind_eq_ok_iff.mp h
  obtain ⟨rest, hc, h⟩ := map_eq_ok_iff.mp h
  exact ⟨p, rest, hx, hc, h.symm⟩

theorem encodeAll_exists {code : List Instruction} (h : ∀ x ∈ code, ∃ p, x.encode = .ok p) :
    ∃ bytes, encodeAll code = .ok bytes := by
  obtain ⟨ps, hps⟩ := mapM_exists_iff.mpr h
  exact ⟨ps.flatten, by rw [encodeAll, hps]; rfl⟩

theorem length_encodeAll {code : List Instruction} {bytes : List UInt8}
    (h : encodeAll code = .ok bytes) : bytes.length = (code.map Instruction.size).sum := by
  induction code generalizing bytes with
  | nil =>
    cases h
    rfl
  | cons x code ih =>
    obtain ⟨p, rest, hx, hrest, rfl⟩ := encodeAll_cons_eq_ok h
    rw [List.length_append, Instruction.length_of_encode hx, ih hrest, List.map_cons, List.sum_cons]

/-- The boundary of the first instruction is found again in the bytes, so the two streams stay in
step. -/
theorem unresolved_eq_of_encodeAll {a b : List Instruction} {bytes : List UInt8}
    (ha : encodeAll a = .ok bytes) (hb : encodeAll b = .ok bytes) :
    a.map Instruction.unresolved = b.map Instruction.unresolved := by
  induction a generalizing b bytes with
  | nil =>
    cases b with
    | nil => rfl
    | cons y b =>
      cases ha
      obtain ⟨q, rest, hy, _, hnil⟩ := encodeAll_cons_eq_ok hb
      cases (List.append_eq_nil_iff.mp hnil.symm).1
      exact absurd hy y.encode_ne_nil
  | cons x a ih =>
    obtain ⟨p, s, hx, hs, hp⟩ := encodeAll_cons_eq_ok ha
    cases b with
    | nil =>
      cases hb
      cases (List.append_eq_nil_iff.mp hp.symm).1
      exact absurd hx x.encode_ne_nil
    | cons y b =>
      obtain ⟨q, t, hy, ht, hq⟩ := encodeAll_cons_eq_ok hb
      obtain ⟨hxy, _, rfl⟩ := Instruction.encode_append_inj hx hy (hp.symm.trans hq)
      rw [List.map_cons, List.map_cons, hxy, ih hs ht]

/-- Bytes tell their instructions up to names of locals, and no encoding is the start of another. -/
theorem encodeAll_uniquely_decodable :
    (∀ a b : List Instruction, (∀ x ∈ a, ∃ p, x.encode = .ok p) →
      (∀ y ∈ b, ∃ q, y.encode = .ok q) → encodeAll a = encodeAll b →
      a.length = b.length ∧ ∀ (i : Nat) (x y : Instruction), a[i]? = some x → b[i]? = some y →
        x.opcode = y.opcode ∧
          x.operand.map Operand.unresolved = y.operand.map Operand.unresolved) ∧
    (∀ (x y : Instruction) (p q : List UInt8), x.encode = .ok p → y.encode = .ok q → p <+: q →
      p = q) := by
  constructor
  · intro a b ha _ h
    obtain ⟨bytes, hbytes⟩ := encodeAll_exists ha
    have heq := unresolved_eq_of_encodeAll hbytes (h ▸ hbytes)
    refine ⟨by simpa using congrArg List.length heq, ?_⟩
    intro i x y hx hy
    have hi : some x.unresolved = some y.unresolved := by
      simpa [hx, hy] using congrArg (·[i]?) heq
    have hxy := Option.some.inj hi
    exact ⟨congrArg (fun z => z.opcode) hxy, congrArg (fun z => z.operand) hxy⟩
  · rintro x y p q hx hy ⟨r, rfl⟩
    exact (Instruction.encode_append_inj (r := r) (s := []) hx hy (by simp)).2.1

/-- Each list names one of its locals by the bare number, and both have the same bytes. -/
theorem encodeAll_uniquely_decodable_numbers :
    ∃ a b : List Instruction,
      a = [⟨.ldlocS, some (.declared ⟨⟨⟨"int32", false⟩, 4⟩, 0, 4⟩)⟩, ⟨.stloc, some (.index 300)⟩] ∧
      b = [⟨.ldlocS, some (.index 4)⟩,
        ⟨.stloc, some (.declared ⟨⟨⟨"object", true⟩, 300⟩, 1, 300⟩)⟩] ∧
      encodeAll a = .ok [0x11, 0x04, 0xFE, 0x0E, 0x2C, 0x01] ∧
      encodeAll b = .ok [0x11, 0x04, 0xFE, 0x0E, 0x2C, 0x01] ∧ a.length = b.length ∧
      (∃ x y, a[1]? = some x ∧ b[1]? = some y ∧ x ≠ y ∧ x.opcode = y.opcode ∧
        x.operand.map Operand.unresolved = y.operand.map Operand.unresolved) ∧
      ∃ x y p q, a[0]? = some x ∧ b[0]? = some y ∧ x.encode = .ok p ∧ y.encode = .ok q ∧
        p <+: q ∧ p = q := by
  let a : List Instruction :=
    [⟨.ldlocS, some (.declared ⟨⟨⟨"int32", false⟩, 4⟩, 0, 4⟩)⟩, ⟨.stloc, some (.index 300)⟩]
  let b : List Instruction :=
    [⟨.ldlocS, some (.index 4)⟩, ⟨.stloc, some (.declared ⟨⟨⟨"object", true⟩, 300⟩, 1, 300⟩)⟩]
  have ha : ∀ x ∈ a, ∃ p, x.encode = .ok p :=
    List.forall_mem_cons.mpr ⟨⟨_, rfl⟩, List.forall_mem_singleton.mpr ⟨_, rfl⟩⟩
  have hb : ∀ y ∈ b, ∃ q, y.encode = .ok q :=
    List.forall_mem_cons.mpr ⟨⟨_, rfl⟩, List.forall_mem_singleton.mpr ⟨_, rfl⟩⟩
  have hbytes : encodeAll a = .ok [0x11, 0x04, 0xFE, 0x0E, 0x2C, 0x01] := rfl
  have hbytes' : encodeAll b = .ok [0x11, 0x04, 0xFE, 0x0E, 0x2C, 0x01] := rfl
  obtain ⟨hlists, hencodings⟩ := encodeAll_uniquely_decodable
  obtain ⟨hlength, hsame⟩ := hlists a b ha hb (hbytes.trans hbytes'.symm)
  refine ⟨a, b, rfl, rfl, hbytes, hbytes', hlength, ?_, ?_⟩
  · exact ⟨_, _, rfl, rfl, by decide, hsame 1 _ _ rfl rfl⟩
  · have hfirst : (⟨.ldlocS, some (.declared ⟨⟨⟨"int32", false⟩, 4⟩, 0, 4⟩)⟩ : Instruction).encode =
        .ok [0x11, 0x04] := rfl
    have hfirst' : (⟨.ldlocS, some (.index 4)⟩ : Instruction).encode = .ok [0x11, 0x04] := rfl
    exact ⟨_, _, _, _, rfl, rfl, hfirst, hfirst', List.prefix_refl _,
      hencodings _ _ _ _ hfirst hfirst' (List.prefix_refl _)⟩

end MethodBody
