import MethodBody.Encoding
import MethodBody.Proofs.Joining

namespace MethodBody

theorem Operand.eq_of_rebind? {locals : Locals} {x y : Operand} (h : x.rebind? locals = some y) :
    x = y ∨ ∃ l l', x = .declared l ∧ y = .declared l' ∧ l'.index = l.index := by
  cases x with
  | declared l =>
    obtain ⟨l', hl, rfl⟩ := Option.map_eq_some_iff.mp h
    exact .inr ⟨l, l', rfl, rfl, (locals.numbered.get?_eq_some_iff.mp hl).2.2.1⟩
  | _ => exact .inl (Option.some.inj h)

/-- Locals of the same number have the same print and the same bytes. -/
theorem Instruction.print_encode_of_rebind? {locals : Locals} {x y : Instruction}
    (h : x.rebind? locals = some y) : y.print = x.print ∧ y.encode = x.encode := by
  obtain ⟨op, operand⟩ := x
  cases operand with
  | none =>
    cases h
    exact ⟨rfl, rfl⟩
  | some operand =>
    obtain ⟨operand', ho, rfl⟩ := Option.map_eq_some_iff.mp h
    rcases Operand.eq_of_rebind? ho with rfl | ⟨l, l', rfl, rfl, hindex⟩
    · exact ⟨rfl, rfl⟩
    · have hprint : (Operand.declared l').print = (Operand.declared l).print := by
        simp only [Operand.print, hindex]
      have hpayload (kind : OperandKind) :
          kind.payload? (some (.declared l')) = kind.payload? (some (.declared l)) := by
        cases kind <;> simp only [OperandKind.payload?, Operand.variableNumber?, hindex]
      exact ⟨by simp only [print, hprint], by simp only [encode, hpayload]⟩

/-- How the answers to a text against some locals and against more compare. -/
inductive Extended {α : Type} (first second : Locals) (rebind? : α → Option α) :
    Except Fault α → Except Fault α → Prop
  | read {x y : α} (h : rebind? x = some y) : Extended first second rebind? (.ok x) (.ok y)
  | refused (fault : Fault) : Extended first second rebind? (.error fault) (.error fault)
  | undeclared {n : UInt16} {y : α} (h : first.size < second.size) :
    Extended first second rebind? (.error (.undeclaredLocal n)) (.ok y)

theorem LocalTable.get?_eq_none_iff {table : LocalTable} {n : UInt16} :
    table.get? n = none ↔ table.size ≤ n.toNat := by
  rw [← Option.not_isSome_iff_eq_none, isSome_get?, Nat.not_lt]

section TwoTables

variable {first second : Locals} (h : first.size ≤ second.size)

include h

theorem extended_readOperand (op : Opcode) (text : List Char) :
    Extended first second (Operand.rebind? second) (readOperand first op text)
      (readOperand second op text) := by
  have hself := readOperand_resolve first first op text
  rw [readOperand_resolve first second]
  cases hread : readOperand first op text with
  | ok x =>
    rw [hread] at hself
    cases x with
    | declared l =>
      obtain ⟨_, hl, he⟩ := Locals.named_eq_ok_iff.mp hself.symm
      cases he
      have hbound : l.index.toNat < first.size :=
        (first.isSome_get? l.index).mp (Option.isSome_of_eq_some hl)
      obtain ⟨l', hl'⟩ := Option.isSome_iff_exists.mp
        ((second.isSome_get? l.index).mpr (Nat.lt_of_lt_of_le hbound h))
      have hname : second.resolve (.ok (.declared l)) = .ok (.declared l') :=
        Locals.named_eq_ok_iff.mpr ⟨l', hl', rfl⟩
      rw [hname]
      exact .read (by rw [Operand.rebind?, hl']; rfl)
    | _ => exact .read rfl
  | error fault =>
    rw [hread] at hself
    cases fault with
    | undeclaredLocal n =>
      have hn := (Locals.named_eq_error_iff.mp hself.symm).1
      show Extended _ _ _ _ (second.named n)
      cases hname : second.named n with
      | ok y =>
        obtain ⟨l', hl', rfl⟩ := Locals.named_eq_ok_iff.mp hname
        have hbound := (second.isSome_get? n).mp (Option.isSome_of_eq_some hl')
        exact .undeclared (Nat.lt_of_le_of_lt (LocalTable.get?_eq_none_iff.mp hn) hbound)
      | error fault =>
        obtain ⟨_, rfl⟩ := Locals.named_eq_error_iff.mp hname
        exact .refused _
    | _ => exact .refused _

theorem extended_readInstruction (line : List Char) :
    Extended first second (Instruction.rebind? second) (readInstruction first line)
      (readInstruction second line) := by
  rcases readInstruction_cases line with ⟨fault, hline⟩ | ⟨op, hline⟩ | ⟨op, text, hline⟩
  · rw [hline, hline]
    exact .refused fault
  · rw [hline, hline]
    exact .read rfl
  · rw [hline, hline]
    have hoperand := extended_readOperand h op text
    generalize readOperand first op text = a at hoperand ⊢
    generalize readOperand second op text = b at hoperand ⊢
    cases hoperand with
    | read hx => exact .read (by simp only [Instruction.rebind?, hx]; rfl)
    | refused fault => exact .refused fault
    | undeclared hsize => exact .undeclared hsize

end TwoTables

/-- How the code of a text against some locals and against more compares. Errors vanish or come
later. -/
inductive ExtendedCode (first second : Locals) :
    Except Error (List Instruction) → Except Error (List Instruction) → Prop
  | read {code code' : List Instruction} (h : code.mapM (Instruction.rebind? second) = some code') :
    ExtendedCode first second (.ok code) (.ok code')
  | refused (e : Error) : ExtendedCode first second (.error e) (.error e)
  | undeclared {m : Nat} {fault : Fault} {answer : Except Error (List Instruction)}
    (h : first.size < second.size)
    (hlater : ∀ n fault', answer = .error (.atLine n fault') → m ≤ n) :
    ExtendedCode first second (.error (.atLine m fault)) answer

theorem extended_readEach {first second : Locals} (h : first.size ≤ second.size)
    {lines : List (Nat × List Char)} (hlines : lines.Pairwise (·.1 < ·.1)) :
    ExtendedCode first second (readEach (readInstruction first) lines)
      (readEach (readInstruction second) lines) := by
  induction hlines with
  | nil => exact .read rfl
  | @cons p lines hbelow _ ih =>
    obtain ⟨n, line⟩ := p
    rw [readEach_cons, readEach_cons]
    have hrest (e : Error) (he : readEach (readInstruction second) lines = .error e) :
        ∃ m ∈ lines.map Prod.fst, ∃ fault, e = .atLine m fault :=
      exists_atLine_of_readEach (readInstruction second) he
    have hline := extended_readInstruction h line
    generalize readInstruction first line = a at hline ⊢
    generalize readInstruction second line = b at hline ⊢
    generalize readEach (readInstruction first) lines = as at ih ⊢
    generalize readEach (readInstruction second) lines = bs at ih hrest ⊢
    cases hline with
    | refused fault => exact .refused _
    | undeclared hsize =>
      -- The second reading can only fail further down.
      refine .undeclared hsize fun k fault' he => ?_
      cases bs with
      | ok ys => cases he
      | error e =>
        cases he
        obtain ⟨m, hm, fault, hk⟩ := hrest _ rfl
        cases hk
        obtain ⟨q, hq, rfl⟩ := List.mem_map.mp hm
        exact Nat.le_of_lt (hbelow q hq)
    | read hx =>
      cases ih with
      | read hcode => exact .read (by rw [List.mapM_cons, hx, hcode]; rfl)
      | refused e => exact .refused e
      | undeclared hsize hlater =>
        refine .undeclared hsize fun k fault' he => ?_
        cases bs with
        | ok ys => cases he
        | error e =>
          cases he
          exact hlater k fault' rfl

theorem codeLines_increasing (text : String) : (codeLines text).Pairwise (·.1 < ·.1) := by
  refine List.Pairwise.filter _ ?_
  refine (zipIdx_increasing (text.toList.splitOn '\n') 1).filterMap _ ?_
  rintro ⟨_, i⟩ ⟨_, j⟩ hij p hp q hq
  obtain ⟨_, _, rfl⟩ := Option.map_eq_some_iff.mp hp
  obtain ⟨_, _, rfl⟩ := Option.map_eq_some_iff.mp hq
  exact hij

theorem extended_readCode {first second : Locals} (h : first.size ≤ second.size) (text : String) :
    ExtendedCode first second (readCode first text) (readCode second text) :=
  extended_readEach h (codeLines_increasing text)

theorem forall₂_of_mapM_rebind? {locals : Locals} {code code' : List Instruction}
    (h : code.mapM (Instruction.rebind? locals) = some code') :
    List.Forall₂ (fun x y => y.print = x.print ∧ y.encode = x.encode) code code' := by
  induction code generalizing code' with
  | nil =>
    cases h
    exact .nil
  | cons x code ih =>
    rw [List.mapM_cons] at h
    obtain ⟨y, hy, h⟩ := Option.bind_eq_some_iff.mp h
    obtain ⟨ys, hys, h⟩ := Option.bind_eq_some_iff.mp h
    cases h
    exact .cons (Instruction.print_encode_of_rebind? hy) (ih hys)

/-- Code that is read against some locals is read against more, and prints and encodes alike. -/
theorem readCode_more_locals {first second : Locals} (h : first.size ≤ second.size)
    (text : String) :
    (∀ code, readCode first text = .ok code → ∃ code',
      readCode second text = .ok code' ∧
      code.mapM (Instruction.rebind? second) = some code' ∧
      List.Forall₂ (fun x y => y.print = x.print ∧ y.encode = x.encode) code code') ∧
    (∀ n fault, readCode second text = .error (.atLine n fault) →
      ∃ m fault', m ≤ n ∧ readCode first text = .error (.atLine m fault')) ∧
    (first.size = second.size →
      ∀ e, readCode first text = .error e ↔ readCode second text = .error e) := by
  have hread := extended_readCode h text
  generalize readCode first text = a at hread ⊢
  generalize readCode second text = b at hread ⊢
  cases hread with
  | @read code code' hcode =>
    refine ⟨?_, ?_, ?_⟩
    · rintro _ ⟨⟩
      exact ⟨code', rfl, hcode, forall₂_of_mapM_rebind? hcode⟩
    · rintro n fault ⟨⟩
    · rintro _ e
      simp
  | refused e =>
    refine ⟨?_, ?_, fun _ _ => Iff.rfl⟩
    · rintro _ ⟨⟩
    · rintro n fault ⟨⟩
      exact ⟨n, fault, Nat.le_refl n, rfl⟩
  | @undeclared m fault _ hsize hlater =>
    refine ⟨?_, ?_, ?_⟩
    · rintro _ ⟨⟩
    · rintro n fault' he
      exact ⟨m, fault, hlater n fault' he, rfl⟩
    · intro he
      omega

/-- The new local moves the fault from the second line to the third. Another type makes no
difference. -/
theorem readCode_more_locals_one_new :
    readCode ((Locals.empty 1).declareAll [⟨"string", true⟩, ⟨"int32", false⟩])
        "ldloc V_0\nldloc V_1\nadd 1" = .error (.atLine 3 (.strayOperand .add "1")) ∧
      (∃ m fault, m ≤ 3 ∧ readCode ((Locals.empty 0).declareAll [⟨"int32", false⟩])
        "ldloc V_0\nldloc V_1\nadd 1" = .error (.atLine m fault)) ∧
      ∃ code', readCode ((Locals.empty 1).declareAll [⟨"string", true⟩, ⟨"int32", false⟩])
          "IL_0: stloc.s V_0" = .ok code' ∧
        List.Forall₂ (fun x y : Instruction => y.print = x.print ∧ y.encode = x.encode)
          [⟨.stlocS, some (.declared ⟨⟨⟨"int32", false⟩, 0⟩, 0, 0⟩)⟩] code' := by
  let first : Locals := (Locals.empty 0).declareAll [⟨"int32", false⟩]
  let second : Locals :=
    (Locals.empty 1).declareAll [⟨"string", true⟩, ⟨"int32", false⟩]
  have hsize : first.size ≤ second.size := by decide
  have hsecond : readCode second "ldloc V_0\nldloc V_1\nadd 1" =
      .error (.atLine 3 (.strayOperand .add "1")) := rfl
  have hfirst : readCode first "IL_0: stloc.s V_0" =
      .ok [⟨.stlocS, some (.declared ⟨⟨⟨"int32", false⟩, 0⟩, 0, 0⟩)⟩] := rfl
  obtain ⟨code', hcode', _, hsame⟩ := (readCode_more_locals hsize _).1 _ hfirst
  exact ⟨hsecond, (readCode_more_locals hsize _).2.1 3 _ hsecond, code', hcode', hsame⟩

end MethodBody
