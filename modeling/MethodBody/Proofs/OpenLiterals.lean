import MethodBody.Proofs.LineByLine

namespace MethodBody

open LiteralState

/-- The instruction is printed over more than one line, since its string holds a line feed. -/
def Instruction.breaksLine (x : Instruction) : Bool :=
  match x.operand with
  | some (.string s) => s.toList.contains '\n'
  | _ => false

/-- What is left of an open literal when its line is trimmed, which keeps the quote. -/
def openLiteral (s : List Char) : List Char :=
  '"' :: trimEnd (escape s)

theorem trimmed_openLiteral (s : List Char) : Trimmed (openLiteral s) := by
  have hstart : trimStart ('"' :: escape s) = '"' :: escape s := rfl
  have htrim : trim ('"' :: escape s) = openLiteral s := by
    rw [trim, hstart]
    exact trimEnd_append_cons rfl [] (escape s)
  rw [← htrim]
  exact trimmed_trim _

/-- No text that stays within its literal is a whole one when blanks are taken away from its end. -/
theorem openLiteral_ne_quote (s t : List Char) : openLiteral s ≠ quote t := by
  intro he
  obtain ⟨behind, hbehind, hescape⟩ := trimEnd_eq (escape s)
  have hopen : '"' :: escape s = quote t ++ behind := by
    rw [← he, openLiteral, List.cons_append, ← hescape]
  have hinside : outside.after ('"' :: escape s) = inside := after_escape s
  have houtside := ((isClosed_quote t).append (isClosed_of_blank hbehind)).after_eq
  rw [← hopen, hinside] at houtside
  cases houtside

theorem readOperand_openLiteral (locals : Locals) (s : List Char) :
    readOperand locals .ldstr (openLiteral s) =
      .error (.invalidOperand .string .ldstr (String.ofList (openLiteral s))) := by
  have htoken : readToken (openLiteral s) = none := rfl
  have hquoted : readQuoted (openLiteral s) = none := by
    rw [Option.eq_none_iff_forall_ne_some]
    intro t ht
    exact openLiteral_ne_quote s t (readQuoted_eq_some_iff.mp ht)
  have hkind : Opcode.ldstr.operandKind = .string := rfl
  simp only [readOperand, hkind, htoken, hquoted]
  rfl

theorem readInstruction_openLiteral (locals : Locals) (s : List Char) :
    readInstruction locals (Opcode.ldstr.mnemonic.toList ++ ' ' :: openLiteral s) =
      .error (.invalidOperand .string .ldstr (String.ofList (openLiteral s))) := by
  rw [readInstruction_mnemonic locals .ldstr (trimmed_openLiteral s) (List.cons_ne_nil _ _),
    readOperand_openLiteral]
  rfl

/-- The first line of a broken literal is read as an operand as a whole. -/
theorem readLine_openLiteral (locals : Locals) (s : List Char) :
    readLine locals (Opcode.ldstr.mnemonic.toList ++ ' ' :: '"' :: escape s) =
      .error (.invalidOperand .string .ldstr (String.ofList (openLiteral s))) := by
  have hcomment : outside.NoComment (Opcode.ldstr.mnemonic.toList ++ ' ' :: '"' :: escape s) := by
    have hname : IsClosed Opcode.ldstr.mnemonic.toList :=
      isClosed_of_isNameChar fun c hc => isNameChar_of_mem_mnemonic hc
    refine hname.noComment.append ?_ (by simp)
    rw [hname.after_eq]
    exact NoComment.cons (NoComment.cons (noComment_escape s).of_append (by simp)) (by simp)
  have htrim : trim (Opcode.ldstr.mnemonic.toList ++ ' ' :: '"' :: escape s) =
      Opcode.ldstr.mnemonic.toList ++ ' ' :: openLiteral s :=
    trimEnd_append_cons rfl "ldstr ".toList (escape s)
  have hline : effectiveLine? (Opcode.ldstr.mnemonic.toList ++ ' ' :: '"' :: escape s) =
      some (Opcode.ldstr.mnemonic.toList ++ ' ' :: openLiteral s) := by
    refine effectiveLine?_eq_some ?_ (List.cons_ne_nil _ _)
    rw [beforeComment_eq_self hcomment, htrim]
  rw [readLine_of_instruction hline (directive?_mnemonic .ldstr _), readInstruction_openLiteral]
  rfl

theorem printCode_cons (x : Instruction) (code : List Instruction) :
    printCode (x :: code) = x.print ++ '\n' :: printCode code := by
  simp [printCode]

theorem Instruction.WellFormed.readLine_print {locals : Locals} {x : Instruction}
    (h : x.WellFormed locals) : readLine locals x.print = .ok [x] := by
  rw [readLine_of_instruction h.isEffective_print.effectiveLine?_eq x.directive?_print,
    h.readInstruction_print]
  rfl

/-- The code is read up to the first string with a line feed, and that is where the error is. -/
theorem readCode_printCode_broken {locals : Locals} {before : List Instruction} {s : String}
    (hbefore : ∀ x ∈ before, x.WellFormed locals) (hs : '\n' ∈ s.toList)
    (behind : List Instruction) :
    ∃ text, readCode locals
        (String.ofList (printCode (before ++ ⟨.ldstr, some (.string s)⟩ :: behind))) =
      .error (.atLine (before.length + 1) (.invalidOperand .string .ldstr text)) := by
  induction before with
  | nil =>
    obtain ⟨first, rest, he, hfirst⟩ := List.eq_append_cons_of_mem hs
    have hsingle : '\n' ∉ Opcode.ldstr.mnemonic.toList ++ ' ' :: '"' :: escape first := by
      have hname : '\n' ∉ Opcode.ldstr.mnemonic.toList := by decide
      have hescape : '\n' ∉ escape first := fun hm => by
        rcases mem_of_mem_escape hm with hm | hm
        · cases hm
        · exact hfirst hm
      simp [hname, hescape]
    have hprint : Instruction.print ⟨.ldstr, some (.string s)⟩ =
        (Opcode.ldstr.mnemonic.toList ++ ' ' :: '"' :: escape first) ++
          '\n' :: (escape rest ++ ['"']) := by
      have hescape : escape s.toList = escape first ++ '\n' :: escape rest := by
        rw [he, escape, List.flatMap_append]
        rfl
      simp [Instruction.print, Operand.print, quote, hescape]
    refine ⟨String.ofList (openLiteral first), ?_⟩
    rw [List.nil_append, printCode_cons, hprint, List.append_assoc, List.cons_append,
      readCode_line locals hsingle, readLine_openLiteral]
    rfl
  | cons x before ih =>
    obtain ⟨hx, hbefore⟩ := List.forall_mem_cons.mp hbefore
    obtain ⟨text, hread⟩ := ih hbefore
    have hbelow : 1 + (before.length + 1) = before.length + 1 + 1 := Nat.add_comm _ _
    refine ⟨text, ?_⟩
    rw [List.cons_append, printCode_cons, readCode_line locals hx.isEffective_print.single,
      hx.readLine_print, hread, List.length_cons, ← hbelow]
    rfl

namespace Instruction

/-- An instruction that a listing can hold, but for the line feeds that its string may have. -/
def Printable (locals : Locals) (x : Instruction) : Prop :=
  x.WellFormed locals ∨ ∃ s, x = ⟨.ldstr, some (.string s)⟩

variable {locals : Locals} {x : Instruction}

theorem Printable.wellFormed (h : x.Printable locals) (hx : x.breaksLine = false) :
    x.WellFormed locals := by
  rcases h with h | ⟨s, rfl⟩
  · exact h
  · rintro operand ⟨⟩
    exact .string rfl (by simpa [breaksLine] using hx)

theorem Printable.exists_string (h : x.Printable locals) (hx : x.breaksLine = true) :
    ∃ s, x = ⟨.ldstr, some (.string s)⟩ ∧ '\n' ∈ s.toList := by
  unfold breaksLine at hx
  split at hx
  next s hs =>
    have hfeed : '\n' ∈ s.toList := by simpa using hx
    rcases h with h | ⟨s', rfl⟩
    · cases h _ hs with
      | string _ hline => exact absurd hfeed hline
    · cases hs
      exact ⟨s, rfl, hfeed⟩
  next => cases hx

end Instruction

/-- Printed code is read as itself, or refused at the first string that holds a line feed. -/
theorem readCode_printCode_printable {locals : Locals} {code : List Instruction}
    (h : ∀ x ∈ code, x.Printable locals) :
    ((∀ x ∈ code, x.breaksLine = false) →
      readCode locals (String.ofList (printCode code)) = .ok code) ∧
    (∀ before x behind, code = before ++ x :: behind → (∀ y ∈ before, y.breaksLine = false) →
      x.breaksLine = true →
      ∃ text, readCode locals (String.ofList (printCode code)) =
        .error (.atLine (before.length + 1) (.invalidOperand .string .ldstr text))) ∧
    ∀ code', readCode locals (String.ofList (printCode code)) = .ok code' → code' = code := by
  have hwhole (hnone : ∀ x ∈ code, x.breaksLine = false) :
      readCode locals (String.ofList (printCode code)) = .ok code :=
    readCode_printCode fun x hx => (h x hx).wellFormed (hnone x hx)
  have hbroken : ∀ before x behind, code = before ++ x :: behind →
      (∀ y ∈ before, y.breaksLine = false) → x.breaksLine = true →
      ∃ text, readCode locals (String.ofList (printCode code)) =
        .error (.atLine (before.length + 1) (.invalidOperand .string .ldstr text)) := by
    rintro before x behind rfl hbefore hx
    obtain ⟨hprintable, hrest⟩ := List.forall_mem_append.mp h
    obtain ⟨s, rfl, hs⟩ := (hrest x List.mem_cons_self).exists_string hx
    exact readCode_printCode_broken
      (fun y hy => (hprintable y hy).wellFormed (hbefore y hy)) hs behind
  refine ⟨hwhole, hbroken, fun code' hread => ?_⟩
  cases hfind : code.find? Instruction.breaksLine with
  | none =>
    rw [hwhole (by simpa using hfind)] at hread
    cases hread
    rfl
  | some x =>
    obtain ⟨hx, before, behind, he, hbefore⟩ := List.find?_eq_some_iff_append.mp hfind
    obtain ⟨text, herror⟩ := hbroken before x behind he (by simpa using hbefore) hx
    rw [herror] at hread
    cases hread

/-- What follows the first line feed would be an instruction of its own. -/
theorem readCode_printCode_printable_instruction :
    ∃ text, readCode (.empty 0) "pop\nldstr \"a\\\" \nret // \"\nret\n" =
      .error (.atLine 2 (.invalidOperand .string .ldstr text)) := by
  have hprintable : ∀ x ∈ [⟨.pop, none⟩, ⟨.ldstr, some (.string "a\" \nret // ")⟩, ⟨.ret, none⟩],
      Instruction.Printable (.empty 0) x := by
    refine List.forall_mem_cons.mpr ⟨?_, List.forall_mem_cons.mpr
      ⟨?_, List.forall_mem_singleton.mpr ?_⟩⟩
    · left
      rintro operand ⟨⟩
    · exact .inr ⟨_, rfl⟩
    · left
      rintro operand ⟨⟩
  exact (readCode_printCode_printable hprintable).2.1 [⟨.pop, none⟩] _ [⟨.ret, none⟩] rfl
    (by decide) (by decide)

end MethodBody
