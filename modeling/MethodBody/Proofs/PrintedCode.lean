import MethodBody.Proofs.PrintedLines
import MethodBody.Proofs.Success
import Mathlib.Tactic.TFAE

namespace MethodBody

theorem ofMnemonic?_mnemonic (op : Opcode) : Opcode.ofMnemonic? op.mnemonic.toList = some op := by
  cases op <;> decide

theorem behindLabel_eq_self {line : List Char} (h : ¬"IL_".toList <+: line) :
    behindLabel line = line := by
  have hlabel : ¬"IL_".toList.isPrefixOf line = true := List.isPrefixOf_iff_prefix.not.mpr h
  unfold behindLabel
  split
  next => rw [if_neg hlabel]
  next => rfl

/-- No mnemonic begins like a label. -/
theorem behindLabel_mnemonic (op : Opcode) (rest : List Char) :
    behindLabel (op.mnemonic.toList ++ rest) = op.mnemonic.toList ++ rest := by
  apply behindLabel_eq_self
  rw [← List.isPrefixOf_iff_prefix, Bool.not_eq_true]
  cases op <;> rfl

theorem isBlank_of_mem_mnemonic {op : Opcode} {c : Char} (h : c ∈ op.mnemonic.toList) :
    isBlank c = false :=
  isBlank_of_isNameChar (isNameChar_of_mem_mnemonic h)

theorem directive?_mnemonic (op : Opcode) (rest : List Char) :
    directive? (op.mnemonic.toList ++ rest) = none := by
  cases op <;> rfl

section InstructionParts

variable {locals : Locals} {op : Opcode} {line name rest : List Char}
  (hline : behindLabel line = name ++ rest) (hname : ∀ c ∈ name, isBlank c = false)
  (hop : Opcode.ofMnemonic? name = some op) (hrest : ∀ c ∈ rest.head?, isBlank c = true)

include hline hname hop hrest

theorem readInstruction_bare (htrim : trim rest = []) :
    readInstruction locals line = .ok ⟨op, none⟩ := by
  rw [readInstruction, hline, splitWord_eq hname hrest]
  simp only [hop, htrim]

theorem readInstruction_operand {text : List Char} (htrim : trim rest = text) (hne : text ≠ []) :
    readInstruction locals line =
      (readOperand locals op text).map fun operand => ⟨op, some operand⟩ := by
  obtain ⟨c, cs, rfl⟩ := List.exists_cons_of_ne_nil hne
  rw [readInstruction, hline, splitWord_eq hname hrest]
  simp only [hop, htrim]
  cases readOperand locals op (c :: cs) <;> rfl

end InstructionParts

theorem readInstruction_mnemonic (locals : Locals) (op : Opcode) {text : List Char}
    (htext : Trimmed text) (hne : text ≠ []) :
    readInstruction locals (op.mnemonic.toList ++ ' ' :: text) =
      (readOperand locals op text).map fun operand => ⟨op, some operand⟩ := by
  have hgap : ∀ c ∈ [' '], isBlank c = true := List.forall_mem_singleton.mpr rfl
  have hblank : ∀ c ∈ (' ' :: text).head?, isBlank c = true := by
    intro c hc
    cases Option.some.inj hc
    rfl
  have htrim : trim (' ' :: text) = text := by
    rw [← List.singleton_append, trim_blank_append hgap, htext.trim_eq]
  exact readInstruction_operand (behindLabel_mnemonic op _) (fun _ hc => isBlank_of_mem_mnemonic hc)
    (ofMnemonic?_mnemonic op) hblank htrim hne

namespace Instruction

theorem print_none (op : Opcode) : print ⟨op, none⟩ = op.mnemonic.toList ++ [] := by
  simp [print]

theorem exists_print_eq (x : Instruction) : ∃ rest, x.print = x.opcode.mnemonic.toList ++ rest := by
  obtain ⟨op, operand⟩ := x
  cases operand with
  | none => exact ⟨[], print_none op⟩
  | some operand => exact ⟨' ' :: operand.print, rfl⟩

theorem directive?_print (x : Instruction) : directive? x.print = none := by
  obtain ⟨rest, hx⟩ := x.exists_print_eq
  rw [hx, directive?_mnemonic]

/-- A well-formed instruction is what its own print is read as. -/
theorem WellFormed.readInstruction_print {locals : Locals} {x : Instruction}
    (h : x.WellFormed locals) : readInstruction locals x.print = .ok x := by
  obtain ⟨op, operand⟩ := x
  cases operand with
  | none =>
    rw [print_none]
    exact readInstruction_bare (behindLabel_mnemonic op []) (fun _ hc => isBlank_of_mem_mnemonic hc)
      (ofMnemonic?_mnemonic op) (by simp) rfl
  | some operand =>
    have hwf := h operand rfl
    have heff := hwf.isEffective_print
    show readInstruction locals (op.mnemonic.toList ++ ' ' :: operand.print) = _
    rw [readInstruction_mnemonic locals op heff.trimmed heff.ne_nil, readOperand_print hwf]
    rfl

end Instruction

theorem mem_of_mem_behindLabel {line : List Char} {c : Char} (h : c ∈ behindLabel line) :
    c ∈ line := by
  unfold behindLabel at h
  split at h
  next rest he =>
    split at h
    next =>
      have hm : c ∈ line.dropWhile (· != ':') := by
        rw [he]
        exact List.mem_cons_of_mem ':' (mem_of_mem_trim h)
      exact (List.dropWhile_sublist _).mem hm
    next => exact h
  next => exact h

theorem wellFormed_of_readInstruction {locals : Locals} {line : List Char} {x : Instruction}
    (hline : '\n' ∉ line) (h : readInstruction locals line = .ok x) : x.WellFormed locals := by
  have hrest : '\n' ∉ trim (splitWord (behindLabel line)).2 := by
    intro hm
    apply hline
    apply mem_of_mem_behindLabel
    rw [← splitWord_append (behindLabel line)]
    exact List.mem_append_right _ (mem_of_mem_trim hm)
  unfold readInstruction at h
  dsimp only at h
  split at h
  next => cases h
  next op _ =>
    split at h
    next =>
      cases h
      rintro operand ⟨⟩
    next c cs he =>
      rw [he] at hrest
      obtain ⟨operand, hx, h⟩ := bind_eq_ok_iff.mp h
      cases h
      rintro _ ⟨⟩
      exact wellFormed_of_readOperand hrest hx

theorem readCode_eq_ok_iff {locals : Locals} {text : String} {code : List Instruction} :
    readCode locals text = .ok code ↔
      List.Forall₂ (fun line x => readInstruction locals line = .ok x)
        ((plainLines text.toList).filter fun line => (directive? line).isNone) code := by
  have hlines : (codeLines text).map Prod.snd =
      (plainLines text.toList).filter fun line => (directive? line).isNone := by
    rw [codeLines, ← map_snd_effectiveLines, List.filter_map]
    rfl
  rw [readCode, mapM_eq_ok_iff, ← hlines, List.forall₂_map_left_iff]
  simp only [mapError_eq_ok_iff]

theorem wellFormed_of_readCode {locals : Locals} {text : String} {code : List Instruction}
    (h : readCode locals text = .ok code) : ∀ x ∈ code, x.WellFormed locals := by
  have hread := readCode_eq_ok_iff.mp h
  have hlines : ∀ line ∈ (plainLines text.toList).filter fun line => (directive? line).isNone,
      '\n' ∉ line := fun line hl => (isEffective_of_mem (List.mem_of_mem_filter hl)).single
  clear h
  generalize (plainLines text.toList).filter _ = lines at hlines hread
  induction hread with
  | nil => simp
  | @cons line x lines code hx _ ih =>
    intro y hy
    rcases List.mem_cons.mp hy with rfl | hy
    · exact wellFormed_of_readInstruction (hlines line List.mem_cons_self) hx
    · exact ih (fun l hl => hlines l (List.mem_cons_of_mem line hl)) y hy

/-- The printed lines of well-formed code all count as code and are read as what they print. -/
theorem forall₂_readInstruction_print {locals : Locals} {code : List Instruction}
    (h : ∀ x ∈ code, x.WellFormed locals) :
    List.Forall₂ (fun line x => readInstruction locals line = .ok x)
      ((code.map Instruction.print).filter fun line => (directive? line).isNone) code := by
  have hall : ∀ line ∈ code.map Instruction.print, (directive? line).isNone = true := by
    intro line hl
    obtain ⟨x, _, rfl⟩ := List.mem_map.mp hl
    rw [x.directive?_print]
    rfl
  rw [List.filter_eq_self.mpr hall, List.forall₂_map_left_iff]
  exact List.forall₂_same.mpr fun x hx => (h x hx).readInstruction_print

theorem isEffective_of_mem_map_print {locals : Locals} {code : List Instruction}
    (h : ∀ x ∈ code, x.WellFormed locals) :
    ∀ line ∈ code.map Instruction.print, IsEffective line := by
  intro line hl
  obtain ⟨x, hx, rfl⟩ := List.mem_map.mp hl
  exact (h x hx).isEffective_print

theorem readCode_printCode {locals : Locals} {code : List Instruction}
    (h : ∀ x ∈ code, x.WellFormed locals) :
    readCode locals (String.ofList (printCode code)) = .ok code := by
  have hprint : printCode code =
      (code.map Instruction.print).flatMap fun line => line ++ ['\n'] := by
    rw [printCode, List.flatMap_map]
  rw [readCode_eq_ok_iff, String.toList_ofList, hprint,
    plainLines_flatMap (isEffective_of_mem_map_print h)]
  exact forall₂_readInstruction_print h

/-- Code can be read at all just if it is well-formed, and then its own print is read as it. -/
theorem readable_tfae (locals : Locals) (code : List Instruction) :
    List.TFAE [∃ text, readCode locals text = .ok code, ∀ x ∈ code, x.WellFormed locals,
      readCode locals (String.ofList (printCode code)) = .ok code] := by
  tfae_have 1 → 2 := fun ⟨_, h⟩ => wellFormed_of_readCode h
  tfae_have 2 → 3 := readCode_printCode
  tfae_have 3 → 1 := fun h => ⟨_, h⟩
  tfae_finish

end MethodBody
