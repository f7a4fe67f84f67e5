import MethodBody.Proofs.Lines
import MethodBody.Proofs.Operands

namespace MethodBody

open LiteralState

/-- The characters of mnemonics, numerals and names of locals. -/
def isNameChar (c : Char) : Bool :=
  c.isAlphanum || c == '.' || c == '-' || c == '_'

theorem isNameChar_bounds {c : Char} (h : isNameChar c = true) :
    0x2D ≤ c.toNat ∧ c.toNat ≤ 0x7A := by
  have hupper (h : c.isUpper = true) : 0x41 ≤ c.toNat ∧ c.toNat ≤ 0x5A := of_decide_eq_true h
  have hlower (h : c.isLower = true) : 0x61 ≤ c.toNat ∧ c.toNat ≤ 0x7A :=
    (Bool.and_eq_true_iff.mp h).imp of_decide_eq_true of_decide_eq_true
  have hdigit (h : c.isDigit = true) : 0x30 ≤ c.toNat ∧ c.toNat ≤ 0x39 :=
    Char.isDigit_iff_toNat.mp h
  simp only [isNameChar, Bool.or_eq_true, beq_iff_eq] at h
  rcases h with ((h | rfl) | rfl) | rfl
  · have halphanum : ((c.isUpper || c.isLower) || c.isDigit) = true := h
    simp only [Bool.or_eq_true] at halphanum
    rcases halphanum with (h | h) | h
    · have := hupper h
      omega
    · have := hlower h
      omega
    · have := hdigit h
      omega
  all_goals decide

theorem isBlank_of_isNameChar {c : Char} (h : isNameChar c = true) : isBlank c = false := by
  obtain ⟨hl, hu⟩ := isNameChar_bounds h
  simp [isBlank]
  omega

theorem not_mem_of_isNameChar {cs : List Char} {c : Char} (h : ∀ d ∈ cs, isNameChar d = true)
    (hc : isNameChar c = false) : c ∉ cs := by
  intro hm
  rw [h c hm] at hc
  cases hc

theorem isClosed_of_blank {cs : List Char} (h : ∀ c ∈ cs, isBlank c = true) : IsClosed cs :=
  isClosed_of_not_mem (fun hm => absurd (h _ hm) (by decide)) fun hm => absurd (h _ hm) (by decide)

theorem isClosed_of_isNameChar {cs : List Char} (h : ∀ c ∈ cs, isNameChar c = true) :
    IsClosed cs :=
  isClosed_of_not_mem (not_mem_of_isNameChar h rfl) (not_mem_of_isNameChar h rfl)

theorem isEffective_of_isNameChar {cs : List Char} (hne : cs ≠ [])
    (h : ∀ c ∈ cs, isNameChar c = true) : IsEffective cs := by
  have hword : IsWord cs := ⟨hne, fun c hc => isBlank_of_isNameChar (h c hc)⟩
  exact hword.isEffective (noComment_of_not_mem (not_mem_of_isNameChar h rfl))

/-- A name and what stands behind it on a line do not get in each other's way. -/
theorem IsEffective.append_name {name rest : List Char} (h : IsEffective rest) (hne : name ≠ [])
    (hn : ∀ c ∈ name, isNameChar c = true) : IsEffective (name ++ ' ' :: rest) := by
  have hname := isEffective_of_isNameChar hne hn
  refine ⟨by simp, ⟨?_, ?_⟩, ?_, ?_⟩
  · obtain ⟨c, cs, rfl⟩ := List.exists_cons_of_ne_nil hne
    exact hname.trimmed.1
  · intro c hc
    apply h.trimmed.2 c
    rwa [List.append_cons, List.getLast?_append_of_ne_nil _ h.ne_nil] at hc
  · refine hname.noComment.append ?_ (by simp)
    rw [after_outside (not_mem_of_isNameChar hn rfl)]
    exact NoComment.cons h.noComment (by simp)
  · intro hm
    rcases List.mem_append.mp hm with hm | hm
    · exact hname.single hm
    · exact h.single (by simpa using hm)

/-- Within a literal no character counts as the start of a comment. -/
theorem noComment_escape (s : List Char) : inside.NoComment (escape s ++ ['"']) := by
  induction s with
  | nil => exact noComment_of_not_mem (by simp [escape])
  | cons c s ih =>
    rw [escape_cons, List.append_assoc]
    split
    next hc => exact NoComment.cons (NoComment.cons ih (by simp [next])) (by simp)
    next hc =>
      obtain ⟨hq, hb⟩ : c ≠ '"' ∧ c ≠ '\\' := by simpa [isSpecial] using hc
      refine NoComment.cons ?_ (by simp)
      simpa [next, hq, hb] using ih

/-- An escaped text does not get out of its literal. -/
theorem after_escape (s : List Char) : inside.after (escape s) = inside := by
  induction s with
  | nil => rfl
  | cons c s ih =>
    rw [escape_cons, after_append]
    split
    next => exact ih
    next hc =>
      obtain ⟨hq, hb⟩ : c ≠ '"' ∧ c ≠ '\\' := by simpa [isSpecial] using hc
      simpa [next, hq, hb] using ih

theorem isClosed_quote (s : List Char) : IsClosed (quote s) := by
  have hlast : (quote s).getLast? = some '"' := List.getLast?_concat
  have hafter : outside.after (quote s) = outside := by
    show inside.after (escape s ++ ['"']) = outside
    rw [after_append, after_escape]
    rfl
  have hcomment : outside.NoComment (quote s) := NoComment.cons (noComment_escape s) (by simp)
  exact ⟨hcomment, hafter, by simp [quote], by simp [hlast]⟩

theorem mem_of_mem_escape {s : List Char} {c : Char} (h : c ∈ escape s) : c = '\\' ∨ c ∈ s := by
  obtain ⟨d, hd, hm⟩ := List.mem_flatMap.mp h
  split at hm
  next =>
    rcases List.mem_pair.mp hm with rfl | rfl
    · exact .inl rfl
    · exact .inr hd
  next =>
    cases List.mem_singleton.mp hm
    exact .inr hd

theorem isEffective_quote {s : List Char} (h : '\n' ∉ s) : IsEffective (quote s) := by
  have hhead : (quote s).head? = some '"' := rfl
  have hlast : (quote s).getLast? = some '"' := List.getLast?_concat
  have htrimmed : Trimmed (quote s) := by
    constructor
    · intro c hc
      rw [hhead] at hc
      cases Option.some.inj hc
      rfl
    · intro c hc
      rw [hlast] at hc
      cases Option.some.inj hc
      rfl
  have hescape : '\n' ∉ escape s := fun hm => by
    rcases mem_of_mem_escape hm with hm | hm
    · cases hm
    · exact h hm
  have hsingle : '\n' ∉ quote s := by simp [quote, hescape]
  exact ⟨List.cons_ne_nil _ _, htrimmed, (isClosed_quote s).noComment, hsingle⟩

theorem isNameChar_of_isDigit {c : Char} (h : c.isDigit = true) : isNameChar c = true := by
  simp [isNameChar, Char.isAlphanum, h]

theorem isNameChar_of_mem_decimal {n : Nat} {c : Char} (h : c ∈ decimal n) : isNameChar c = true :=
  isNameChar_of_isDigit (isDigit_of_mem_decimal h)

theorem isNameChar_of_mem_signedDecimal {v : Int} {c : Char} (h : c ∈ signedDecimal v) :
    isNameChar c = true := by
  unfold signedDecimal at h
  split at h
  next =>
    rcases List.mem_cons.mp h with rfl | h
    · rfl
    · exact isNameChar_of_mem_decimal h
  next => exact isNameChar_of_mem_decimal h

theorem isNameChar_of_mem_hexDigits {width n : Nat} {c : Char} (h : c ∈ hexDigits width n) :
    isNameChar c = true := by
  obtain ⟨d, hd, rfl⟩ := digitChar_of_mem_hexDigits h
  have hall : ∀ k : Fin 16, isNameChar (Nat.digitChar k.val) = true := by decide
  exact hall ⟨d, hd⟩

theorem signedDecimal_ne_nil (v : Int) : signedDecimal v ≠ [] := by
  unfold signedDecimal
  split <;> simp [decimal, Nat.toDigits_ne_nil]

namespace Operand

theorem print_ne_nil (x : Operand) : x.print ≠ [] := by
  cases x with
  | declared l => exact List.cons_ne_nil _ _
  | index n => exact Nat.toDigits_ne_nil
  | int32 v => exact signedDecimal_ne_nil _
  | int64 v => exact signedDecimal_ne_nil _
  | string s => exact List.cons_ne_nil _ _
  | label v => exact signedDecimal_ne_nil _
  | token t => exact List.cons_ne_nil _ _

/-- Names of locals and tokens are numerals behind two characters that mark them. -/
theorem isNameChar_of_mem_print {x : Operand} {c : Char} (hx : ∀ s, x ≠ .string s)
    (h : c ∈ x.print) : isNameChar c = true := by
  have hmarked {a b : Char} {cs : List Char} (ha : isNameChar a = true) (hb : isNameChar b = true)
      (hcs : ∀ c ∈ cs, isNameChar c = true) : ∀ c ∈ a :: b :: cs, isNameChar c = true :=
    List.forall_mem_cons.mpr ⟨ha, List.forall_mem_cons.mpr ⟨hb, hcs⟩⟩
  cases x with
  | declared l => exact hmarked rfl rfl (fun c hc => isNameChar_of_mem_decimal hc) c h
  | index n => exact isNameChar_of_mem_decimal h
  | int32 v => exact isNameChar_of_mem_signedDecimal h
  | int64 v => exact isNameChar_of_mem_signedDecimal h
  | string s => exact absurd rfl (hx s)
  | label v => exact isNameChar_of_mem_signedDecimal h
  | token t => exact hmarked rfl rfl (fun c hc => isNameChar_of_mem_hexDigits hc) c h

theorem isClosed_print (x : Operand) : IsClosed x.print := by
  by_cases hx : ∃ s, x = .string s
  · obtain ⟨s, rfl⟩ := hx
    exact isClosed_quote s.toList
  · exact isClosed_of_isNameChar fun c hc => isNameChar_of_mem_print (not_exists.mp hx) hc

theorem isEffective_print {x : Operand} (h : ∀ s, x = .string s → '\n' ∉ s.toList) :
    IsEffective x.print := by
  by_cases hx : ∃ s, x = .string s
  · obtain ⟨s, rfl⟩ := hx
    exact isEffective_quote (h s rfl)
  · exact isEffective_of_isNameChar x.print_ne_nil
      fun c hc => isNameChar_of_mem_print (not_exists.mp hx) hc

end Operand

theorem isNameChar_of_mem_mnemonic {op : Opcode} {c : Char} (h : c ∈ op.mnemonic.toList) :
    isNameChar c = true := by
  have hall : op.mnemonic.toList.all isNameChar = true := by cases op <;> decide
  exact List.all_eq_true.mp hall c h

theorem mnemonic_ne_nil (op : Opcode) : op.mnemonic.toList ≠ [] := by
  cases op <;> decide

theorem Operand.WellFormed.isEffective_print {locals : Locals} {op : Opcode} {x : Operand}
    (h : x.WellFormed locals op) : IsEffective x.print := by
  refine Operand.isEffective_print ?_
  rintro s rfl
  cases h
  assumption

theorem Instruction.WellFormed.isEffective_print {locals : Locals} {x : Instruction}
    (h : x.WellFormed locals) : IsEffective x.print := by
  obtain ⟨op, operand⟩ := x
  cases operand with
  | none =>
    exact isEffective_of_isNameChar (mnemonic_ne_nil op) fun c hc => isNameChar_of_mem_mnemonic hc
  | some operand =>
    exact (h operand rfl).isEffective_print.append_name (mnemonic_ne_nil op)
      fun c hc => isNameChar_of_mem_mnemonic hc

end MethodBody
