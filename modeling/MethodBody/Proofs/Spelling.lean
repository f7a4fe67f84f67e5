import MethodBody.Proofs.LineByLine

namespace MethodBody

/-- Blanks within a line. -/
def IsSpacing (cs : List Char) : Prop :=
  ∀ c ∈ cs, isBlank c = true ∧ c ≠ '\n'

instance (cs : List Char) : Decidable (IsSpacing cs) :=
  List.decidableBAll (fun c => isBlank c = true ∧ c ≠ '\n') cs

/-- A name with each of its letters in upper or in lower case. -/
def IsSpelling (name cs : List Char) : Prop :=
  List.Forall₂ (fun c d => d = c ∨ d = c.toUpper) name cs

instance (name cs : List Char) : Decidable (IsSpelling name cs) :=
  inferInstanceAs (Decidable (List.Forall₂ (fun c d => d = c ∨ d = c.toUpper) name cs))

inductive LabelText : List Char → Prop
  | none : LabelText []
  | label {name gap : List Char} (hname : ∀ c ∈ name, c ∉ [':', '"', '/', '\n'])
    (hgap : IsSpacing gap) : LabelText ("IL_".toList ++ name ++ ':' :: gap)

inductive OperandText : Option Operand → List Char → Prop
  | none : OperandText none []
  | some {operand : Operand} {gap : List Char} (hgap : IsSpacing gap) (hne : gap ≠ []) :
    OperandText (some operand) (gap ++ operand.print)

inductive CommentText : List Char → Prop
  | none : CommentText []
  | comment {text : List Char} (htext : '\n' ∉ text) : CommentText ('/' :: '/' :: text)

/-- A line that holds an instruction, with all that may be written around it. -/
inductive InstructionLine (x : Instruction) : List Char → Prop
  | mk {before label name operand behind comment : List Char} (hbefore : IsSpacing before)
    (hlabel : LabelText label) (hname : IsSpelling x.opcode.mnemonic.toList name)
    (hoperand : OperandText x.operand operand) (hbehind : IsSpacing behind)
    (hcomment : CommentText comment) :
    InstructionLine x (before ++ (label ++ (name ++ operand)) ++ behind ++ comment)

/-- A line that is blank but for a comment, or a directive with any text behind it. -/
inductive FillerLine : List Char → Prop
  | blank {before comment : List Char} (hbefore : IsSpacing before)
    (hcomment : CommentText comment) : FillerLine (before ++ comment)
  | directive {before rest : List Char} (hbefore : IsSpacing before) (hrest : '\n' ∉ rest)
    (hword : (∀ c ∈ rest.head?, isBlank c = true) ∨ ['/', '/'] <+: rest) :
    FillerLine (before ++ ".local".toList ++ rest)

/-- Instructions on lines of their own with filler between them. Lines may end with a carriage
return. -/
inductive Listing : List Instruction → List Char → Prop
  | nil : Listing [] []
  | instruction {x : Instruction} {code : List Instruction} {line ending text : List Char}
    (hline : InstructionLine x line) (hending : ending = ['\n'] ∨ ending = ['\r', '\n'])
    (h : Listing code text) : Listing (x :: code) (line ++ ending ++ text)
  | filler {code : List Instruction} {line ending text : List Char} (hline : FillerLine line)
    (hending : ending = ['\n'] ∨ ending = ['\r', '\n']) (h : Listing code text) :
    Listing code (line ++ ending ++ text)

theorem IsSpacing.blank {cs : List Char} (h : IsSpacing cs) : ∀ c ∈ cs, isBlank c = true :=
  fun c hc => (h c hc).1

theorem IsSpacing.single {cs : List Char} (h : IsSpacing cs) : '\n' ∉ cs :=
  fun hm => (h '\n' hm).2 rfl

theorem CommentText.single {cs : List Char} (h : CommentText cs) : '\n' ∉ cs := by
  cases h with
  | none => exact List.not_mem_nil
  | comment htext => simpa using htext

theorem CommentText.beforeComment_eq {cs : List Char} (h : CommentText cs) :
    beforeComment cs = [] := by
  cases h <;> rfl

/-- Around a closed text that has no outer blanks, blanks and a comment make no difference. -/
theorem trim_beforeComment {before cs behind comment : List Char} (hbefore : IsSpacing before)
    (hclosed : IsClosed cs) (htrimmed : Trimmed cs) (hbehind : IsSpacing behind)
    (hcomment : CommentText comment) :
    trim (beforeComment (before ++ cs ++ behind ++ comment)) = cs := by
  have hall : IsClosed (before ++ cs ++ behind) :=
    ((isClosed_of_blank hbefore.blank).append hclosed).append (isClosed_of_blank hbehind.blank)
  rw [hall.beforeComment_append, hcomment.beforeComment_eq, List.append_nil,
    htrimmed.trim_between hbefore.blank hbehind.blank]

namespace IsSpelling

variable {name cs : List Char}

theorem forall_mem (h : IsSpelling name cs) {p : Char → Bool}
    (hp : name.all (fun c => p c && p c.toUpper) = true) : ∀ d ∈ cs, p d = true := by
  induction h with
  | nil => simp
  | @cons c d name cs hcd _ ih =>
    rw [List.all_cons, Bool.and_eq_true, Bool.and_eq_true] at hp
    obtain ⟨⟨hc, hu⟩, hname⟩ := hp
    refine List.forall_mem_cons.mpr ⟨?_, ih hname⟩
    rcases hcd with rfl | rfl
    · exact hc
    · exact hu

theorem map_toLower (h : IsSpelling name cs)
    (hname : name.all (fun c => c.toLower == c && c.toUpper.toLower == c) = true) :
    cs.map Char.toLower = name := by
  induction h with
  | nil => rfl
  | @cons c d name cs hcd _ ih =>
    rw [List.all_cons, Bool.and_eq_true, Bool.and_eq_true, beq_iff_eq, beq_iff_eq] at hname
    obtain ⟨⟨hc, hu⟩, hname⟩ := hname
    rw [List.map_cons, ih hname]
    rcases hcd with rfl | rfl
    · rw [hc]
    · rw [hu]

variable {op : Opcode}

theorem isNameChar_of_mem (h : IsSpelling op.mnemonic.toList cs) : ∀ c ∈ cs, isNameChar c = true :=
  h.forall_mem (by cases op <;> decide)

theorem isBlank_of_mem (h : IsSpelling op.mnemonic.toList cs) : ∀ c ∈ cs, isBlank c = false :=
  fun c hc => isBlank_of_isNameChar (h.isNameChar_of_mem c hc)

theorem ofMnemonic?_eq (h : IsSpelling op.mnemonic.toList cs) :
    Opcode.ofMnemonic? cs = some op := by
  have hlower : cs.map Char.toLower = op.mnemonic.toList :=
    h.map_toLower (by cases op <;> decide)
  have hsame : op.mnemonic.toList.map Char.toLower = op.mnemonic.toList := by
    cases op <;> decide
  have hread := ofMnemonic?_mnemonic op
  rw [Opcode.ofMnemonic?, hsame] at hread
  rw [Opcode.ofMnemonic?, hlower, hread]

/-- However it is spelled, a mnemonic does not begin like a directive or a label. -/
theorem exists_cons (h : IsSpelling op.mnemonic.toList cs) :
    ∃ d ds, cs = d :: ds ∧ d ≠ '.' ∧ d ≠ 'I' := by
  cases cs with
  | nil => exact absurd (List.forall₂_nil_right_iff.mp h) (mnemonic_ne_nil op)
  | cons d ds =>
    have hfirst : IsSpelling (op.mnemonic.toList.take 1) [d] := List.forall₂_take 1 h
    have hd := hfirst.forall_mem (p := fun d => d != '.' && d != 'I') (by cases op <;> decide) d
      List.mem_cons_self
    exact ⟨d, ds, rfl, by simpa using hd⟩

end IsSpelling

/-- A label ends with the first colon of its line, wherever else there may be one. -/
theorem LabelText.behindLabel_eq {label line : List Char} (h : LabelText label)
    (hline : Trimmed line) (hhead : line.head? ≠ some 'I') :
    behindLabel (label ++ line) = line := by
  cases h with
  | none =>
    refine behindLabel_eq_self ?_
    rintro ⟨rest, rfl⟩
    exact hhead rfl
  | @label name gap hname hgap =>
    have hmark : ∀ c ∈ "IL_".toList ++ name, (c != ':') = true := by
      intro c hc
      rw [bne_iff_ne]
      rintro rfl
      rcases List.mem_append.mp hc with hc | hc
      · exact absurd hc (by decide)
      · exact hname ':' hc (by decide)
    have hdrop : (("IL_".toList ++ name ++ ':' :: gap) ++ line).dropWhile (· != ':') =
        ':' :: (gap ++ line) := by
      rw [List.append_assoc, List.dropWhile_append_of_pos hmark]
      rfl
    have hlabel :
        "IL_".toList.isPrefixOf (("IL_".toList ++ name ++ ':' :: gap) ++ line) = true := by
      rw [List.isPrefixOf_iff_prefix, List.append_assoc, List.append_assoc]
      exact List.prefix_append _ _
    rw [behindLabel, hdrop]
    show (if _ then trim (gap ++ line) else _) = line
    rw [if_pos hlabel, trim_blank_append hgap.blank, hline.trim_eq]

theorem LabelText.isClosed {label : List Char} (h : LabelText label) : IsClosed label := by
  cases h with
  | none => exact isClosed_of_not_mem List.not_mem_nil List.not_mem_nil
  | @label name gap hname hgap =>
    have hname : IsClosed name :=
      isClosed_of_not_mem (fun hm => hname '/' hm (by decide)) fun hm => hname '"' hm (by decide)
    have hmark : IsClosed "IL_".toList := isClosed_of_not_mem (by decide) (by decide)
    have hcolon : IsClosed [':'] := isClosed_of_not_mem (by decide) (by decide)
    exact (hmark.append hname).append (hcolon.append (isClosed_of_blank hgap.blank))

theorem LabelText.single {label : List Char} (h : LabelText label) : '\n' ∉ label := by
  cases h with
  | none => exact List.not_mem_nil
  | @label name gap hname hgap =>
    have hn : '\n' ∉ name := fun hm => hname '\n' hm (by decide)
    simp [hn, hgap.single]

theorem LabelText.trimmed_append {label line : List Char} (h : LabelText label)
    (hline : Trimmed line) (hne : line ≠ []) : Trimmed (label ++ line) := by
  constructor
  · cases h with
    | none => exact hline.1
    | label =>
      intro c hc
      cases hc
      rfl
  · rw [List.getLast?_append_of_ne_nil _ hne]
    exact hline.2

theorem OperandText.blank_of_mem_head? {operand : Option Operand} {cs : List Char}
    (h : OperandText operand cs) : ∀ c ∈ cs.head?, isBlank c = true := by
  cases h with
  | none => simp
  | some hgap hne =>
    intro c hc
    rw [List.head?_append_of_ne_nil _ hne] at hc
    exact hgap.blank c (List.mem_of_mem_head? hc)

theorem OperandText.isClosed {operand : Option Operand} {cs : List Char}
    (h : OperandText operand cs) : IsClosed cs := by
  cases h with
  | none => exact isClosed_of_not_mem List.not_mem_nil List.not_mem_nil
  | @some operand gap hgap hne => exact (isClosed_of_blank hgap.blank).append operand.isClosed_print

theorem OperandText.single {locals : Locals} {op : Opcode} {operand : Option Operand}
    {cs : List Char} (h : OperandText operand cs)
    (hx : Instruction.WellFormed locals ⟨op, operand⟩) : '\n' ∉ cs := by
  cases h with
  | none => exact List.not_mem_nil
  | @some operand gap hgap hne =>
    have ho := (hx operand rfl).isEffective_print.single
    simp [hgap.single, ho]

section InstructionText

variable {locals : Locals} {op : Opcode} {operand : Option Operand} {label name text : List Char}

theorem trimmed_spelled (hx : Instruction.WellFormed locals ⟨op, operand⟩)
    (hname : IsSpelling op.mnemonic.toList name) (hoperand : OperandText operand text) :
    Trimmed (name ++ text) := by
  obtain ⟨d, ds, hd, _⟩ := hname.exists_cons
  constructor
  · intro c hc
    apply hname.isBlank_of_mem c
    rw [hd] at hc ⊢
    exact List.mem_of_mem_head? hc
  · cases hoperand with
    | none =>
      intro c hc
      rw [List.append_nil] at hc
      exact hname.isBlank_of_mem c (List.mem_of_mem_getLast? hc)
    | some hgap hne =>
      have heff := (hx _ rfl).isEffective_print
      rw [← List.append_assoc, List.getLast?_append_of_ne_nil _ heff.ne_nil]
      exact heff.trimmed.2

/-- An instruction is read from its label, mnemonic and operand in whatever way they are written. -/
theorem readInstruction_spelled (hx : Instruction.WellFormed locals ⟨op, operand⟩)
    (hlabel : LabelText label) (hname : IsSpelling op.mnemonic.toList name)
    (hoperand : OperandText operand text) :
    readInstruction locals (label ++ (name ++ text)) = .ok ⟨op, operand⟩ := by
  obtain ⟨d, ds, hd, _, hlabelled⟩ := hname.exists_cons
  have hhead : (name ++ text).head? ≠ some 'I' := by
    rw [hd]
    simpa using hlabelled
  have hline := hlabel.behindLabel_eq (trimmed_spelled hx hname hoperand) hhead
  have hop := hname.ofMnemonic?_eq
  have hrest := hoperand.blank_of_mem_head?
  cases hoperand with
  | none => exact readInstruction_bare hline hname.isBlank_of_mem hop hrest rfl
  | @some operand gap hgap hne =>
    have hwf := hx operand rfl
    have heff := hwf.isEffective_print
    have htrim : trim (gap ++ operand.print) = operand.print := by
      rw [trim_blank_append hgap.blank, heff.trimmed.trim_eq]
    rw [readInstruction_operand hline hname.isBlank_of_mem hop hrest htrim heff.ne_nil,
      readOperand_print hwf]
    rfl

end InstructionText

/-- Of a line only its instruction is read, whatever is written around that. -/
theorem InstructionLine.readLine_eq {locals : Locals} {x : Instruction} {line : List Char}
    (h : InstructionLine x line) (hx : x.WellFormed locals) : readLine locals line = .ok [x] := by
  obtain ⟨op, operand⟩ := x
  cases h with
  | @mk before label name text behind comment hbefore hlabel hname hoperand hbehind hcomment =>
    obtain ⟨d, ds, hd, hdot, _⟩ := hname.exists_cons
    have hne : name ++ text ≠ [] := by simp [hd]
    have htrimmed := hlabel.trimmed_append (trimmed_spelled hx hname hoperand) hne
    have hclosed := hlabel.isClosed.append
      ((isClosed_of_isNameChar hname.isNameChar_of_mem).append hoperand.isClosed)
    have hcode := trim_beforeComment hbefore hclosed htrimmed hbehind hcomment
    have hnone : directive? (label ++ (name ++ text)) = none := by
      apply directive?_eq_none
      cases hlabel with
      | none => simpa [hd] using hdot
      | label => exact fun he => absurd (Option.some.inj he) (by decide)
    have hline := effectiveLine?_eq_some hcode (List.append_ne_nil_of_right_ne_nil _ hne)
    rw [readLine_of_instruction hline hnone, readInstruction_spelled hx hlabel hname hoperand]
    rfl

theorem InstructionLine.single {locals : Locals} {x : Instruction} {line : List Char}
    (h : InstructionLine x line) (hx : x.WellFormed locals) : '\n' ∉ line := by
  obtain ⟨op, operand⟩ := x
  cases h with
  | @mk before label name text behind comment hbefore hlabel hname hoperand hbehind hcomment =>
    have hl := hlabel.single
    have hn : '\n' ∉ name := not_mem_of_isNameChar hname.isNameChar_of_mem rfl
    have ho := hoperand.single hx
    simp [hbefore.single, hl, hn, ho, hbehind.single, hcomment.single]

theorem FillerLine.readLine_eq {locals : Locals} {line : List Char} (h : FillerLine line) :
    readLine locals line = .ok [] := by
  cases h with
  | @blank before comment hbefore hcomment =>
    have hcode : beforeComment (before ++ comment) = before := by
      rw [(isClosed_of_blank hbefore.blank).beforeComment_append, hcomment.beforeComment_eq,
        List.append_nil]
    apply readLine_of_none
    rw [effectiveLine?, hcode, trim_of_blank hbefore.blank]
  | @directive before rest hbefore hrest hword =>
    have hclosed : IsClosed (before ++ ".local".toList) :=
      (isClosed_of_blank hbefore.blank).append (isClosed_of_not_mem (by decide) (by decide))
    -- A comment may begin anywhere in the rest, so only the first character left is known.
    have hargs : ∀ c ∈ (beforeComment rest).head?, isBlank c = true := by
      rcases hword with hblank | ⟨text, rfl⟩
      · obtain ⟨comment, he⟩ := (beforeComment_isCode rest).exists_append
        rw [he] at hblank
        exact blank_of_mem_head?_append hblank
      · have hnil : beforeComment (['/', '/'] ++ text) = [] := rfl
        rw [hnil]
        simp
    obtain ⟨behind, _, he⟩ := trimEnd_eq (beforeComment rest)
    rw [he] at hargs
    have hcode : trim (beforeComment (before ++ ".local".toList ++ rest)) =
        ".local".toList ++ trimEnd (beforeComment rest) := by
      rw [hclosed.beforeComment_append, List.append_assoc, trim_blank_append hbefore.blank]
      exact trimEnd_append_cons rfl ".loca".toList (beforeComment rest)
    have hline := effectiveLine?_eq_some hcode (List.cons_ne_nil _ _)
    have hdirective := directive?_eq_some_iff.mpr ⟨rfl, blank_of_mem_head?_append hargs⟩
    exact readLine_of_directive hline hdirective

theorem FillerLine.single {line : List Char} (h : FillerLine line) : '\n' ∉ line := by
  cases h with
  | blank hbefore hcomment => simp [hbefore.single, hcomment.single]
  | directive hbefore hrest => simp [hbefore.single, hrest]

/-- Labels, spacing, letter case, comments and lines without instructions make no difference to the
code that is read. -/
theorem readCode_listing {locals : Locals} {code : List Instruction} {text : List Char}
    (hcode : ∀ x ∈ code, x.WellFormed locals) (h : Listing code text) :
    readCode locals (String.ofList text) = .ok code := by
  induction h with
  | nil => rfl
  | @instruction x code line ending text hline hending _ ih =>
    obtain ⟨hx, hcode⟩ := List.forall_mem_cons.mp hcode
    rw [readCode_lineEnd locals (hline.single hx) hending, hline.readLine_eq hx, ih hcode]
    rfl
  | @filler code line ending text hline hending _ ih =>
    rw [readCode_lineEnd locals hline.single hending, hline.readLine_eq, ih hcode]
    rfl

/-- Comment markers, colons and quotes stand within a literal, a label and a comment here. -/
theorem readCode_listing_mixed :
    readCode ((Locals.empty 0).declare ⟨"int32", false⟩).2
        "\tIL_a b: LdStr \u00A0\"a//b: \\\"\"// \"c\r\n .local//\nSTLOC.s V_0 \n" =
      .ok [⟨.ldstr, some (.string "a//b: \"")⟩,
        ⟨.stlocS, some (.declared ⟨⟨⟨"int32", false⟩, 0⟩, 0, 0⟩)⟩] := by
  have hlabel : LabelText ("IL_".toList ++ ['a', ' ', 'b'] ++ ':' :: [' ']) :=
    .label (by simp) (by decide)
  have hloadname : IsSpelling Opcode.ldstr.mnemonic.toList "LdStr".toList := by decide
  have hstring : OperandText (some (.string "a//b: \"")) ([' ', '\u00A0'] ++ Operand.print _) :=
    .some (by decide) (by decide)
  have hcomment : CommentText ('/' :: '/' :: " \"c".toList) := .comment (by decide)
  have hload := @InstructionLine.mk ⟨.ldstr, some (.string "a//b: \"")⟩ ['\t'] _ _ _ [] _
    (by decide) hlabel hloadname hstring (by decide) hcomment
  have hfiller : FillerLine ([' '] ++ ".local".toList ++ "//".toList) :=
    .directive (by decide) (by decide) (.inr (List.prefix_refl _))
  have hstorename : IsSpelling Opcode.stlocS.mnemonic.toList "STLOC.s".toList := by decide
  have hlocal : OperandText (some (.declared ⟨⟨⟨"int32", false⟩, 0⟩, 0, 0⟩))
      ([' '] ++ Operand.print _) := .some (by decide) (by decide)
  have hstore := @InstructionLine.mk
    ⟨.stlocS, some (.declared ⟨⟨⟨"int32", false⟩, 0⟩, 0, 0⟩)⟩ [] _ _ _ [' '] _ (by decide) .none
    hstorename hlocal (by decide) .none
  have hcode : ∀ x ∈ [(⟨.ldstr, some (.string "a//b: \"")⟩ : Instruction),
      ⟨.stlocS, some (.declared ⟨⟨⟨"int32", false⟩, 0⟩, 0, 0⟩)⟩],
      x.WellFormed ((Locals.empty 0).declare ⟨"int32", false⟩).2 := by
    refine List.forall_mem_cons.mpr ⟨?_, List.forall_mem_singleton.mpr ?_⟩
    · rintro _ ⟨⟩
      exact .string rfl (by decide)
    · rintro _ ⟨⟩
      exact .declared (by decide) rfl
  exact readCode_listing hcode (.instruction hload (.inr rfl) (.filler hfiller (.inl rfl)
    (.instruction hstore (.inl rfl) .nil)))

end MethodBody
