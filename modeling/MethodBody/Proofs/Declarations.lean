import MethodBody.Proofs.PrintedLines
import MethodBody.Proofs.Success

namespace MethodBody

open LiteralState

theorem directive?_eq_some_iff {line args : List Char} :
    directive? line = some args ↔
      line = ".local".toList ++ args ∧ ∀ c ∈ args.head?, isBlank c = true := by
  rw [directive?, Option.filter_eq_some_iff, List.isPrefixOf?_eq_some_iff_append_eq,
    Option.all_eq_true, eq_comm (a := line)]
  rfl

theorem directive?_eq_none {line : List Char} (h : line.head? ≠ some '.') :
    directive? line = none := by
  rw [Option.eq_none_iff_forall_ne_some]
  intro args hargs
  obtain ⟨rfl, _⟩ := directive?_eq_some_iff.mp hargs
  exact h rfl

namespace Declaration

/-- The type is one word, with comment markers only inside a literal that it opens. -/
def WellFormed (d : Declaration) : Prop :=
  IsWord d.type.toList ∧ outside.NoComment d.type.toList

def mark (d : Declaration) : List Char :=
  if d.pinned then " pinned".toList else []

theorem print_eq (d : Declaration) :
    d.print = ".local".toList ++ ' ' :: (d.type.toList ++ d.mark) :=
  rfl

theorem head?_mark (d : Declaration) {c : Char} (h : c ∈ d.mark.head?) : c = ' ' := by
  unfold mark at h
  split at h
  next =>
    cases h
    rfl
  next => cases h

theorem WellFormed.isEffective_type {d : Declaration} (h : d.WellFormed) :
    IsEffective (d.type.toList ++ d.mark) := by
  have htype := h.1.isEffective h.2
  unfold mark
  split
  next =>
    refine ⟨by simp [htype.ne_nil], ⟨?_, ?_⟩, ?_, ?_⟩
    · intro c hc
      rw [List.head?_append_of_ne_nil _ htype.ne_nil] at hc
      exact htype.trimmed.1 c hc
    · intro c hc
      rw [List.getLast?_append_of_ne_nil _ (by decide)] at hc
      cases hc
      decide
    · exact htype.noComment.append (noComment_of_not_mem (by decide)) (by decide)
    · intro hm
      rcases List.mem_append.mp hm with hm | hm
      · exact htype.single hm
      · exact absurd hm (by decide)
  next => simpa using htype

/-- Whatever literals the type opens, its line is read as it was printed. -/
theorem WellFormed.isEffective_print {d : Declaration} (h : d.WellFormed) :
    IsEffective d.print := by
  rw [d.print_eq]
  have hname : ".local".toList.all isNameChar = true := by decide
  exact h.isEffective_type.append_name (by decide) (List.all_eq_true.mp hname)

theorem directive?_print (d : Declaration) :
    directive? d.print = some (' ' :: (d.type.toList ++ d.mark)) := by
  have hblank : ∀ c ∈ (' ' :: (d.type.toList ++ d.mark)).head?, isBlank c = true := by
    intro c hc
    cases Option.some.inj hc
    rfl
  exact directive?_eq_some_iff.mpr ⟨d.print_eq, hblank⟩

theorem WellFormed.readDeclaration_print {d : Declaration} (h : d.WellFormed) :
    readDeclaration (' ' :: (d.type.toList ++ d.mark)) = .ok d := by
  have htype : nextWord? (' ' :: (d.type.toList ++ d.mark)) = some (d.type.toList, d.mark) := by
    have hblank : ∀ c ∈ [' '], isBlank c = true := List.forall_mem_singleton.mpr rfl
    have hmark : ∀ c ∈ d.mark.head?, isBlank c = true := by
      intro c hc
      rw [d.head?_mark hc]
      decide
    exact nextWord?_eq hblank h.1 hmark
  obtain ⟨type, pinned⟩ := d
  rw [readDeclaration, htype]
  cases pinned with
  | false =>
    have hmark : nextWord? (mark ⟨type, false⟩) = none := rfl
    simp [hmark]
  | true =>
    have hmark : nextWord? (mark ⟨type, true⟩) = some ("pinned".toList, []) := rfl
    simp [hmark]

/-- A declaration that is read from text without comments is one that a directive can hold. -/
theorem wellFormed_of_readDeclaration {args : List Char} {d : Declaration}
    (hargs : outside.NoComment args) (h : readDeclaration args = .ok d) : d.WellFormed := by
  unfold readDeclaration at h
  split at h
  next => cases h
  next type rest hword =>
    obtain ⟨before, hb, hw, _, rfl⟩ := eq_of_nextWord? hword
    have hq : '"' ∉ before := fun hm => absurd (hb _ hm) (by decide)
    have htype : outside.NoComment type := by
      have hbehind := hargs.behind
      rw [after_outside hq] at hbehind
      exact hbehind.of_append
    have hwf : ∀ pinned, WellFormed ⟨String.ofList type, pinned⟩ := by
      intro pinned
      rw [WellFormed, String.toList_ofList]
      exact ⟨hw, htype⟩
    split at h
    next =>
      cases h
      exact hwf false
    next =>
      split at h
      next =>
        cases h
        exact hwf true
      next => cases h

end Declaration

namespace Locals

def WellFormed (locals : Locals) : Prop :=
  ∀ d ∈ locals.declarations, d.WellFormed

theorem wellFormed_empty (method : Nat) : (empty method).WellFormed := by
  intro d hd
  simp at hd

theorem declarations_of_declare {locals locals' : Locals} {d : Declaration} {n : UInt16}
    (h : locals.declare d = (.ok n, locals')) :
    locals'.declarations = locals.declarations.push d := by
  rcases locals.declare_cases d with ⟨_, next, hd, _, hpush⟩ | ⟨_, hd⟩
  · cases hd.symm.trans h
    exact hpush
  · cases hd.symm.trans h

end Locals

theorem readLocal_of_no_dot {line : List Char} (h : line.head? ≠ some '.') (locals : Locals) :
    readLocal locals line = .ok locals := by
  have hnone : directive? line = none := by
    rw [Option.eq_none_iff_forall_ne_some]
    intro args hargs
    obtain ⟨rfl, _⟩ := directive?_eq_some_iff.mp hargs
    exact h rfl
  simp only [readLocal, hnone, if_neg h]

/-- A directive line declares one more local, and any other line none. -/
theorem readLocal_cases {locals locals' : Locals} {line : List Char}
    (h : readLocal locals line = .ok locals') :
    (directive? line = none ∧ line.head? ≠ some '.' ∧ locals' = locals) ∨
    ∃ args d, directive? line = some args ∧ readDeclaration args = .ok d ∧
      locals'.declarations = locals.declarations.push d := by
  unfold readLocal at h
  split at h
  next args hargs =>
    obtain ⟨d, hd, h⟩ := bind_eq_ok_iff.mp h
    split at h
    next n locals' hdeclare =>
      cases h
      exact .inr ⟨args, d, hargs, hd, Locals.declarations_of_declare hdeclare⟩
    next => cases h
  next hnone =>
    split at h
    next => cases h
    next hdot =>
      cases h
      exact .inl ⟨hnone, hdot, rfl⟩

theorem wellFormed_of_readLocal {locals locals' : Locals} {line : List Char}
    (hline : outside.NoComment line) (hwf : locals.WellFormed)
    (h : readLocal locals line = .ok locals') : locals'.WellFormed := by
  rcases readLocal_cases h with ⟨_, _, rfl⟩ | ⟨args, d, hargs, hd, hpush⟩
  · exact hwf
  · obtain ⟨rfl, _⟩ := directive?_eq_some_iff.mp hargs
    have hdwf := Declaration.wellFormed_of_readDeclaration hline.behind hd
    intro e he
    rw [hpush] at he
    rcases Array.mem_push.mp he with he | rfl
    · exact hwf e he
    · exact hdwf

theorem wellFormed_of_foldlM_readLocal {lines : List (List Char)} {locals locals' : Locals}
    (hlines : ∀ line ∈ lines, outside.NoComment line) (hwf : locals.WellFormed)
    (h : lines.foldlM readLocal locals = .ok locals') : locals'.WellFormed := by
  induction lines generalizing locals with
  | nil =>
    cases h
    exact hwf
  | cons line lines ih =>
    rw [List.foldlM_cons] at h
    obtain ⟨middle, hl, h⟩ := bind_eq_ok_iff.mp h
    have hmiddle := wellFormed_of_readLocal (hlines line List.mem_cons_self) hwf hl
    exact ih (fun l hm => hlines l (List.mem_cons_of_mem line hm)) hmiddle h

theorem readLocals_eq_ok_iff {method : Nat} {text : String} {locals : Locals} :
    readLocals method text = .ok locals ↔
      (plainLines text.toList).foldlM readLocal (.empty method) = .ok locals := by
  rw [← map_snd_effectiveLines, List.foldlM_map]
  exact foldlM_mapError_eq_ok_iff (g := fun (p : Nat × List Char) => Error.atLine p.1)

/-- The effective lines of a text that are directives. -/
def directiveLines (text : String) : List (List Char) :=
  (plainLines text.toList).filter fun line => (directive? line).isSome

theorem wellFormed_of_readLocals {method : Nat} {text : String} {locals : Locals}
    (h : readLocals method text = .ok locals) : locals.WellFormed :=
  wellFormed_of_foldlM_readLocal (fun _ hl => (isEffective_of_mem hl).noComment)
    (Locals.wellFormed_empty method) (readLocals_eq_ok_iff.mp h)

theorem Declaration.WellFormed.readLocal_print {locals : Locals} {d : Declaration}
    (h : d.WellFormed) (hroom : locals.size < localsLimit) :
    ∃ next, readLocal locals d.print = .ok next ∧ next.method = locals.method ∧
      next.declarations = locals.declarations.push d := by
  rcases locals.declare_cases d with ⟨_, next, hd, hmethod, hpush⟩ | ⟨hfull, _⟩
  · refine ⟨next, ?_, hmethod, hpush⟩
    simp only [readLocal, d.directive?_print]
    refine bind_eq_ok_iff.mpr ⟨d, h.readDeclaration_print, ?_⟩
    rw [hd]
    rfl
  · omega

/-- The printed lines of declarations declare just these, as long as there is room for them. -/
theorem foldlM_readLocal_print {locals target : Locals} {ds : List Declaration}
    (h : ∀ d ∈ ds, d.WellFormed) (hm : target.method = locals.method)
    (hd : target.declarations.toList = locals.declarations.toList ++ ds) :
    (ds.map Declaration.print).foldlM readLocal locals = .ok target := by
  induction ds generalizing locals with
  | nil =>
    have he : locals = target :=
      Locals.eq_of_declarations hm.symm (Array.toList_inj.mp (by simpa using hd.symm))
    rw [he]
    rfl
  | cons d ds ih =>
    have hroom : locals.size < localsLimit := by
      have hle := target.size_le
      have hlength := congrArg List.length hd
      simp only [List.length_append, List.length_cons, Array.length_toList,
        LocalTable.size_declarations] at hlength
      omega
    obtain ⟨next, hfirst, hmethod, hpush⟩ := (h d List.mem_cons_self).readLocal_print hroom
    rw [List.map_cons, List.foldlM_cons, hfirst]
    exact ih (fun e he => h e (List.mem_cons_of_mem d he)) (hm.trans hmethod.symm)
      (by simp [hd, hpush])

end MethodBody
