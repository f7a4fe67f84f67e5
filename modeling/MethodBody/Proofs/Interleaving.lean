import MethodBody.Proofs.Declarations
import MethodBody.Proofs.PrintedCode
import MethodBody.Proofs.Rebinding

namespace MethodBody

/-- The effective lines of a text that are no directives. -/
def instructionLines (text : String) : List (List Char) :=
  (plainLines text.toList).filter fun line => (directive? line).isNone

def Declares (line : List Char) (d : Declaration) : Prop :=
  ∃ args, directive? line = some args ∧ readDeclaration args = .ok d

theorem length_plainLines (text : String) :
    (plainLines text.toList).length =
      (directiveLines text).length + (instructionLines text).length := by
  have hparts := (plainLines text.toList).length_eq_length_filter_add fun line =>
    (directive? line).isSome
  simp only [Option.not_isSome] at hparts
  exact hparts

/-- Each directive line adds its own declaration to the locals, and no other line adds any. -/
theorem declares_of_foldlM_readLocal {lines : List (List Char)} {locals target : Locals}
    (h : lines.foldlM readLocal locals = .ok target) :
    ∃ ds, target.declarations.toList = locals.declarations.toList ++ ds ∧
      List.Forall₂ Declares (lines.filter fun line => (directive? line).isSome) ds := by
  induction lines generalizing locals with
  | nil =>
    cases h
    exact ⟨[], by simp, .nil⟩
  | cons line lines ih =>
    rw [List.foldlM_cons] at h
    obtain ⟨middle, hline, h⟩ := bind_eq_ok_iff.mp h
    obtain ⟨ds, hds, hlines⟩ := ih h
    rcases readLocal_cases hline with ⟨hnone, _, rfl⟩ | ⟨args, d, hargs, hd, hpush⟩
    · rw [List.filter_cons_of_neg (by simp [hnone])]
      exact ⟨ds, hds, hlines⟩
    · rw [List.filter_cons_of_pos (by simp [hargs])]
      refine ⟨d :: ds, ?_, .cons ⟨args, hargs, hd⟩ hlines⟩
      rw [hds, hpush, Array.toList_push, List.append_assoc]
      rfl

/-- The locals depend on the directive lines alone, as long as no other line begins like one. -/
theorem foldlM_readLocal_eq_ok_iff {lines : List (List Char)} {locals target : Locals} :
    lines.foldlM readLocal locals = .ok target ↔
      (∀ line ∈ lines, directive? line = none → line.head? ≠ some '.') ∧
      (lines.filter fun line => (directive? line).isSome).foldlM readLocal locals = .ok target := by
  induction lines generalizing locals with
  | nil => simp
  | cons line lines ih =>
    rw [List.foldlM_cons, List.forall_mem_cons, bind_eq_ok_iff]
    cases hargs : directive? line with
    | none =>
      rw [List.filter_cons_of_neg (by simp [hargs])]
      constructor
      · rintro ⟨middle, hline, h⟩
        rcases readLocal_cases hline with ⟨_, hdot, rfl⟩ | ⟨args, d, hsome, _⟩
        · exact ⟨⟨fun _ => hdot, (ih.mp h).1⟩, (ih.mp h).2⟩
        · cases hargs.symm.trans hsome
      · rintro ⟨⟨hdot, hlines⟩, h⟩
        exact ⟨locals, readLocal_of_no_dot (hdot rfl) locals, ih.mpr ⟨hlines, h⟩⟩
    | some args =>
      rw [List.filter_cons_of_pos (by simp [hargs]), List.foldlM_cons, bind_eq_ok_iff]
      simp only [ih, reduceCtorEq, false_implies, true_and]
      exact ⟨fun ⟨middle, hline, hlines, h⟩ => ⟨hlines, middle, hline, h⟩,
        fun ⟨hlines, middle, hline, h⟩ => ⟨middle, hline, hlines, h⟩⟩

theorem Locals.declare_inMethod (method : Nat) (locals : Locals) (d : Declaration) :
    (locals.inMethod method).declare d =
      ((locals.declare d).1, (locals.declare d).2.inMethod method) := by
  have htable := locals.toLocalTable.declare_inMethod method d
  have hanswer : ((locals.inMethod method).declare d).1 = (locals.declare d).1 :=
    congrArg (·.1) htable
  refine Prod.ext hanswer (eq_of_declarations ?_ ?_)
  · exact congrArg (·.2.method) htable
  · exact congrArg (·.2.declarations) htable

theorem readLocal_inMethod (method : Nat) (locals : Locals) (line : List Char) :
    readLocal (locals.inMethod method) line =
      (readLocal locals line).map (Locals.inMethod method) := by
  unfold readLocal
  split
  next args hargs =>
    cases readDeclaration args with
    | error fault => rfl
    | ok d =>
      simp only [bind, Except.bind, Locals.declare_inMethod]
      rcases locals.declare d with ⟨_ | _, next⟩ <;> rfl
  next =>
    split <;> rfl

/-- The name of a method does not decide what is declared in it. -/
theorem readLocals_inMethod (method method' : Nat) (text : String) :
    readLocals method' text = (readLocals method text).map (Locals.inMethod method') := by
  have hempty : Locals.empty method' = (Locals.empty method).inMethod method' := rfl
  rw [readLocals, readLocals, hempty]
  generalize Locals.empty method = locals
  induction effectiveLines text.toList generalizing locals with
  | nil => rfl
  | cons p lines ih =>
    obtain ⟨n, line⟩ := p
    rw [List.foldlM_cons, List.foldlM_cons]
    simp only [readLocal_inMethod]
    cases readLocal locals line with
    | error fault => rfl
    | ok next => exact ih next

theorem forall₂_declares_of_readLocals {method : Nat} {text : String} {locals : Locals}
    (h : readLocals method text = .ok locals) :
    List.Forall₂ Declares (directiveLines text) locals.declarations.toList := by
  obtain ⟨ds, hds, hlines⟩ := declares_of_foldlM_readLocal (readLocals_eq_ok_iff.mp h)
  simp only [Locals.toLocalTable_empty, LocalTable.declarations_empty, List.nil_append] at hds
  rw [hds]
  exact hlines

theorem size_of_readLocals {method : Nat} {text : String} {locals : Locals}
    (h : readLocals method text = .ok locals) : locals.size = (directiveLines text).length := by
  rw [(forall₂_declares_of_readLocals h).length_eq, Array.length_toList,
    LocalTable.size_declarations]

/-- Texts with the same lines of either kind declare the same locals. -/
theorem readLocals_of_same_lines {method : Nat} {text text' : String} {locals : Locals}
    (h : readLocals method text = .ok locals) (hd : directiveLines text' = directiveLines text)
    (hi : instructionLines text' = instructionLines text) :
    readLocals method text' = .ok locals := by
  obtain ⟨hdot, hread⟩ := foldlM_readLocal_eq_ok_iff.mp (readLocals_eq_ok_iff.mp h)
  refine readLocals_eq_ok_iff.mpr (foldlM_readLocal_eq_ok_iff.mpr ⟨?_, ?_⟩)
  · intro line hline hnone
    have hm : line ∈ instructionLines text' := List.mem_filter.mpr ⟨hline, by simp [hnone]⟩
    rw [hi] at hm
    exact hdot line (List.mem_of_mem_filter hm) hnone
  · show (directiveLines text').foldlM readLocal (.empty method) = .ok locals
    rw [hd]
    exact hread

theorem readCode_of_same_lines {locals : Locals} {text text' : String} {code : List Instruction}
    (h : readCode locals text = .ok code)
    (hi : instructionLines text' = instructionLines text) (method : Nat) :
    readCode (locals.inMethod method) text' = .ok (code.map (Instruction.inMethod method)) := by
  refine readCode_eq_ok_iff.mpr ?_
  show List.Forall₂ _ (instructionLines text') _
  rw [hi, List.forall₂_map_right_iff]
  refine (readCode_eq_ok_iff.mp h).imp fun line x hx => ?_
  rw [readInstruction_inMethod, hx]
  rfl

/-- Locals and code depend only on the lines of either kind, however the two kinds are mixed. -/
theorem readLocals_readCode_interleaved {method : Nat} {text : String} {locals : Locals}
    {code : List Instruction} (hl : readLocals method text = .ok locals)
    (hc : readCode locals text = .ok code) :
    List.Forall₂ Declares (directiveLines text) locals.declarations.toList ∧
    List.Forall₂ (fun line x => readInstruction locals line = .ok x) (instructionLines text) code ∧
    locals.size = (directiveLines text).length ∧ code.length = (instructionLines text).length ∧
    locals.size + code.length = (plainLines text.toList).length ∧
    ∀ (method' : Nat) (text' : String), directiveLines text' = directiveLines text →
      instructionLines text' = instructionLines text →
      ∃ (locals' : Locals) (code' : List Instruction),
        readLocals method' text' = .ok locals' ∧
        List.Forall₂ (fun a b => a.index = b.index ∧ a.type = b.type ∧ a.pinned = b.pinned)
          locals'.toList locals.toList ∧
        code.mapM (Instruction.rebind? locals') = some code' ∧
        readCode locals' text' = .ok code' := by
  have hdeclared := forall₂_declares_of_readLocals hl
  have hcode : List.Forall₂ (fun line x => readInstruction locals line = .ok x)
      (instructionLines text) code := readCode_eq_ok_iff.mp hc
  have hsize := size_of_readLocals hl
  have hlength : code.length = (instructionLines text).length := hcode.length_eq.symm
  refine ⟨hdeclared, hcode, hsize, hlength, ?_, ?_⟩
  · rw [length_plainLines, hsize, hlength]
  · intro method' text' hd hi
    have hlocals : readLocals method' text' = .ok (locals.inMethod method') := by
      rw [readLocals_inMethod method, readLocals_of_same_lines hl hd hi]
      rfl
    have hsame : List.Forall₂
        (fun a b => a.index = b.index ∧ a.type = b.type ∧ a.pinned = b.pinned)
        (locals.inMethod method').toList locals.toList := by
      rw [Locals.toList_inMethod, List.forall₂_map_left_iff]
      exact List.forall₂_same.mpr fun l _ => ⟨rfl, rfl, rfl⟩
    exact ⟨locals.inMethod method', _, hlocals, hsame,
      mapM_rebind?_inMethod (wellFormed_of_readCode hc) method',
      readCode_of_same_lines hc hi method'⟩

/-- A local may as well be declared behind the code that uses it. -/
theorem readLocals_readCode_declared_last :
    ∃ (locals' : Locals) (code' : List Instruction),
      readLocals 0 ".local int32\nstloc.0\nldloc V_0" =
        .ok ((Locals.empty 0).declare ⟨"int32", false⟩).2 ∧
      readLocals 1 "\tstloc.0 // first\n\nldloc V_0\n.local int32" = .ok locals' ∧
      locals'.toList.length = 1 ∧
      [⟨.stloc0, none⟩, ⟨.ldloc, some (.declared ⟨⟨⟨"int32", false⟩, 0⟩, 0, 0⟩)⟩].mapM
        (Instruction.rebind? locals') = some code' ∧
      readCode locals' "\tstloc.0 // first\n\nldloc V_0\n.local int32" = .ok code' := by
  have hl : readLocals 0 ".local int32\nstloc.0\nldloc V_0" =
      .ok ((Locals.empty 0).declare ⟨"int32", false⟩).2 := rfl
  have hc : readCode ((Locals.empty 0).declare ⟨"int32", false⟩).2
      ".local int32\nstloc.0\nldloc V_0" =
      .ok [⟨.stloc0, none⟩, ⟨.ldloc, some (.declared ⟨⟨⟨"int32", false⟩, 0⟩, 0, 0⟩)⟩] := rfl
  have hd : directiveLines ".local int32\nstloc.0\nldloc V_0" = [".local int32".toList] := rfl
  have hd' : directiveLines "\tstloc.0 // first\n\nldloc V_0\n.local int32" =
      [".local int32".toList] := rfl
  have hi : instructionLines ".local int32\nstloc.0\nldloc V_0" =
      ["stloc.0".toList, "ldloc V_0".toList] := rfl
  have hi' : instructionLines "\tstloc.0 // first\n\nldloc V_0\n.local int32" =
      ["stloc.0".toList, "ldloc V_0".toList] := rfl
  obtain ⟨locals', code', hlocals, hsame, hrebind, hcode⟩ :=
    (readLocals_readCode_interleaved hl hc).2.2.2.2.2 1 _ (hd'.trans hd.symm) (hi'.trans hi.symm)
  exact ⟨locals', code', hl, hlocals, hsame.length_eq, hrebind, hcode⟩

end MethodBody
