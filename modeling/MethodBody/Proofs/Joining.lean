import MethodBody.Proofs.Interleaving
import MethodBody.Proofs.Numbering
import Mathlib.Data.List.ReduceOption

namespace MethodBody

theorem length_splitOn (text : List Char) (c : Char) :
    (text.splitOn c).length = text.count c + 1 := by
  induction text with
  | nil => rfl
  | cons d text ih =>
    rw [List.splitOn_cons_eq_if_modifyHead, List.count_cons]
    split
    next => rw [List.length_cons, ih]
    next => rw [List.length_modifyHead, ih, Nat.add_zero]

/-- The error of a text as it is reported with so many lines before the text. -/
def Error.below (count : Nat) : Error → Error
  | .atLine n fault => .atLine (count + n) fault
  | e => e

/-- The lines of a text keep their order behind those of another, with its lines counted in. -/
theorem effectiveLines_join (a b : List Char) :
    effectiveLines (a ++ '\n' :: b) =
      effectiveLines a ++ (effectiveLines b).map (Prod.map (a.count '\n' + 1 + ·) id) := by
  have hshift : (b.splitOn '\n').zipIdx (1 + (a.splitOn '\n').length) =
      ((b.splitOn '\n').zipIdx 1).map (Prod.map id (a.count '\n' + 1 + ·)) := by
    rw [length_splitOn, Nat.add_comm, ← List.map_snd_add_zipIdx_eq_zipIdx]
    simp only [Nat.add_comm]
  rw [effectiveLines, List.splitOn_append_cons_self, List.zipIdx_append, List.filterMap_append,
    hshift, List.filterMap_map, effectiveLines, effectiveLines, List.map_filterMap]
  congr 2
  funext p
  simp [Option.map_map, Function.comp_def]

theorem plainLines_join (a b : List Char) :
    plainLines (a ++ '\n' :: b) = plainLines a ++ plainLines b := by
  rw [plainLines, List.splitOn_append_cons_self, List.filterMap_append]
  rfl

theorem directiveLines_join (a b : String) :
    directiveLines (a ++ "\n" ++ b) = directiveLines a ++ directiveLines b := by
  have htext : (a ++ "\n" ++ b).toList = a.toList ++ '\n' :: b.toList := by simp
  rw [directiveLines, htext, plainLines_join, List.filter_append]
  rfl

section ReadEach

variable {α : Type} (read : List Char → Except Fault α)

/-- Reads each of the numbered lines by itself. -/
def readEach (lines : List (Nat × List Char)) : Except Error (List α) :=
  lines.mapM fun (n, line) => (read line).mapError (.atLine n)

theorem readEach_append (lines lines' : List (Nat × List Char)) :
    readEach read (lines ++ lines') = (do
      let xs ← readEach read lines
      let ys ← readEach read lines'
      return xs ++ ys) :=
  List.mapM_append

theorem readEach_cons (n : Nat) (line : List Char) (lines : List (Nat × List Char)) :
    readEach read ((n, line) :: lines) = (do
      let x ← (read line).mapError (.atLine n)
      let xs ← readEach read lines
      return x :: xs) :=
  List.mapM_cons

theorem readEach_below (count : Nat) (lines : List (Nat × List Char)) :
    readEach read (lines.map (Prod.map (count + ·) id)) =
      (readEach read lines).mapError (Error.below count) := by
  induction lines with
  | nil => rfl
  | cons p lines ih =>
    obtain ⟨n, line⟩ := p
    rw [List.map_cons, Prod.map_apply, id_eq, readEach_cons, readEach_cons, ih]
    cases read line with
    | error fault => rfl
    | ok x => cases readEach read lines <;> rfl

theorem exists_atLine_of_readEach {lines : List (Nat × List Char)} {e : Error}
    (h : readEach read lines = .error e) :
    ∃ n ∈ lines.map Prod.fst, ∃ fault, e = .atLine n fault := by
  obtain ⟨⟨n, line⟩, hm, hread⟩ := exists_mem_of_mapM_eq_error h
  obtain ⟨fault, _, he⟩ := mapError_eq_error_iff.mp hread
  exact ⟨n, List.mem_map_of_mem hm, fault, he.symm⟩

end ReadEach

/-- Code is read text by text, and only the numbers of the lines tell what stands before them. -/
theorem readCode_join (locals : Locals) (a b : String) :
    readCode locals (a ++ "\n" ++ b) = (do
      let x ← readCode locals a
      let y ← (readCode locals b).mapError (Error.below (a.toList.count '\n' + 1))
      return x ++ y) := by
  have htext : (a ++ "\n" ++ b).toList = a.toList ++ '\n' :: b.toList := by simp
  have hlines : codeLines (a ++ "\n" ++ b) =
      codeLines a ++ (codeLines b).map (Prod.map (a.toList.count '\n' + 1 + ·) id) := by
    rw [codeLines, htext, effectiveLines_join, List.filter_append, List.filter_map]
    rfl
  have hread : ∀ text, readCode locals text = readEach (readInstruction locals) (codeLines text) :=
    fun _ => rfl
  rw [hread, hlines, readEach_append, readEach_below]
  rfl

/-- The declaration of a directive line. Other lines have none, unless they begin like one. -/
def declared? (line : List Char) : Except Fault (Option Declaration) :=
  match directive? line with
  | some args => (readDeclaration args).map some
  | none =>
    if line.head? = some '.' then .error (.unknownDirective (String.ofList (splitWord line).1))
    else .ok none

theorem isSome_of_declared? {line : List Char} {d? : Option Declaration}
    (h : declared? line = .ok d?) : (directive? line).isSome = d?.isSome := by
  unfold declared? at h
  split at h
  next args hargs =>
    obtain ⟨d, _, rfl⟩ := map_eq_ok_iff.mp h
    rw [hargs, Option.isSome_some, Option.isSome_some]
  next hargs =>
    split at h
    next => cases h
    next =>
      cases h
      rw [hargs, Option.isSome_none, Option.isSome_none]

namespace Locals

/-- The locals behind a line with the given declaration, if it has one. -/
def add (locals : Locals) : Option Declaration → Except Fault Locals
  | none => .ok locals
  | some d =>
    match locals.declare d with
    | (.ok _, next) => .ok next
    | (.error _, _) => .error .tooManyLocals

/-- The locals behind a run of declarations, with or without room for each. -/
def declareAll (locals : Locals) (ds : List Declaration) : Locals :=
  ⟨(locals.toLocalTable.declareEach ds).2, locals.reachable.declareEach ds⟩

theorem declareAll_append (locals : Locals) (ds es : List Declaration) :
    locals.declareAll (ds ++ es) = (locals.declareAll ds).declareAll es := by
  simp only [declareAll, LocalTable.declareEach_append]

theorem method_declareAll (locals : Locals) (ds : List Declaration) :
    (locals.declareAll ds).method = locals.method :=
  locals.method_declareEach ds

theorem declarations_declareAll (locals : Locals) (ds : List Declaration) :
    (locals.declareAll ds).declarations.toList =
      (locals.declarations.toList ++ ds).take localsLimit :=
  LocalTable.declarations_declareEach locals.size_le ds

theorem size_declareAll {locals : Locals} {ds : List Declaration}
    (h : locals.size + ds.length ≤ localsLimit) :
    (locals.declareAll ds).size = locals.size + ds.length := by
  have hlength : (locals.declarations.toList ++ ds).length = locals.size + ds.length := by simp
  rw [← LocalTable.size_declarations, ← Array.length_toList, declarations_declareAll,
    List.length_take, hlength, Nat.min_eq_right h]

theorem add_of_room {locals : Locals} {d? : Option Declaration}
    (h : locals.size + d?.toList.length ≤ localsLimit) :
    locals.add d? = .ok (locals.declareAll d?.toList) := by
  cases d? with
  | none => rfl
  | some d =>
    rcases locals.declare_cases d with ⟨_, next, hd, _⟩ | ⟨hfull, _⟩
    · have hnext : locals.declareAll [d] = next := congrArg (·.2) hd
      rw [Option.toList_some, hnext, add, hd]
    · rw [Option.toList_some, List.length_singleton] at h
      omega

end Locals

/-- What a line declares does not depend on the locals declared before it. -/
theorem readLocal_eq (locals : Locals) (line : List Char) :
    readLocal locals line = declared? line >>= locals.add := by
  unfold readLocal declared?
  cases directive? line with
  | none =>
    dsimp only
    split <;> rfl
  | some args =>
    dsimp only
    cases readDeclaration args <;> rfl

theorem reduceOption_cons {α : Type} (x? : Option α) (xs : List (Option α)) :
    (x? :: xs).reduceOption = x?.toList ++ xs.reduceOption := by
  cases x? <;> rfl

/-- As long as there is room, directive lines can be read without the locals before them. -/
theorem foldlM_readLocal_of_room {lines : List (Nat × List Char)} {locals : Locals}
    (h : locals.size + lines.countP (fun p => (directive? p.2).isSome) ≤ localsLimit) :
    lines.foldlM (fun locals (n, line) => (readLocal locals line).mapError (.atLine n)) locals =
      (readEach declared? lines).map fun ds => locals.declareAll ds.reduceOption := by
  induction lines generalizing locals with
  | nil => rfl
  | cons p lines ih =>
    obtain ⟨n, line⟩ := p
    rw [List.foldlM_cons, readEach_cons]
    dsimp only
    rw [readLocal_eq]
    cases hd : declared? line with
    | error fault => rfl
    | ok d? =>
      have hlength : d?.toList.length = if d?.isSome then 1 else 0 := by cases d? <;> rfl
      rw [List.countP_cons, isSome_of_declared? hd, ← hlength] at h
      have hroom : locals.size + d?.toList.length ≤ localsLimit := by omega
      have hbehind : (locals.declareAll d?.toList).size +
          lines.countP (fun p => (directive? p.2).isSome) ≤ localsLimit := by
        rw [Locals.size_declareAll hroom]
        omega
      have hadd : (Except.ok d? : Except Fault _) >>= locals.add =
          .ok (locals.declareAll d?.toList) := Locals.add_of_room hroom
      rw [hadd]
      refine (ih hbehind).trans ?_
      cases readEach declared? lines with
      | error e => rfl
      | ok ds =>
        simp only [bind, Except.bind, Except.mapError, Except.map, pure, Except.pure,
          reduceOption_cons, Locals.declareAll_append]

theorem countP_directive_effectiveLines (text : String) :
    (effectiveLines text.toList).countP (fun p => (directive? p.2).isSome) =
      (directiveLines text).length := by
  rw [directiveLines, ← map_snd_effectiveLines, ← List.countP_eq_length_filter, List.countP_map]
  rfl

theorem readLocals_of_room {text : String} (h : (directiveLines text).length ≤ localsLimit)
    (method : Nat) :
    readLocals method text = (readEach declared? (effectiveLines text.toList)).map fun ds =>
      (Locals.empty method).declareAll ds.reduceOption := by
  refine foldlM_readLocal_of_room ?_
  rw [countP_directive_effectiveLines]
  exact (Nat.zero_add _).trans_le h

theorem Locals.declareAll_declarations (locals other : Locals) (ds : List Declaration)
    (h : other.declarations.toList = ds.take localsLimit) :
    locals.declareAll other.declarations.toList = locals.declareAll ds := by
  refine eq_of_declarations ?_ (Array.toList_inj.mp ?_)
  · rw [method_declareAll, method_declareAll]
  · rw [declarations_declareAll, declarations_declareAll, h, List.take_append, List.take_append,
      List.take_take, Nat.min_eq_left (Nat.sub_le _ _)]

/-- The locals of two texts are declared one after the other, as long as there is room for all. -/
theorem readLocals_join {a b : String}
    (h : (directiveLines a).length + (directiveLines b).length ≤ localsLimit) (method : Nat) :
    readLocals method (a ++ "\n" ++ b) = (do
      let first ← readLocals method a
      let second ← (readLocals method b).mapError (Error.below (a.toList.count '\n' + 1))
      return first.declareAll second.declarations.toList) := by
  have htext : (a ++ "\n" ++ b).toList = a.toList ++ '\n' :: b.toList := by simp
  have hroom : (directiveLines (a ++ "\n" ++ b)).length ≤ localsLimit := by
    rw [directiveLines_join, List.length_append]
    exact h
  rw [readLocals_of_room hroom, htext, effectiveLines_join, readEach_append, readEach_below,
    readLocals_of_room (Nat.le_of_add_right_le h), readLocals_of_room (Nat.le_of_add_left_le h)]
  cases readEach declared? (effectiveLines a.toList) with
  | error e => rfl
  | ok ds =>
    cases readEach declared? (effectiveLines b.toList) with
    | error e => rfl
    | ok es =>
      have hsecond := Locals.declareAll_declarations
        ((Locals.empty method).declareAll ds.reduceOption)
        ((Locals.empty method).declareAll es.reduceOption) es.reduceOption
        (LocalTable.declarations_declareEach_empty method es.reduceOption)
      simp only [bind, Except.bind, Except.mapError, Except.map, pure, Except.pure, hsecond,
        List.reduceOption_append, Locals.declareAll_append]

theorem method_of_readLocals {method : Nat} {text : String} {locals : Locals}
    (h : readLocals method text = .ok locals) : locals.method = method := by
  have hrenamed := readLocals_inMethod method method text
  rw [h] at hrenamed
  exact congrArg (·.method) (Except.ok.inj hrenamed)

/-- The local at the place and under the number that it has behind so many others. -/
def Local.movedBy (count : Nat) (l : Local) : Local :=
  { l with index := count.toUInt16 + l.index, place := count + l.place }

namespace Locals

theorem toList_declareAll {locals other : Locals} (hmethod : other.method = locals.method)
    (h : locals.size + other.size ≤ localsLimit) :
    (locals.declareAll other.declarations.toList).toList =
      locals.toList ++ other.toList.map (Local.movedBy locals.size) := by
  have hall : (locals.declareAll other.declarations.toList).declarations.toList =
      locals.declarations.toList ++ other.declarations.toList := by
    rw [declarations_declareAll, List.take_of_length_le]
    simpa using h
  have hdeclared : locals.declarations.toList.length = locals.size := by simp
  have hlisted : locals.toList.length = locals.size := locals.length_toList
  apply List.ext_getElem?
  intro k
  rw [(numbered _).getElem?_toList, ← Array.getElem?_toList, hall, method_declareAll]
  by_cases hk : k < locals.size
  · rw [List.getElem?_append_left (by omega), List.getElem?_append_left (by omega),
      locals.numbered.getElem?_toList, Array.getElem?_toList]
  · obtain ⟨j, rfl⟩ := Nat.exists_eq_add_of_le (Nat.le_of_not_lt hk)
    have hindex : (locals.size + j).toUInt16 = locals.size.toUInt16 + j.toUInt16 :=
      UInt16.ofNat_add _ _
    rw [List.getElem?_append_right (by omega), List.getElem?_append_right (by omega), hdeclared,
      hlisted, Nat.add_sub_cancel_left, List.getElem?_map, other.numbered.getElem?_toList,
      Array.getElem?_toList, Option.map_map, hmethod, hindex]
    rfl

theorem index_movedBy {locals other : Locals} {l : Local}
    (h : locals.size + other.size ≤ localsLimit) (hl : l ∈ other.toList) :
    (l.movedBy locals.size).index.toNat = locals.size + l.index.toNat := by
  obtain ⟨k, hk⟩ := List.mem_iff_getElem?.mp hl
  have hindex : l.index.toNat = k := other.numbered.index_of_getElem?_toList hk
  have hbound : k < other.size := by
    rw [← LocalTable.length_toList]
    exact (List.getElem?_eq_some_iff.mp hk).1
  have hlimit : localsLimit = 65535 := rfl
  have hsize : locals.size.toUInt16.toNat = locals.size := toNat_toUInt16_of_lt (by omega)
  show (locals.size.toUInt16 + l.index).toNat = _
  rw [UInt16.toNat_add, hsize, hindex]
  omega

end Locals

theorem exists_atLine_of_readCode {locals : Locals} {text : String} {e : Error}
    (h : readCode locals text = .error e) : ∃ n fault, e = .atLine n fault := by
  obtain ⟨n, _, fault, rfl⟩ := exists_atLine_of_readEach (readInstruction locals) h
  exact ⟨n, fault, rfl⟩

theorem exists_atLine_of_readLocals {method : Nat} {text : String} {e : Error}
    (hroom : (directiveLines text).length ≤ localsLimit) (h : readLocals method text = .error e) :
    ∃ n fault, e = .atLine n fault := by
  rw [readLocals_of_room hroom] at h
  cases hread : readEach declared? (effectiveLines text.toList) with
  | error e' =>
    rw [hread] at h
    cases h
    obtain ⟨n, _, fault, rfl⟩ := exists_atLine_of_readEach declared? hread
    exact ⟨n, fault, rfl⟩
  | ok ds =>
    rw [hread] at h
    cases h

/-- Two texts with a line feed between them are read one after the other, and the first error wins.
-/
theorem readCode_readLocals_join (a b : String) :
    (∀ locals,
      (∀ e, readCode locals a = .error e → readCode locals (a ++ "\n" ++ b) = .error e) ∧
      (∀ x y, readCode locals a = .ok x → readCode locals b = .ok y →
        readCode locals (a ++ "\n" ++ b) = .ok (x ++ y)) ∧
      (∀ x e, readCode locals a = .ok x → readCode locals b = .error e →
        ∃ k fault, e = .atLine k fault ∧ readCode locals (a ++ "\n" ++ b) =
          .error (.atLine (a.toList.count '\n' + 1 + k) fault))) ∧
    ((directiveLines a).length + (directiveLines b).length ≤ localsLimit → ∀ method,
      (∀ e, readLocals method a = .error e → readLocals method (a ++ "\n" ++ b) = .error e) ∧
      (∀ first second, readLocals method a = .ok first → readLocals method b = .ok second →
        ∃ locals, readLocals method (a ++ "\n" ++ b) = .ok locals ∧
          locals.toList = first.toList ++ second.toList.map (Local.movedBy first.size) ∧
          ∀ l ∈ second.toList, (l.movedBy first.size).index.toNat = first.size + l.index.toNat) ∧
      (∀ first e, readLocals method a = .ok first → readLocals method b = .error e →
        ∃ k fault, e = .atLine k fault ∧ readLocals method (a ++ "\n" ++ b) =
          .error (.atLine (a.toList.count '\n' + 1 + k) fault))) := by
  constructor
  · intro locals
    rw [readCode_join]
    refine ⟨?_, ?_, ?_⟩
    · intro e ha
      rw [ha]
      rfl
    · intro x y ha hb
      rw [ha, hb]
      rfl
    · intro x e ha hb
      obtain ⟨k, fault, rfl⟩ := exists_atLine_of_readCode hb
      rw [ha, hb]
      exact ⟨k, fault, rfl, rfl⟩
  · intro hroom method
    rw [readLocals_join hroom]
    refine ⟨?_, ?_, ?_⟩
    · intro e ha
      rw [ha]
      rfl
    · intro first second ha hb
      have hsizes : first.size + second.size ≤ localsLimit := by
        rw [size_of_readLocals ha, size_of_readLocals hb]
        exact hroom
      have hmethod : second.method = first.method :=
        (method_of_readLocals hb).trans (method_of_readLocals ha).symm
      rw [ha, hb]
      exact ⟨_, rfl, Locals.toList_declareAll hmethod hsizes,
        fun l hl => Locals.index_movedBy hsizes hl⟩
    · intro first e ha hb
      obtain ⟨k, fault, rfl⟩ := exists_atLine_of_readLocals (Nat.le_of_add_left_le hroom) hb
      rw [ha, hb]
      exact ⟨k, fault, rfl, rfl⟩

/-- The literal left open in the first text takes no line of the second one with it. -/
theorem readCode_readLocals_join_open_literal :
    (∃ locals, readLocals 0 (".local \"a\n" ++ "\n" ++ ".local string // b\npop 1") = .ok locals ∧
        locals.toList = [⟨⟨⟨"\"a", false⟩, 0⟩, 0, 0⟩, ⟨⟨⟨"string", false⟩, 1⟩, 0, 1⟩]) ∧
      readCode (.empty 0) (".local \"a\n" ++ "\n" ++ ".local string // b\npop 1") =
        .error (.atLine 4 (.strayOperand .pop "1")) := by
  have ha : directiveLines ".local \"a\n" = [".local \"a".toList] := rfl
  have hb : directiveLines ".local string // b\npop 1" = [".local string".toList] := rfl
  have hfirst : readLocals 0 ".local \"a\n" = .ok ((Locals.empty 0).declare ⟨"\"a", false⟩).2 := rfl
  have hsecond : readLocals 0 ".local string // b\npop 1" =
      .ok ((Locals.empty 0).declare ⟨"string", false⟩).2 := rfl
  obtain ⟨hcode, hlocals⟩ := readCode_readLocals_join ".local \"a\n" ".local string // b\npop 1"
  constructor
  · obtain ⟨locals, hl, hlist, _⟩ := (hlocals (by rw [ha, hb]; decide) 0).2.1 _ _ hfirst hsecond
    exact ⟨locals, hl, hlist⟩
  · obtain ⟨k, fault, he, hjoined⟩ :=
      (hcode (.empty 0)).2.2 [] (.atLine 2 (.strayOperand .pop "1")) rfl rfl
    cases he
    exact hjoined

end MethodBody
