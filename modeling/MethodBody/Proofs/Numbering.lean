import MethodBody.Proofs.Places

namespace MethodBody

namespace LocalTable

/-- Declares one local after the other, with or without room for it, and collects the answers. -/
def declareEach : LocalTable → List Declaration → List (Except Error UInt16) × LocalTable
  | table, [] => ([], table)
  | table, d :: ds =>
    let (answer, next) := table.declare d
    let (answers, last) := next.declareEach ds
    (answer :: answers, last)

/-- The answer to a declaration with so many others before it. -/
def answerAt (position : Nat) : Except Error UInt16 :=
  if position < localsLimit then .ok position.toUInt16 else .error .tooManyLocals

theorem declareEach_cons {table next : LocalTable} {d : Declaration} {answer : Except Error UInt16}
    (h : table.declare d = (answer, next)) (ds : List Declaration) :
    table.declareEach (d :: ds) = (answer :: (next.declareEach ds).1, (next.declareEach ds).2) := by
  rw [declareEach, h]

theorem declareEach_append (table : LocalTable) (ds es : List Declaration) :
    table.declareEach (ds ++ es) =
      ((table.declareEach ds).1 ++ ((table.declareEach ds).2.declareEach es).1,
        ((table.declareEach ds).2.declareEach es).2) := by
  induction ds generalizing table with
  | nil => rfl
  | cons d ds ih => simp only [List.cons_append, declareEach, ih]

theorem Reachable.declareEach {table : LocalTable} (h : table.Reachable) (ds : List Declaration) :
    (table.declareEach ds).2.Reachable := by
  induction ds generalizing table with
  | nil => exact h
  | cons d ds ih => exact ih (h.declare d)

theorem Numbered.declareEach {table : LocalTable} (h : table.Numbered) (ds : List Declaration) :
    (table.declareEach ds).2.Numbered := by
  induction ds generalizing table with
  | nil => exact h
  | cons d ds ih => exact ih (h.declare d)

theorem method_declareEach (table : LocalTable) (ds : List Declaration) :
    (table.declareEach ds).2.method = table.method := by
  induction ds generalizing table with
  | nil => rfl
  | cons d ds ih =>
    rcases table.declare_cases d with ⟨_, next, hd, hmethod, _⟩ | ⟨_, hd⟩
    · rw [declareEach_cons hd]
      exact (ih next).trans hmethod
    · rw [declareEach_cons hd]
      exact ih table

/-- A run of declarations keeps those there were and adds its own until there is no room left. -/
theorem declarations_declareEach {table : LocalTable} (h : table.size ≤ localsLimit)
    (ds : List Declaration) :
    (table.declareEach ds).2.declarations.toList =
      (table.declarations.toList ++ ds).take localsLimit := by
  have hlength : table.declarations.toList.length = table.size := by simp
  induction ds generalizing table with
  | nil =>
    rw [List.append_nil, List.take_of_length_le (by omega)]
    rfl
  | cons d ds ih =>
    rcases table.declare_cases d with ⟨hroom, next, hd, _, hpush⟩ | ⟨hfull, hd⟩
    · have hsize : next.size ≤ localsLimit := by
        rw [size, hpush, Array.size_push]
        exact hroom
      have hnext := ih hsize (by simp)
      rw [declarations_push hpush, Array.toList_push, List.append_assoc] at hnext
      rw [declareEach_cons hd]
      exact hnext
    · -- No room is made by a failure, so all that follow fail as well.
      have htable := ih h hlength
      rw [List.take_append_of_le_length (by omega)] at htable ⊢
      rw [declareEach_cons hd]
      exact htable

theorem answers_declareEach {table : LocalTable} {start : Nat}
    (h : table.size = min start localsLimit) (ds : List Declaration) :
    (table.declareEach ds).1 = (List.range' start ds.length).map answerAt := by
  induction ds generalizing table start with
  | nil => rfl
  | cons d ds ih =>
    rw [List.length_cons, List.range'_succ, List.map_cons]
    rcases table.declare_cases d with ⟨hroom, next, hd, _, hpush⟩ | ⟨hfull, hd⟩
    · have hstart : table.size = start := by omega
      have hsize : next.size = min (start + 1) localsLimit := by
        rw [size, hpush, Array.size_push]
        show table.size + 1 = _
        omega
      have hanswer : answerAt start = .ok table.size.toUInt16 := by
        rw [answerAt, hstart, if_pos (hstart ▸ hroom)]
      rw [declareEach_cons hd, hanswer, ← ih hsize]
    · have hsize : table.size = min (start + 1) localsLimit := by omega
      have hanswer : answerAt start = .error .tooManyLocals := if_neg (by omega)
      rw [declareEach_cons hd, hanswer, ← ih hsize]

section FreshTable

variable {method : Nat} {ds : List Declaration}

theorem numbered_declareEach_empty (method : Nat) (ds : List Declaration) :
    ((empty method).declareEach ds).2.Numbered :=
  (numbered_empty method).declareEach ds

/-- A run on a fresh table keeps as many of its declarations as there is room for. -/
theorem declarations_declareEach_empty (method : Nat) (ds : List Declaration) :
    ((empty method).declareEach ds).2.declarations.toList = ds.take localsLimit := by
  rw [declarations_declareEach (Nat.zero_le _), declarations_empty]
  rfl

theorem size_declareEach_empty (method : Nat) (ds : List Declaration) :
    ((empty method).declareEach ds).2.size = min ds.length localsLimit := by
  rw [← size_declarations, ← Array.length_toList, declarations_declareEach_empty, List.length_take,
    Nat.min_comm]

theorem get?_declareEach_empty {n : UInt16} {l : Local} :
    ((empty method).declareEach ds).2.get? n = some l ↔
      l.method = method ∧ l.place = n.toNat ∧ l.index = n ∧ n.toNat < localsLimit ∧
        ds[n.toNat]? = some l.toDeclaration := by
  rw [(numbered_declareEach_empty method ds).get?_eq_some_iff, method_declareEach,
    ← Array.getElem?_toList, declarations_declareEach_empty, List.getElem?_take,
    Option.ite_none_right_eq_some]
  rfl

theorem answers_declareEach_empty (method : Nat) (ds : List Declaration) :
    ((empty method).declareEach ds).1 = (List.range ds.length).map answerAt := by
  have hzero : (empty method).size = min 0 localsLimit := (Nat.zero_min localsLimit).symm
  rw [answers_declareEach hzero, List.range_eq_range']

theorem length_answers (method : Nat) (ds : List Declaration) :
    ((empty method).declareEach ds).1.length = ds.length := by
  rw [answers_declareEach_empty, List.length_map, List.length_range]

theorem getElem?_answers {k : Nat} (hk : k < ds.length) :
    ((empty method).declareEach ds).1[k]? = some (answerAt k) := by
  rw [answers_declareEach_empty, List.getElem?_map, List.getElem?_range hk, Option.map_some]

/-- Only calls that find no room fail, and these leave the table as it was. -/
theorem declareEach_take_succ_of_error {k : Nat} {e : Error}
    (h : ((empty method).declareEach ds).1[k]? = some (.error e)) :
    ((empty method).declareEach (ds.take (k + 1))).2 =
      ((empty method).declareEach (ds.take k)).2 := by
  have hfull : localsLimit ≤ k := by
    have hk := (List.getElem?_eq_some_iff.mp h).1
    rw [length_answers] at hk
    rw [getElem?_answers hk, answerAt] at h
    split at h
    next => cases h
    next hfull => exact Nat.le_of_not_lt hfull
  have hnumbered := numbered_declareEach_empty method
  refine (hnumbered _).eq_of_declarations (hnumbered _) ?_ (Array.toList_inj.mp ?_)
  · rw [method_declareEach, method_declareEach]
  · rw [declarations_declareEach_empty, declarations_declareEach_empty, List.take_take,
      List.take_take, Nat.min_eq_left hfull, Nat.min_eq_left (by omega)]

theorem map_index_toList {table : LocalTable} (h : table.Numbered) :
    table.toList.map (·.index.toNat) = List.range table.size := by
  apply List.ext_getElem?
  intro k
  rw [List.getElem?_map]
  by_cases hk : k < table.size
  · have hl : k < table.toList.length := by rwa [length_toList]
    have hsome := List.getElem?_eq_getElem hl
    rw [hsome, List.getElem?_range hk, Option.map_some, h.index_of_getElem?_toList hsome]
  · rw [List.getElem?_eq_none (by rw [length_toList]; omega),
      List.getElem?_eq_none (by rw [List.length_range]; omega)]
    rfl

end FreshTable

/-- A run on a fresh table numbers its locals in order, and fails without effect once the table is
full. -/
theorem declareEach_empty (method : Nat) (ds : List Declaration) :
    ∃ answers table, (empty method).declareEach ds = (answers, table) ∧
      answers.length = ds.length ∧
      (∀ k < ds.length, (k < localsLimit → ∃ n, answers[k]? = some (.ok n) ∧ n.toNat = k) ∧
        (localsLimit ≤ k → answers[k]? = some (.error .tooManyLocals))) ∧
      (∀ k e, answers[k]? = some (.error e) →
        ((empty method).declareEach (ds.take (k + 1))).2 =
          ((empty method).declareEach (ds.take k)).2) ∧
      table.size = min ds.length localsLimit ∧
      (∀ n, (table.get? n).isSome = true ↔ n.toNat < table.size) ∧
      (∀ n l, table.get? n = some l → l.index = n ∧ ds[n.toNat]? = some l.toDeclaration ∧
        ∀ more, ((empty method).declareEach (ds ++ more)).2.get? n = some l) ∧
      table.get? 65535 = none ∧
      table.toList.map (·.index.toNat) = List.range table.size ∧
      (∀ n, table.get? n = table.toList[n.toNat]?) ∧
      (∀ (i j : Nat) (a b : Local), table.toList[i]? = some a → table.toList[j]? = some b →
        a.index = b.index → i = j ∧ a.same b = true) := by
  have hnumbered := numbered_declareEach_empty method ds
  refine ⟨_, _, rfl, ?_, ?_, fun k e => declareEach_take_succ_of_error,
    size_declareEach_empty method ds, isSome_get? _, ?_, ?_, map_index_toList hnumbered,
    get?_eq_getElem?_toList _, ?_⟩
  · exact length_answers method ds
  · intro k hk
    rw [getElem?_answers hk]
    constructor
    · intro hroom
      exact ⟨k.toUInt16, by rw [answerAt, if_pos hroom], toNat_toUInt16_of_lt hroom⟩
    · intro hfull
      rw [answerAt, if_neg (Nat.not_lt.mpr hfull)]
  · intro n l hl
    obtain ⟨hmethod, hplace, hindex, hroom, hd⟩ := get?_declareEach_empty.mp hl
    refine ⟨hindex, hd, fun more => ?_⟩
    have hn : n.toNat < ds.length := (List.getElem?_eq_some_iff.mp hd).1
    have hmore : (ds ++ more)[n.toNat]? = some l.toDeclaration := by
      rw [List.getElem?_append_left hn, hd]
    exact get?_declareEach_empty.mpr ⟨hmethod, hplace, hindex, hroom, hmore⟩
  · rw [Option.eq_none_iff_forall_ne_some]
    intro l hl
    obtain ⟨_, _, _, hroom, _⟩ := get?_declareEach_empty.mp hl
    exact absurd hroom (by decide)
  · intro i j a b ha hb hab
    have hi := hnumbered.index_of_getElem?_toList ha
    have hj := hnumbered.index_of_getElem?_toList hb
    have hij : i = j := by rw [← hi, ← hj, hab]
    subst hij
    cases ha.symm.trans hb
    exact ⟨rfl, a.same_self⟩

/-- With one call more than there is room for, the last number is that below the limit. -/
theorem declareEach_empty_full :
    ∃ answers table,
      (empty 0).declareEach (List.replicate 65536 ⟨"int32", false⟩) = (answers, table) ∧
        (∃ n, answers[65534]? = some (.ok n) ∧ n.toNat = 65534) ∧
        answers[65535]? = some (.error .tooManyLocals) ∧ table.size = 65535 ∧
        (∃ l, table.get? 65534 = some l ∧ l.index = 65534) ∧ table.get? 65535 = none := by
  obtain ⟨answers, table, hrun, _, hanswers, _, hsize, hsome, hentry, hnone, _⟩ :=
    declareEach_empty 0 (List.replicate 65536 ⟨"int32", false⟩)
  rw [List.length_replicate] at hanswers hsize
  have hlast := (hanswers 65534 (by decide)).1 (by decide)
  have hbehind := (hanswers 65535 (by decide)).2 (by decide)
  have hpresent : (table.get? 65534).isSome = true := by
    rw [hsome, hsize]
    decide
  obtain ⟨l, hl⟩ := Option.isSome_iff_exists.mp hpresent
  exact ⟨answers, table, hrun, hlast, hbehind, hsize, ⟨l, hl, (hentry _ l hl).1⟩, hnone⟩

end LocalTable

end MethodBody
