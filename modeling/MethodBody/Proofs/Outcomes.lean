import MethodBody.Proofs.ReloadEffect

namespace MethodBody

theorem Opcode.takesAddress_iff {op : Opcode} :
    op.takesAddress = true ↔ op = .ldloca ∨ op = .ldlocaS := by
  cases op <;> simp [takesAddress]

namespace Instruction

theorem not_accesses_iff {d : Direction} {x : Instruction} :
    ¬x.Accesses d ↔ ∀ form, x.opcode.valueAccess? ≠ some ⟨d, form⟩ := by
  rw [accesses_iff, not_exists]

theorem exists_malformed_iff {x : Instruction} :
    (∃ d, x.Malformed d) ↔ ∃ a, x.opcode.valueAccess? = some a ∧ a.form.hasOperand = true ∧
      ∀ l, x.operand ≠ some (.declared l) := by
  simp only [malformed_iff_forall]
  constructor
  · rintro ⟨d, form, h⟩
    exact ⟨⟨d, form⟩, h⟩
  · rintro ⟨a, h⟩
    exact ⟨a.direction, a.form, h⟩

/-- What comes of asking for a counterpart. Only the load of an address is mistaken for an access.
-/
inductive Countered (d : Direction) (x : Instruction) : Except Error Instruction → Prop where
  | access {form : SlotForm} {y : Instruction} (h : x.IsCounterpart ⟨d, form⟩ y) :
    Countered d x (.ok y)
  | malformed (h : x.Malformed d) : Countered d x (.error (.noLocal x.opcode))
  | address (hd : d = .load) (h : x.opcode.takesAddress = true) :
    Countered d x (.error (.noCounterpart x.opcode))
  | other (h : ¬x.Accesses d) (ha : d = .load → x.opcode.takesAddress = false) :
    Countered d x (.error (.wrongDirection d x.opcode))

theorem counterpart_of_takesAddress {x : Instruction} (h : x.opcode.takesAddress = true) :
    x.counterpart .load = .error (.noCounterpart x.opcode) := by
  rcases Opcode.takesAddress_iff.mp h with hop | hop <;> rw [counterpart, hop] <;> rfl

theorem counterpart_of_not_accesses {d : Direction} {x : Instruction} (h : ¬x.Accesses d)
    (ha : d = .load → x.opcode.takesAddress = false) :
    x.counterpart d = .error (.wrongDirection d x.opcode) := by
  have haccess : x.opcode.valueAccess?.any (·.direction == d) = false := by
    simpa [Accesses] using h
  have huses : x.opcode.uses d = false := by
    cases d with
    | load => exact Opcode.uses_eq_false (ha rfl) haccess
    | store => exact haccess
  rw [counterpart, huses]
  rfl

theorem countered_of_eq {d : Direction} {x : Instruction} {result : Except Error Instruction}
    (h : x.counterpart d = result) : Countered d x result := by
  subst h
  by_cases ha : x.Accesses d
  · by_cases hm : x.Malformed d
    · rw [counterpart_of_malformed hm]
      exact .malformed hm
    · obtain ⟨form, haccess⟩ := accesses_iff.mp ha
      obtain ⟨y, hy⟩ := exists_isCounterpart haccess hm
      rw [hy.counterpart_eq]
      exact .access hy
  · -- Of what is no access, the load of an address alone is not turned away at once.
    by_cases haddress : d = .load ∧ x.opcode.takesAddress = true
    · obtain ⟨rfl, haddress⟩ := haddress
      rw [counterpart_of_takesAddress haddress]
      exact .address rfl haddress
    · have hvalue : d = .load → x.opcode.takesAddress = false := by
        intro hd
        simpa [hd] using haddress
      rw [counterpart_of_not_accesses ha hvalue]
      exact .other ha hvalue

theorem counterpart_eq_wrongDirection_iff {d : Direction} {x : Instruction} :
    x.counterpart d = .error (.wrongDirection d x.opcode) ↔
      ¬x.Accesses d ∧ (d = .load → x.opcode.takesAddress = false) := by
  constructor
  · intro h
    cases countered_of_eq h with
    | other hx ha => exact ⟨hx, ha⟩
  · rintro ⟨h, ha⟩
    exact counterpart_of_not_accesses h ha

theorem counterpart_eq_noCounterpart_iff {d : Direction} {x : Instruction} :
    x.counterpart d = .error (.noCounterpart x.opcode) ↔
      d = .load ∧ x.opcode.takesAddress = true := by
  constructor
  · intro h
    cases countered_of_eq h with
    | address hd hx => exact ⟨hd, hx⟩
  · rintro ⟨rfl, h⟩
    exact counterpart_of_takesAddress h

end Instruction

namespace AccessPair

open Instruction

/-- What comes of an instruction that is asked for its pair. -/
inductive Paired (x : Instruction) : Except Error AccessPair → Prop where
  | other (h : x.opcode.valueAccess? = none) : Paired x (.error (.noValueAccess x.opcode))
  | malformed {d : Direction} (h : x.Malformed d) : Paired x (.error (.noLocal x.opcode))
  | access {a : ValueAccess} {y : Instruction} (h : x.IsCounterpart a y) :
    Paired x (.ok (ofHalves a.direction x y))

theorem ofInstruction_of_none {x : Instruction} (h : x.opcode.valueAccess? = none) :
    ofInstruction x = .error (.noValueAccess x.opcode) := by
  simp only [ofInstruction, h]

theorem paired_of_eq {x : Instruction} {result : Except Error AccessPair}
    (h : ofInstruction x = result) : Paired x result := by
  subst h
  cases hx : x.opcode.valueAccess? with
  | none =>
    rw [ofInstruction_of_none hx]
    exact .other hx
  | some a =>
    by_cases hm : x.Malformed a.direction
    · rw [ofInstruction_of_malformed hm]
      exact .malformed hm
    · obtain ⟨y, hy⟩ := exists_isCounterpart hx hm
      rw [ofInstruction_eq_ok_iff.mpr ⟨a, y, hy, rfl⟩]
      exact .access hy

theorem ofInstruction_eq_noValueAccess_iff {x : Instruction} {opcode : Opcode} :
    ofInstruction x = .error (.noValueAccess opcode) ↔
      opcode = x.opcode ∧ x.opcode.valueAccess? = none := by
  constructor
  · intro h
    cases paired_of_eq h with
    | other hx => exact ⟨rfl, hx⟩
  · rintro ⟨rfl, hx⟩
    exact ofInstruction_of_none hx

theorem ofInstruction_eq_noLocal_iff {x : Instruction} {opcode : Opcode} :
    ofInstruction x = .error (.noLocal opcode) ↔ opcode = x.opcode ∧ ∃ d, x.Malformed d := by
  constructor
  · intro h
    cases paired_of_eq h with
    | malformed hm => exact ⟨rfl, _, hm⟩
  · rintro ⟨rfl, d, hm⟩
    exact ofInstruction_of_malformed hm

theorem ofInstruction_exists_iff {x : Instruction} :
    (∃ p, ofInstruction x = .ok p) ↔ ∃ a, x.opcode.valueAccess? = some a ∧
      (a.form.hasOperand = false ∨ ∃ l, x.operand = some (.declared l)) := by
  simp only [← exists_isCounterpart_iff]
  constructor
  · rintro ⟨p, h⟩
    obtain ⟨a, y, h, _⟩ := ofInstruction_eq_ok_iff.mp h
    exact ⟨a, y, h⟩
  · rintro ⟨a, y, h⟩
    exact ⟨_, ofInstruction_eq_ok_iff.mpr ⟨a, y, h, rfl⟩⟩

/-- A pair is only asked for the counterpart of an access, and every access has one. -/
theorem ofInstruction_ne_noCounterpart (x : Instruction) (opcode : Opcode) :
    ofInstruction x ≠ .error (.noCounterpart opcode) := by
  intro h
  cases paired_of_eq h

/-- An access gets its counterpart from its pair, or the error that the pair fails with. -/
theorem counterpart_eq_half {d : Direction} {x : Instruction} (h : x.Accesses d) :
    x.counterpart d = (ofInstruction x).map (·.half d.opposite) := by
  have hhalf (y : Instruction) : (ofHalves d x y).half d.opposite = y := by
    cases d <;> rfl
  rw [ofInstruction_of_accesses h]
  cases x.counterpart d with
  | ok y => exact congrArg Except.ok (hhalf y).symm
  | error e => rfl

theorem matching?_eq_none_iff {d : Direction} {x : Instruction} :
    matching? d x = .ok none ↔ ¬x.Accesses d := by
  constructor
  · intro h
    cases matched_of_eq h with
    | other ha => exact ha
  · exact matching?_of_not_accesses

theorem malformed_of_matching?_eq_error {d : Direction} {x : Instruction} {e : Error}
    (h : matching? d x = .error e) : x.Malformed d ∧ e = .noLocal x.opcode := by
  cases matched_of_eq h with
  | malformed hm => exact ⟨hm, rfl⟩

end AccessPair

open AccessPair Instruction

/-- A search fails for no reason but a malformed access of the code. -/
theorem malformed_of_searchSite_eq_error {d : Direction} {code : Array Instruction} {start : Nat}
    {e : Error} (h : searchSite d code start = .error e) :
    ∃ x ∈ code, x.Malformed d ∧ e = .noLocal x.opcode := by
  fun_induction searchSite d code start with
  | case1 => cases h
  | case2 start hs hnone ih => exact ih h
  | case3 start hs e' he =>
    cases h
    exact ⟨code[start], Array.getElem_mem hs, malformed_of_matching?_eq_error he⟩
  | case4 => cases h

theorem malformed_of_allSites_eq_error {d : Direction} {code : List Instruction} {e : Error}
    (h : allSites d code = .error e) : ∃ x ∈ code, x.Malformed d ∧ e = .noLocal x.opcode := by
  cases hf : code.find? (fun y => y.Malformed d) with
  | none =>
    obtain ⟨sites, hs, _⟩ := allSites_exists hf
    cases hs.symm.trans h
  | some x =>
    have hm : x.Malformed d := by simpa using List.find?_some hf
    cases (allSites_eq_error hf).symm.trans h
    exact ⟨x, List.mem_of_find?_eq_some hf, hm, rfl⟩

/-- Pairs, searches and single counterparts agree, but for the load of an address. -/
theorem AccessPair.outcomes_agree (x : Instruction) :
    ((∀ opcode, ofInstruction x = .error (.noValueAccess opcode) ↔
        opcode = x.opcode ∧ x.opcode.valueAccess? = none) ∧
      (∀ opcode, ofInstruction x = .error (.noLocal opcode) ↔
        opcode = x.opcode ∧ ∃ a, x.opcode.valueAccess? = some a ∧ a.form.hasOperand = true ∧
          ∀ l, x.operand ≠ some (.declared l)) ∧
      ((∃ p, ofInstruction x = .ok p) ↔
        ∃ a, x.opcode.valueAccess? = some a ∧
          (a.form.hasOperand = false ∨ ∃ l, x.operand = some (.declared l)))) ∧
    ((∀ d, matching? d x = .ok none ↔ ∀ form, x.opcode.valueAccess? ≠ some ⟨d, form⟩) ∧
      (∀ d form, x.opcode.valueAccess? = some ⟨d, form⟩ →
        matching? d x = (ofInstruction x).map some) ∧
      (x.opcode = .ldloca ∨ x.opcode = .ldlocaS → ∀ d, matching? d x = .ok none)) ∧
    ((x.counterpart .store = .error (.wrongDirection .store x.opcode) ↔
        ∀ form, x.opcode.valueAccess? ≠ some ⟨.store, form⟩) ∧
      (∀ form, x.opcode.valueAccess? = some ⟨.store, form⟩ →
        x.counterpart .store = (ofInstruction x).map (·.load))) ∧
    ((∀ form, x.opcode.valueAccess? = some ⟨.load, form⟩ →
        x.counterpart .load = (ofInstruction x).map (·.store)) ∧
      (x.counterpart .load = .error (.noCounterpart x.opcode) ↔
        x.opcode = .ldloca ∨ x.opcode = .ldlocaS) ∧
      (x.counterpart .load = .error (.wrongDirection .load x.opcode) ↔
        (∀ form, x.opcode.valueAccess? ≠ some ⟨.load, form⟩) ∧
          ¬(x.opcode = .ldloca ∨ x.opcode = .ldlocaS))) ∧
    ∀ opcode,
      ofInstruction x ≠ .error (.noCounterpart opcode) ∧
      (∀ x?, ofOption x? ≠ .error (.noCounterpart opcode)) ∧
      (∀ d, matching? d x ≠ .error (.noCounterpart opcode)) ∧
      (∀ d start code, firstSite d start code ≠ .error (.noCounterpart opcode)) ∧
      (∀ d code, allSites d code ≠ .error (.noCounterpart opcode)) ∧
      ∀ position code, reloadAfter position code ≠ .error (.noCounterpart opcode) := by
  refine ⟨⟨fun _ => ofInstruction_eq_noValueAccess_iff, ?_, ofInstruction_exists_iff⟩,
    ⟨?_, ?_, ?_⟩, ⟨?_, ?_⟩, ⟨?_, ?_, ?_⟩, ?_⟩
  · intro opcode
    rw [ofInstruction_eq_noLocal_iff, exists_malformed_iff]
  · intro d
    rw [matching?_eq_none_iff, not_accesses_iff]
  · intro d form ha
    exact matching?_of_accesses (accesses_iff.mpr ⟨form, ha⟩)
  · intro haddress d
    rw [matching?, if_pos (Opcode.takesAddress_iff.mpr haddress)]
  · rw [counterpart_eq_wrongDirection_iff, not_accesses_iff]
    simp
  · intro form ha
    exact counterpart_eq_half (accesses_iff.mpr ⟨form, ha⟩)
  · intro form ha
    exact counterpart_eq_half (accesses_iff.mpr ⟨form, ha⟩)
  · rw [counterpart_eq_noCounterpart_iff, Opcode.takesAddress_iff]
    simp
  · rw [counterpart_eq_wrongDirection_iff, not_accesses_iff, ← Opcode.takesAddress_iff]
    simp
  · intro opcode
    refine ⟨ofInstruction_ne_noCounterpart x opcode, ?_, ?_, ?_, ?_, ?_⟩
    · intro x?
      cases x? with
      | none => simp [ofOption]
      | some y => exact ofInstruction_ne_noCounterpart y opcode
    · intro d h
      cases (malformed_of_matching?_eq_error h).2
    · intro d start code h
      obtain ⟨_, _, _, he⟩ := malformed_of_searchSite_eq_error h
      cases he
    · intro d code h
      obtain ⟨_, _, _, he⟩ := malformed_of_allSites_eq_error h
      cases he
    · intro position code h
      cases reloaded_of_eq h

/-- A store without a local fails however it is asked for, the load of an address only by itself. -/
theorem AccessPair.outcomes_agree_without_local :
    (counterpart .load ⟨.ldlocaS, some (.index 3)⟩ = .error (.noCounterpart .ldlocaS) ∧
      ∀ d, matching? d ⟨.ldlocaS, some (.index 3)⟩ = .ok none) ∧
    ofInstruction ⟨.stloc, some (.index 3)⟩ = .error (.noLocal .stloc) ∧
      matching? .store ⟨.stloc, some (.index 3)⟩ = .error (.noLocal .stloc) ∧
      counterpart .store ⟨.stloc, some (.index 3)⟩ = .error (.noLocal .stloc) ∧
      counterpart .load ⟨.stloc, some (.index 3)⟩ = .error (.wrongDirection .load .stloc) := by
  obtain ⟨_, ⟨_, _, hpassed⟩, _, ⟨_, hnone, _⟩, _⟩ := outcomes_agree ⟨.ldlocaS, some (.index 3)⟩
  obtain ⟨⟨_, hlocal, _⟩, ⟨_, hmatching, _⟩, ⟨_, hload⟩, ⟨_, _, hother⟩, _⟩ :=
    outcomes_agree ⟨.stloc, some (.index 3)⟩
  have hpair : ofInstruction ⟨.stloc, some (.index 3)⟩ = .error (.noLocal .stloc) :=
    (hlocal .stloc).mpr ⟨rfl, ⟨.store, .general⟩, rfl, rfl, by simp⟩
  refine ⟨⟨hnone.mpr (.inr rfl), hpassed (.inr rfl)⟩, hpair, ?_, ?_, ?_⟩
  · rw [hmatching .store .general rfl, hpair]
    rfl
  · rw [hload .general rfl, hpair]
    rfl
  · exact hother.mpr ⟨by simp [Opcode.valueAccess?], by simp⟩

end MethodBody
