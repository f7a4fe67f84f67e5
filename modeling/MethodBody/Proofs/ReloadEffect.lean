import MethodBody.Proofs.ReloadOrder
import Mathlib.Data.List.Sort

namespace MethodBody

/-- A reload as a program on the code in place. -/
def reloadInPlace (position : Nat) : ExceptT Error (StateM (List Instruction)) Unit := do
  let code ← get
  match code[position]? with
  | none => throw .noInstruction
  | some x =>
    match ← MonadExcept.ofExcept (AccessPair.matching? .store x) with
    | none => throw (.wrongDirection .store x.opcode)
    | some p => set (code.insertIdx (position + 1) p.complement)

/-- The code is only written once nothing can fail any more. -/
theorem run_reloadInPlace (position : Nat) (code : List Instruction) :
    (reloadInPlace position).run.run code =
      match reloadAfter position code with
      | .ok code' => (.ok (), code')
      | .error e => (.error e, code) := by
  have hget (f : List Instruction → ExceptT Error (StateM (List Instruction)) Unit) :
      (get >>= f).run.run code = (f code).run.run code := rfl
  rw [reloadInPlace, hget, reloadAfter]
  cases code[position]? with
  | none => rfl
  | some x =>
    cases h : AccessPair.matching? .store x with
    | error e => simp only [h]; rfl
    | ok p? => cases p? <;> simp only [h] <;> rfl

theorem reloadAfter_of_le {position : Nat} {code : List Instruction}
    (h : code.length ≤ position) : reloadAfter position code = .error .noInstruction := by
  simp only [reloadAfter, List.getElem?_eq_none h]

theorem reloadAfter_of_malformed {position : Nat} {code : List Instruction} {x : Instruction}
    (hx : code[position]? = some x) (h : x.Malformed .store) :
    reloadAfter position code = .error (.noLocal x.opcode) := by
  simp only [reloadAfter, hx, AccessPair.matching?_of_accesses h.accesses,
    AccessPair.ofInstruction_of_malformed h]
  rfl

theorem reloadAfter_of_not_accesses {position : Nat} {code : List Instruction} {x : Instruction}
    (hx : code[position]? = some x) (h : ¬x.Accesses .store) :
    reloadAfter position code = .error (.wrongDirection .store x.opcode) := by
  simp only [reloadAfter, hx, AccessPair.matching?_of_not_accesses h]
  rfl

theorem reloadAfter_of_counterpart {position : Nat} {code : List Instruction} {x y : Instruction}
    {form : SlotForm} (hx : code[position]? = some x)
    (h : x.IsCounterpart ⟨.store, form⟩ y) :
    reloadAfter position code =
      .ok (code.take (position + 1) ++ y :: code.drop (position + 1)) := by
  obtain ⟨before, behind, rfl, rfl⟩ := exists_append_of_getElem? hx
  have ha : x.Accesses .store := Instruction.accesses_iff.mpr ⟨form, h.access⟩
  have hp := AccessPair.ofInstruction_eq_ok_iff.mpr ⟨_, y, h, rfl⟩
  rw [reloadAfter_append ha hp, Instruction.withReload_of_store ha hp]
  simp [AccessPair.ofHalves, List.take_length_add_append, List.drop_length_add_append]

/-- What comes of a reload: no instruction, a malformed store, no store, or a load behind the store.
-/
inductive Reloaded (position : Nat) (code : List Instruction) :
    Except Error (List Instruction) → Prop where
  | outside (h : code.length ≤ position) : Reloaded position code (.error .noInstruction)
  | malformed {x : Instruction} (hx : code[position]? = some x) (h : x.Malformed .store) :
    Reloaded position code (.error (.noLocal x.opcode))
  | other {x : Instruction} (hx : code[position]? = some x) (h : ¬x.Accesses .store) :
    Reloaded position code (.error (.wrongDirection .store x.opcode))
  | inserted {x y : Instruction} {form : SlotForm} (hx : code[position]? = some x)
    (h : x.IsCounterpart ⟨.store, form⟩ y) :
    Reloaded position code (.ok (code.take (position + 1) ++ y :: code.drop (position + 1)))

theorem reloaded_of_eq {position : Nat} {code : List Instruction}
    {result : Except Error (List Instruction)} (h : reloadAfter position code = result) :
    Reloaded position code result := by
  subst h
  cases hx : code[position]? with
  | none =>
    have h : code.length ≤ position := List.getElem?_eq_none_iff.mp hx
    rw [reloadAfter_of_le h]
    exact .outside h
  | some x =>
    by_cases ha : x.Accesses .store
    · by_cases hm : x.Malformed .store
      · rw [reloadAfter_of_malformed hx hm]
        exact .malformed hx hm
      · obtain ⟨form, haccess⟩ := Instruction.accesses_iff.mp ha
        obtain ⟨y, h⟩ := Instruction.exists_isCounterpart haccess hm
        rw [reloadAfter_of_counterpart hx h]
        exact .inserted hx h
    · rw [reloadAfter_of_not_accesses hx ha]
      exact .other hx ha

/-- A site once there is one more instruction at an index. -/
def Site.movedFrom (i : Nat) (s : Site) : Site :=
  if i ≤ s.position then { s with position := s.position + 1 } else s

/-- The sites of code once there is one more instruction at an index, which may be an access. -/
def sitesWith (i : Nat) (p? : Option AccessPair) (sites : List Site) : List Site :=
  match p? with
  | some p => (sites.map (Site.movedFrom i)).orderedInsert (·.position ≤ ·.position) ⟨i, p⟩
  | none => sites.map (Site.movedFrom i)

theorem sitesWith_of_le {i : Nat} {sites : List Site} (h : ∀ s ∈ sites, i ≤ s.position)
    (p? : Option AccessPair) :
    sitesWith i p? sites = p?.toList.map (⟨i, ·⟩) ++ sites.map (Site.movedFrom i) := by
  cases p? with
  | none => rfl
  | some p =>
    cases sites with
    | nil => rfl
    | cons s sites =>
      have hs : i ≤ s.position := h s List.mem_cons_self
      have hle : i ≤ (s.movedFrom i).position := by
        rw [Site.movedFrom, if_pos hs]
        exact Nat.le_succ_of_le hs
      simp [sitesWith, List.orderedInsert_cons, hle]

theorem sitesWith_cons_of_lt {i : Nat} {s : Site} (h : s.position < i) (p? : Option AccessPair)
    (sites : List Site) : sitesWith i p? (s :: sites) = s :: sitesWith i p? sites := by
  have hs : s.movedFrom i = s := if_neg (Nat.not_le_of_lt h)
  cases p? with
  | none => simp [sitesWith, hs]
  | some p => simp [sitesWith, hs, List.orderedInsert_cons, Nat.not_le_of_lt h]

/-- A pass over code that stands one further finds the same. -/
theorem sitesFrom_succ (d : Direction) {i position : Nat} (hi : i ≤ position)
    (code : List Instruction) :
    sitesFrom d (position + 1) code =
      (sitesFrom d position code).map (List.map (Site.movedFrom i)) := by
  induction code generalizing position with
  | nil => rfl
  | cons x code ih =>
    have hrest := ih (Nat.le_succ_of_le hi)
    simp only [sitesFrom, hrest]
    cases AccessPair.matching? d x with
    | error e => rfl
    | ok p? =>
      cases p? with
      | none => rfl
      | some p =>
        have hfirst : Site.movedFrom i ⟨position, p⟩ = ⟨position + 1, p⟩ := if_pos hi
        cases sitesFrom d (position + 1) code <;> simp [Except.map, hfirst]

/-- One more instruction moves the sites behind it and may add its own. -/
theorem sitesFrom_insert {d : Direction} {r : Instruction} {p? : Option AccessPair}
    (hr : AccessPair.matching? d r = .ok p?) (position : Nat) (before behind : List Instruction) :
    sitesFrom d position (before ++ r :: behind) =
      (sitesFrom d position (before ++ behind)).map (sitesWith (position + before.length) p?) := by
  induction before generalizing position with
  | nil =>
    have hrest := sitesFrom_succ d (Nat.le_refl position) behind
    simp only [List.nil_append, sitesFrom, hr, hrest, List.length_nil, Nat.add_zero]
    cases h : sitesFrom d position behind with
    | error e => cases p? <;> rfl
    | ok sites =>
      have hsites := sitesWith_of_le (le_position_of_sitesFrom h) p?
      cases p? <;> simp [Except.map, hsites]
  | cons x before ih =>
    have hlength : position + (x :: before).length = position + 1 + before.length := by
      simp only [List.length_cons]
      omega
    simp only [List.cons_append, sitesFrom, ih, hlength]
    cases AccessPair.matching? d x with
    | error e => rfl
    | ok q? =>
      cases q? with
      | none => rfl
      | some q =>
        have hlt : (Site.mk position q).position < position + 1 + before.length := by
          show position < position + 1 + before.length
          omega
        cases sitesFrom d (position + 1) (before ++ behind) with
        | error e => rfl
        | ok sites => simp [Except.map, sitesWith_cons_of_lt hlt]

theorem allSites_insert {d : Direction} {r : Instruction} {p? : Option AccessPair}
    (hr : AccessPair.matching? d r = .ok p?) {i : Nat} {code : List Instruction}
    (hi : i ≤ code.length) :
    allSites d (code.take i ++ r :: code.drop i) = (allSites d code).map (sitesWith i p?) := by
  rw [allSites_eq_sitesFrom, allSites_eq_sitesFrom, sitesFrom_insert hr, List.take_append_drop,
    Nat.zero_add, List.length_take_of_le hi]

theorem reloadAfter_eq_noInstruction_iff {position : Nat} {code : List Instruction} :
    reloadAfter position code = .error .noInstruction ↔ code.length ≤ position := by
  constructor
  · intro h
    cases reloaded_of_eq h
    assumption
  · exact reloadAfter_of_le

theorem reloadAfter_eq_noLocal_iff {position : Nat} {code : List Instruction} {opcode : Opcode} :
    reloadAfter position code = .error (.noLocal opcode) ↔
      ∃ x, code[position]? = some x ∧ x.opcode = opcode ∧ x.Malformed .store := by
  constructor
  · intro h
    cases reloaded_of_eq h with
    | malformed hx hm => exact ⟨_, hx, rfl, hm⟩
  · rintro ⟨x, hx, rfl, hm⟩
    exact reloadAfter_of_malformed hx hm

theorem reloadAfter_eq_wrongDirection_iff {position : Nat} {code : List Instruction}
    {opcode : Opcode} :
    reloadAfter position code = .error (.wrongDirection .store opcode) ↔
      ∃ x, code[position]? = some x ∧ x.opcode = opcode ∧ ¬x.Accesses .store := by
  constructor
  · intro h
    cases reloaded_of_eq h with
    | other hx ha => exact ⟨_, hx, rfl, ha⟩
  · rintro ⟨x, hx, rfl, ha⟩
    exact reloadAfter_of_not_accesses hx ha

theorem reloadAfter_eq_ok_iff {position : Nat} {code code' : List Instruction} :
    reloadAfter position code = .ok code' ↔
      ∃ x y form, code[position]? = some x ∧ x.IsCounterpart ⟨.store, form⟩ y ∧
        code' = code.take (position + 1) ++ y :: code.drop (position + 1) := by
  constructor
  · intro h
    cases reloaded_of_eq h with
    | inserted hx hc => exact ⟨_, _, _, hx, hc, rfl⟩
  · rintro ⟨x, y, form, hx, hc, rfl⟩
    exact reloadAfter_of_counterpart hx hc

/-- The load of a reload is no store, and makes a site with the opcode of the store. -/
theorem allSites_reload {position : Nat} {code : List Instruction} {x y : Instruction}
    {form : SlotForm} (hx : code[position]? = some x) (h : x.IsCounterpart ⟨.store, form⟩ y) :
    allSites .store (code.take (position + 1) ++ y :: code.drop (position + 1)) =
        (allSites .store code).map (sitesWith (position + 1) none) ∧
      allSites .load (code.take (position + 1) ++ y :: code.drop (position + 1)) =
        (allSites .load code).map
          (sitesWith (position + 1) (some ⟨y, ⟨x.opcode, y.operand⟩, .load⟩)) := by
  have hi : position + 1 ≤ code.length := (List.getElem?_eq_some_iff.mp hx).1
  have hload : y.Accesses .load := Instruction.accesses_iff.mpr ⟨form, h.access_counterpart⟩
  have hstore : ¬y.Accesses .store := fun ha => nomatch ha.direction_eq hload
  have hpair : AccessPair.ofInstruction y = .ok ⟨y, ⟨x.opcode, y.operand⟩, .load⟩ :=
    AccessPair.ofInstruction_eq_ok_iff.mpr ⟨_, _, h.back, rfl⟩
  refine ⟨allSites_insert (AccessPair.matching?_of_not_accesses hstore) hi, allSites_insert ?_ hi⟩
  rw [AccessPair.matching?_of_accesses hload, hpair]
  rfl

/-- A reload fails without effect or puts one load behind its store, which the next scan finds. -/
theorem reloadAfter_effect (position : Nat) (code : List Instruction) :
    ((reloadInPlace position).run.run code =
      match reloadAfter position code with
      | .ok code' => (.ok (), code')
      | .error e => (.error e, code)) ∧
    ((∃ code', reloadAfter position code = .ok code') ↔
      ∃ x form, code[position]? = some x ∧ x.opcode.valueAccess? = some ⟨.store, form⟩ ∧
        (form.hasOperand = false ∨ ∃ l, x.operand = some (.declared l))) ∧
    (reloadAfter position code = .error .noInstruction ↔ code.length ≤ position) ∧
    (∀ opcode, reloadAfter position code = .error (.noLocal opcode) ↔
      ∃ x form, code[position]? = some x ∧ x.opcode = opcode ∧
        opcode.valueAccess? = some ⟨.store, form⟩ ∧ form.hasOperand = true ∧
        ∀ l, x.operand ≠ some (.declared l)) ∧
    (∀ opcode, reloadAfter position code = .error (.wrongDirection .store opcode) ↔
      ∃ x, code[position]? = some x ∧ x.opcode = opcode ∧
        ∀ form, opcode.valueAccess? ≠ some ⟨.store, form⟩) ∧
    (∀ x, code[position]? = some x → x.opcode.takesAddress = true →
      reloadAfter position code = .error (.wrongDirection .store x.opcode)) ∧
    (∀ e, reloadAfter position code = .error e → e = .noInstruction ∨
      ∃ opcode, e = .noLocal opcode ∨ e = .wrongDirection .store opcode) ∧
    (∀ code', reloadAfter position code = .ok code' → ∃ x r form,
      code[position]? = some x ∧ x.opcode.valueAccess? = some ⟨.store, form⟩ ∧
      code' = code.take (position + 1) ++ r :: code.drop (position + 1) ∧
      r.opcode.valueAccess? = some ⟨.load, form⟩ ∧
      (∃ s t, r.slot? = some s ∧ x.slot? = some t ∧ s.same t = true) ∧
      (form.hasOperand = false → r.operand = none) ∧
      (form.hasOperand = true →
        ∃ l, x.operand = some (.declared l) ∧ r.operand = some (.declared l)) ∧
      allSites .store code' =
        (allSites .store code).map (List.map (Site.movedFrom (position + 1))) ∧
      allSites .load code' = (allSites .load code).map fun sites =>
        (sites.map (Site.movedFrom (position + 1))).orderedInsert (·.position ≤ ·.position)
          ⟨position + 1, ⟨r, ⟨x.opcode, r.operand⟩, .load⟩⟩) := by
  refine ⟨run_reloadInPlace position code, ?_, reloadAfter_eq_noInstruction_iff, ?_, ?_, ?_, ?_, ?_⟩
  · simp only [reloadAfter_eq_ok_iff]
    constructor
    · rintro ⟨_, x, y, form, hx, h, _⟩
      exact ⟨x, form, hx, Instruction.exists_isCounterpart_iff.mp ⟨y, h⟩⟩
    · rintro ⟨x, form, hx, h⟩
      obtain ⟨y, hy⟩ := Instruction.exists_isCounterpart_iff.mpr h
      exact ⟨_, x, y, form, hx, hy, rfl⟩
  · intro opcode
    rw [reloadAfter_eq_noLocal_iff]
    constructor
    · rintro ⟨x, hx, rfl, hm⟩
      obtain ⟨form, h⟩ := Instruction.malformed_iff_forall.mp hm
      exact ⟨x, form, hx, rfl, h⟩
    · rintro ⟨x, form, hx, rfl, h⟩
      exact ⟨x, hx, rfl, Instruction.malformed_iff_forall.mpr ⟨form, h⟩⟩
  · intro opcode
    rw [reloadAfter_eq_wrongDirection_iff]
    refine exists_congr fun x => and_congr_right fun _ => and_congr_right ?_
    rintro rfl
    rw [Instruction.accesses_iff, not_exists]
  · intro x hx haddress
    refine reloadAfter_of_not_accesses hx fun ha => ?_
    obtain ⟨form, ha⟩ := Instruction.accesses_iff.mp ha
    cases (Opcode.takesAddress_eq_false ha).symm.trans haddress
  · intro e he
    cases reloaded_of_eq he with
    | outside => exact .inl rfl
    | malformed => exact .inr ⟨_, .inl rfl⟩
    | other => exact .inr ⟨_, .inr rfl⟩
  · intro code' hcode
    obtain ⟨x, y, form, hx, h, rfl⟩ := reloadAfter_eq_ok_iff.mp hcode
    obtain ⟨s, hxs, hys⟩ := h.exists_slot
    have hsites := allSites_reload hx h
    exact ⟨x, y, form, hx, h.access, rfl, h.access_counterpart, ⟨s, s, hys, hxs, s.same_self⟩,
      h.dropped, h.named, hsites.1, hsites.2⟩

/-- The new load is found between the others. The load of an address is no store. -/
theorem reloadAfter_effect_between_loads :
    ((reloadInPlace 1).run.run [⟨.ldloc0, none⟩, ⟨.stloc2, some (.index 9)⟩, ⟨.ldloca, none⟩,
        ⟨.ldloc3, none⟩] =
      (.ok (), [⟨.ldloc0, none⟩, ⟨.stloc2, some (.index 9)⟩, ⟨.ldloc2, none⟩, ⟨.ldloca, none⟩,
        ⟨.ldloc3, none⟩])) ∧
    ((reloadInPlace 2).run.run [⟨.ldloc0, none⟩, ⟨.stloc2, some (.index 9)⟩, ⟨.ldloca, none⟩,
        ⟨.ldloc3, none⟩] =
      (.error (.wrongDirection .store .ldloca), [⟨.ldloc0, none⟩, ⟨.stloc2, some (.index 9)⟩,
        ⟨.ldloca, none⟩, ⟨.ldloc3, none⟩])) ∧
    allSites .load [⟨.ldloc0, none⟩, ⟨.stloc2, some (.index 9)⟩, ⟨.ldloc2, none⟩, ⟨.ldloca, none⟩,
        ⟨.ldloc3, none⟩] =
      .ok [⟨0, ⟨⟨.ldloc0, none⟩, ⟨.stloc0, none⟩, .load⟩⟩,
        ⟨2, ⟨⟨.ldloc2, none⟩, ⟨.stloc2, none⟩, .load⟩⟩,
        ⟨4, ⟨⟨.ldloc3, none⟩, ⟨.stloc3, none⟩, .load⟩⟩] := by
  obtain ⟨hrun, _, _, _, _, _, _, hreload⟩ := reloadAfter_effect 1
    [⟨.ldloc0, none⟩, ⟨.stloc2, some (.index 9)⟩, ⟨.ldloca, none⟩, ⟨.ldloc3, none⟩]
  obtain ⟨hfail, _, _, _, _, haddress, _⟩ := reloadAfter_effect 2
    [⟨.ldloc0, none⟩, ⟨.stloc2, some (.index 9)⟩, ⟨.ldloca, none⟩, ⟨.ldloc3, none⟩]
  have hloads : allSites .load
      [⟨.ldloc0, none⟩, ⟨.stloc2, some (.index 9)⟩, ⟨.ldloca, none⟩, ⟨.ldloc3, none⟩] =
      .ok [⟨0, ⟨⟨.ldloc0, none⟩, ⟨.stloc0, none⟩, .load⟩⟩,
        ⟨3, ⟨⟨.ldloc3, none⟩, ⟨.stloc3, none⟩, .load⟩⟩] := by
    rw [allSites_eq_sitesFrom]
    rfl
  refine ⟨hrun, ?_, ?_⟩
  · rw [hfail, haddress ⟨.ldloca, none⟩ rfl rfl]
  · obtain ⟨x, r, form, hx, _, hcode, _, _, _, _, _, hsites⟩ := hreload _ rfl
    cases hx
    cases hcode
    rw [hloads] at hsites
    exact hsites

end MethodBody
