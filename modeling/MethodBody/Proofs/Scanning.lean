import MethodBody.Site
import MethodBody.Proofs.Matching

namespace MethodBody

/-- One pass over code that stands from a position on. The first access with a malformed operand
ends it. -/
def sitesFrom (d : Direction) : Nat → List Instruction → Except Error (List Site)
  | _, [] => .ok []
  | position, x :: code =>
    match AccessPair.matching? d x with
    | .ok (some p) => (sitesFrom d (position + 1) code).map (⟨position, p⟩ :: ·)
    | .ok none => sitesFrom d (position + 1) code
    | .error e => .error e

theorem sitesFrom_of_not_accesses {d : Direction} {x : Instruction} (h : ¬x.Accesses d)
    (position : Nat) (code : List Instruction) :
    sitesFrom d position (x :: code) = sitesFrom d (position + 1) code := by
  simp only [sitesFrom, AccessPair.matching?_of_not_accesses h]

theorem sitesFrom_of_accesses {d : Direction} {x : Instruction} {p : AccessPair}
    (h : x.Accesses d) (hp : AccessPair.ofInstruction x = .ok p) (position : Nat)
    (code : List Instruction) :
    sitesFrom d position (x :: code) =
      (sitesFrom d (position + 1) code).map (⟨position, p⟩ :: ·) := by
  simp only [sitesFrom, AccessPair.matching?_of_accesses h, hp]
  rfl

theorem sitesFrom_of_malformed {d : Direction} {x : Instruction} (h : x.Malformed d)
    (position : Nat) (code : List Instruction) :
    sitesFrom d position (x :: code) = .error (.noLocal x.opcode) := by
  simp only [sitesFrom, AccessPair.matching?_of_accesses h.accesses,
    AccessPair.ofInstruction_of_malformed h]
  rfl

/-- A pass that succeeds either passes over an instruction or finds the pair of its access. -/
theorem sitesFrom_cons_cases {d : Direction} {position : Nat} {x : Instruction}
    {code : List Instruction} {sites : List Site}
    (h : sitesFrom d position (x :: code) = .ok sites) :
    (¬x.Accesses d ∧ sitesFrom d (position + 1) code = .ok sites) ∨
      ∃ p rest, x.Accesses d ∧ AccessPair.ofInstruction x = .ok p ∧
        sitesFrom d (position + 1) code = .ok rest ∧ sites = ⟨position, p⟩ :: rest := by
  rw [sitesFrom] at h
  split at h
  next p hp =>
    obtain ⟨rest, hrest, rfl⟩ := map_eq_ok_iff.mp h
    cases AccessPair.matched_of_eq hp with
    | pair ha hp => exact .inr ⟨p, rest, ha, hp, hrest, rfl⟩
  next hnone =>
    cases AccessPair.matched_of_eq hnone with
    | other ha => exact .inl ⟨ha, h⟩
  next => cases h

theorem le_position_of_sitesFrom {d : Direction} {position : Nat} {code : List Instruction}
    {sites : List Site} (h : sitesFrom d position code = .ok sites) :
    ∀ s ∈ sites, position ≤ s.position := by
  induction code generalizing position sites with
  | nil =>
    cases h
    simp
  | cons x code ih =>
    rcases sitesFrom_cons_cases h with ⟨_, hcode⟩ | ⟨p, rest, _, _, hcode, rfl⟩
    · exact fun s hs => Nat.le_of_succ_le (ih hcode s hs)
    · intro s hs
      rcases List.mem_cons.mp hs with rfl | hs
      · exact Nat.le_refl position
      · exact Nat.le_of_succ_le (ih hcode s hs)

theorem sitesFrom_eq_search (d : Direction) (code : Array Instruction) (start : Nat) :
    sitesFrom d start (code.toList.drop start) =
      match searchSite d code start with
      | .ok (some s) =>
        (sitesFrom d (s.position + 1) (code.toList.drop (s.position + 1))).map (s :: ·)
      | .ok none => .ok []
      | .error e => .error e := by
  fun_induction searchSite d code start with
  | case1 start hs p hp =>
    rw [List.drop_eq_getElem_cons (by simpa using hs), sitesFrom]
    simp [hp]
  | case2 start hs hp ih =>
    rw [List.drop_eq_getElem_cons (by simpa using hs), sitesFrom]
    simpa [hp] using ih
  | case3 start hs e he =>
    rw [List.drop_eq_getElem_cons (by simpa using hs), sitesFrom]
    simp [he]
  | case4 start hs =>
    rw [List.drop_eq_nil_of_le (by simpa using hs)]
    rfl

/-- The loop keeps what it has found and adds what one pass over the rest would find. -/
theorem sitesOnto_eq (d : Direction) (code : Array Instruction) (found : List Site) (start : Nat) :
    sitesOnto d code found start =
      (sitesFrom d start (code.toList.drop start)).map (found.reverse ++ ·) := by
  fun_induction sitesOnto d code found start with
  | case1 found start s hs ih =>
    rw [ih, sitesFrom_eq_search d code start, hs]
    cases h : sitesFrom d (s.position + 1) (code.toList.drop (s.position + 1)) with
    | ok sites => simp [h, Except.map]
    | error e => simp [h, Except.map]
  | case2 found start hs => simp [sitesFrom_eq_search, hs, Except.map]
  | case3 found start e he => simp [sitesFrom_eq_search, he, Except.map]

theorem allSites_eq_sitesFrom (d : Direction) (code : List Instruction) :
    allSites d code = sitesFrom d 0 code := by
  rw [allSites, sitesOnto_eq]
  cases h : sitesFrom d 0 code <;> simp [h, Except.map]

theorem searchSite_eq_of_matching? {d : Direction} {code : Array Instruction} {i : Nat}
    {x : Instruction} (hx : code.toList[i]? = some x) :
    searchSite d code i =
      match AccessPair.matching? d x with
      | .ok (some p) => .ok (some ⟨i, p⟩)
      | .ok none => searchSite d code (i + 1)
      | .error e => .error e := by
  obtain ⟨hi, rfl⟩ := Array.getElem?_eq_some_iff.mp (by simpa using hx : code[i]? = some x)
  rw [searchSite]
  exact dif_pos hi

theorem searchSite_skip {d : Direction} {code : Array Instruction} {start i : Nat} (hi : start ≤ i)
    (h : ∀ j x, start ≤ j → j < i → code.toList[j]? = some x → ¬x.Accesses d) :
    searchSite d code start = searchSite d code i := by
  obtain ⟨n, rfl⟩ := Nat.exists_eq_add_of_le hi
  induction n with
  | zero => rfl
  | succ n ih =>
    rw [ih (by omega) fun j x hs hj => h j x hs (by omega)]
    by_cases hb : start + n < code.toList.length
    · have hx := List.getElem?_eq_getElem hb
      rw [searchSite_eq_of_matching? hx,
        AccessPair.matching?_of_not_accesses (h _ _ (by omega) (by omega) hx)]
      rfl
    · have hb : ¬start + n < code.size := by simpa using hb
      rw [searchSite, dif_neg hb, searchSite, dif_neg (by omega)]

theorem firstSite_eq_none {d : Direction} {code : List Instruction} {start : Nat}
    (h : ∀ i x, start ≤ i → code[i]? = some x → ¬x.Accesses d) :
    firstSite d start code = .ok none := by
  rw [firstSite, searchSite_skip (Nat.le_add_right start code.length)
    fun j x hs _ hx => h j x hs hx, searchSite, dif_neg (by simp)]

theorem firstSite_eq_of_first {d : Direction} {code : List Instruction} {start i : Nat}
    {x : Instruction} (hi : start ≤ i) (hx : code[i]? = some x) (ha : x.Accesses d)
    (h : ∀ j y, start ≤ j → j < i → code[j]? = some y → ¬y.Accesses d) :
    firstSite d start code = (AccessPair.ofInstruction x).map fun p => some ⟨i, p⟩ := by
  rw [firstSite, searchSite_skip hi h, searchSite_eq_of_matching? hx,
    AccessPair.matching?_of_accesses ha]
  cases AccessPair.ofInstruction x <;> rfl

/-- The first malformed access decides the pass, whatever stands around it. -/
theorem sitesFrom_eq_error {d : Direction} {code : List Instruction} {i : Nat} {x : Instruction}
    (position : Nat) (hx : code[i]? = some x) (hm : x.Malformed d)
    (h : ∀ j y, j < i → code[j]? = some y → ¬y.Malformed d) :
    sitesFrom d position code = .error (.noLocal x.opcode) := by
  induction code generalizing position i with
  | nil => simp at hx
  | cons y code ih =>
    cases i with
    | zero =>
      cases Option.some.inj hx
      exact sitesFrom_of_malformed hm position code
    | succ i =>
      have hy : ¬y.Malformed d := h 0 y (by omega) rfl
      have hrest : sitesFrom d (position + 1) code = .error (.noLocal x.opcode) :=
        ih (position + 1) hx fun j z hj hz => h (j + 1) z (by omega) hz
      by_cases ha : y.Accesses d
      · obtain ⟨p, hp⟩ := AccessPair.ofInstruction_exists ha hy
        rw [sitesFrom_of_accesses ha hp, hrest]
        rfl
      · rw [sitesFrom_of_not_accesses ha, hrest]

/-- The sites are the pairs of all accesses of code that stands from a position on, by increasing
position. -/
structure AccessSites (d : Direction) (position : Nat) (code : List Instruction)
    (sites : List Site) : Prop where
  increasing : sites.Pairwise (·.position < ·.position)
  sound : ∀ s ∈ sites, ∃ i x, s.position = position + i ∧ code[i]? = some x ∧ x.Accesses d ∧
    AccessPair.ofInstruction x = .ok s.pair
  complete : ∀ i x, code[i]? = some x → x.Accesses d →
    ∃ p, AccessPair.ofInstruction x = .ok p ∧ ⟨position + i, p⟩ ∈ sites

theorem AccessSites.nil (d : Direction) (position : Nat) : AccessSites d position [] [] :=
  ⟨.nil, by simp, by simp⟩

theorem AccessSites.pass {d : Direction} {position : Nat} {x : Instruction}
    {code : List Instruction} {sites : List Site} (h : AccessSites d (position + 1) code sites)
    (hx : ¬x.Accesses d) : AccessSites d position (x :: code) sites := by
  refine ⟨h.increasing, ?_, ?_⟩
  · intro s hs
    obtain ⟨i, y, hp, hy⟩ := h.sound s hs
    exact ⟨i + 1, y, by omega, hy⟩
  · intro i y hy ha
    cases i with
    | zero =>
      cases Option.some.inj hy
      exact absurd ha hx
    | succ i =>
      obtain ⟨p, hp, hm⟩ := h.complete i y hy ha
      exact ⟨p, hp, by rwa [Nat.add_right_comm, Nat.add_assoc] at hm⟩

theorem AccessSites.add {d : Direction} {position : Nat} {x : Instruction} {p : AccessPair}
    {code : List Instruction} {sites : List Site} (h : AccessSites d (position + 1) code sites)
    (hx : x.Accesses d) (hp : AccessPair.ofInstruction x = .ok p) :
    AccessSites d position (x :: code) (⟨position, p⟩ :: sites) := by
  refine ⟨?_, ?_, ?_⟩
  · refine List.pairwise_cons.mpr ⟨?_, h.increasing⟩
    intro s hs
    obtain ⟨i, y, hi, _⟩ := h.sound s hs
    show position < s.position
    omega
  · intro s hs
    rcases List.mem_cons.mp hs with rfl | hs
    · exact ⟨0, x, rfl, rfl, hx, hp⟩
    · obtain ⟨i, y, hi, hy⟩ := h.sound s hs
      exact ⟨i + 1, y, by omega, hy⟩
  · intro i y hy ha
    cases i with
    | zero =>
      cases Option.some.inj hy
      exact ⟨p, hp, List.mem_cons_self⟩
    | succ i =>
      obtain ⟨q, hq, hm⟩ := h.complete i y hy ha
      refine ⟨q, hq, List.mem_cons_of_mem _ ?_⟩
      rwa [Nat.add_right_comm, Nat.add_assoc] at hm

theorem sitesFrom_exists {d : Direction} {code : List Instruction} (position : Nat)
    (h : ∀ x ∈ code, ¬x.Malformed d) :
    ∃ sites, sitesFrom d position code = .ok sites ∧ AccessSites d position code sites := by
  induction code generalizing position with
  | nil => exact ⟨[], rfl, .nil d position⟩
  | cons x code ih =>
    obtain ⟨sites, hs, hl⟩ := ih (position + 1) fun y hy => h y (List.mem_cons_of_mem x hy)
    by_cases ha : x.Accesses d
    · obtain ⟨p, hp⟩ := AccessPair.ofInstruction_exists ha (h x List.mem_cons_self)
      refine ⟨⟨position, p⟩ :: sites, ?_, hl.add ha hp⟩
      rw [sitesFrom_of_accesses ha hp, hs]
      rfl
    · refine ⟨sites, ?_, hl.pass ha⟩
      rw [sitesFrom_of_not_accesses ha, hs]

theorem allSites_eq_error {d : Direction} {code : List Instruction} {x : Instruction}
    (h : code.find? (fun y => y.Malformed d) = some x) :
    allSites d code = .error (.noLocal x.opcode) := by
  obtain ⟨hm, i, hi, rfl, hfirst⟩ := List.find?_eq_some_iff_getElem.mp h
  rw [allSites_eq_sitesFrom]
  refine sitesFrom_eq_error 0 (List.getElem?_eq_getElem hi) (of_decide_eq_true hm) ?_
  intro j y hj hy
  obtain ⟨_, rfl⟩ := List.getElem?_eq_some_iff.mp hy
  simpa using hfirst j hj

theorem allSites_exists {d : Direction} {code : List Instruction}
    (h : code.find? (fun y => y.Malformed d) = none) :
    ∃ sites, allSites d code = .ok sites ∧ AccessSites d 0 code sites := by
  have hall : ∀ x ∈ code, ¬x.Malformed d := by simpa using List.find?_eq_none.mp h
  obtain ⟨sites, hs, hsites⟩ := sitesFrom_exists 0 hall
  exact ⟨sites, by rw [allSites_eq_sitesFrom, hs], hsites⟩

theorem accessSites_of_allSites {d : Direction} {code : List Instruction} {sites : List Site}
    (h : allSites d code = .ok sites) : AccessSites d 0 code sites := by
  cases hf : code.find? (fun y => y.Malformed d) with
  | none =>
    obtain ⟨found, hfound, hsites⟩ := allSites_exists hf
    cases hfound.symm.trans h
    exact hsites
  | some x => cases (allSites_eq_error hf).symm.trans h

theorem AccessSites.sound_at {d : Direction} {code : List Instruction} {sites : List Site}
    (h : AccessSites d 0 code sites) :
    ∀ s ∈ sites, ∃ x, code[s.position]? = some x ∧ x.Accesses d ∧
      AccessPair.ofInstruction x = .ok s.pair := by
  intro s hs
  obtain ⟨i, x, hi, hx⟩ := h.sound s hs
  rw [Nat.zero_add] at hi
  exact ⟨x, by rwa [hi]⟩

/-- A search sees nothing behind its first access. Repeated, it finds every access once, in order.
-/
theorem firstSite_allSites_onePass (d : Direction) (code : List Instruction) :
    (∀ start, (∀ i x, start ≤ i → code[i]? = some x → ¬x.Accesses d) →
      firstSite d start code = .ok none) ∧
    (∀ start i x, start ≤ i → code[i]? = some x → x.Accesses d →
      (∀ j y, start ≤ j → j < i → code[j]? = some y → ¬y.Accesses d) →
      (x.Malformed d → firstSite d start code = .error (.noLocal x.opcode)) ∧
      (¬x.Malformed d → ∃ p, AccessPair.ofInstruction x = .ok p ∧
        firstSite d start code = .ok (some ⟨i, p⟩))) ∧
    (∀ (i : Nat) (x : Instruction), code[i]? = some x → x.Malformed d →
      (∀ (j : Nat) (y : Instruction), j < i → code[j]? = some y → ¬y.Malformed d) →
      allSites d code = .error (.noLocal x.opcode)) ∧
    ((∀ x ∈ code, ¬x.Malformed d) → ∃ sites, allSites d code = .ok sites ∧
      sites.Pairwise (·.position < ·.position) ∧
      (∀ s ∈ sites, ∃ x, code[s.position]? = some x ∧ x.Accesses d ∧
        AccessPair.ofInstruction x = .ok s.pair) ∧
      (∀ i x, code[i]? = some x → x.Accesses d →
        ∃ p, AccessPair.ofInstruction x = .ok p ∧ ⟨i, p⟩ ∈ sites)) := by
  refine ⟨fun start h => firstSite_eq_none h, ?_, ?_, ?_⟩
  · intro start i x hi hx ha hfirst
    have hs := firstSite_eq_of_first hi hx ha hfirst
    constructor
    · intro hm
      rw [hs, AccessPair.ofInstruction_of_malformed hm]
      rfl
    · intro hm
      obtain ⟨p, hp⟩ := AccessPair.ofInstruction_exists ha hm
      exact ⟨p, hp, by rw [hs, hp]; rfl⟩
  · intro i x hx hm hfirst
    rw [allSites_eq_sitesFrom]
    exact sitesFrom_eq_error 0 hx hm hfirst
  · intro h
    obtain ⟨sites, hs, hl⟩ := sitesFrom_exists 0 h
    refine ⟨sites, by rw [allSites_eq_sitesFrom, hs], hl.increasing, ?_, ?_⟩
    · intro s hs
      obtain ⟨i, x, hi, hx⟩ := hl.sound s hs
      exact ⟨x, by simpa [hi] using hx⟩
    · intro i x hx ha
      simpa using hl.complete i x hx ha

/-- A store right behind another is found, and a malformed one behind both spoils the whole. -/
theorem firstSite_allSites_adjacent :
    firstSite .store 1 [⟨.stloc0, none⟩, ⟨.stloc1, none⟩, ⟨.stloc, none⟩] =
        .ok (some ⟨1, ⟨⟨.ldloc1, none⟩, ⟨.stloc1, none⟩, .store⟩⟩) ∧
      allSites .store [⟨.stloc0, none⟩, ⟨.stloc1, none⟩, ⟨.stloc, none⟩] =
        .error (.noLocal .stloc) := by
  obtain ⟨_, hfirst, herror, _⟩ :=
    firstSite_allSites_onePass .store [⟨.stloc0, none⟩, ⟨.stloc1, none⟩, ⟨.stloc, none⟩]
  constructor
  · obtain ⟨p, hp, hs⟩ :=
      (hfirst 1 1 ⟨.stloc1, none⟩ Nat.le.refl rfl (by decide) (by omega)).2 (by decide)
    cases hp
    exact hs
  · refine herror 2 ⟨.stloc, none⟩ rfl (by decide) ?_
    intro j y hj hy
    rcases (show j = 0 ∨ j = 1 by omega) with rfl | rfl <;> cases hy <;> decide

end MethodBody
