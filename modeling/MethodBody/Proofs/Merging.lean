import MethodBody.Report
import MethodBody.Proofs.Scanning
import Mathlib.Data.List.Sort

namespace MethodBody

/-- Every position with a value access and what comes of it, by a single pass. -/
def accessesInOrder (code : List Instruction) : List (Nat × Except Error AccessPair) :=
  (code.zipIdx.filter fun (x, _) => x.opcode.valueAccess?.isSome).map fun (x, i) =>
    (i, AccessPair.ofInstruction x)

theorem mem_accessesInOrder {code : List Instruction} {i : Nat} {e : Except Error AccessPair} :
    (i, e) ∈ accessesInOrder code ↔
      ∃ x, code[i]? = some x ∧ x.opcode.valueAccess?.isSome = true ∧
        AccessPair.ofInstruction x = e := by
  simp only [accessesInOrder, List.mem_map, List.mem_filter, Prod.exists, Prod.mk.injEq,
    List.mem_zipIdx_iff_getElem?]
  constructor
  · rintro ⟨x, j, ⟨hx, ha⟩, rfl, he⟩
    exact ⟨x, hx, ha, he⟩
  · rintro ⟨x, hx, ha, he⟩
    exact ⟨x, i, ⟨hx, ha⟩, rfl, he⟩

theorem accessesInOrder_increasing (code : List Instruction) :
    (accessesInOrder code).Pairwise (·.1 < ·.1) := by
  exact List.pairwise_map.mpr ((zipIdx_increasing code 0).sublist List.filter_sublist)

namespace Instruction

theorem isSome_valueAccess?_iff {x : Instruction} :
    x.opcode.valueAccess?.isSome = true ↔ ∃ d, x.Accesses d := by
  constructor
  · intro h
    obtain ⟨⟨d, form⟩, ha⟩ := Option.isSome_iff_exists.mp h
    exact ⟨d, accesses_iff.mpr ⟨form, ha⟩⟩
  · rintro ⟨d, h⟩
    obtain ⟨form, ha⟩ := accesses_iff.mp h
    rw [ha]
    rfl

/-- An access is well formed in both directions if its operand form names a declared local. -/
theorem forall_not_malformed_iff {x : Instruction} :
    (∀ d, ¬x.Malformed d) ↔
      ∀ a, x.opcode.valueAccess? = some a → a.form.hasOperand = true →
        ∃ l, x.operand = some (.declared l) := by
  constructor
  · intro h a ha hf
    cases hl : x.local? with
    | none => exact absurd (malformed_iff.mpr ⟨a.form, ha, hf, hl⟩) (h a.direction)
    | some l => exact ⟨l, local?_eq_some_iff.mp hl⟩
  · intro h d hm
    obtain ⟨form, ha, hf, hl⟩ := malformed_iff.mp hm
    obtain ⟨l, ho⟩ := h _ ha hf
    rw [local?_eq_some_iff.mpr ho] at hl
    cases hl

end Instruction

def merged (stores loads : List Site) : List Site :=
  (stores ++ loads).mergeSort fun a b => a.position ≤ b.position

/-- Loads and stores stand at different positions, so the order by position is strict. -/
theorem merged_increasing {code : List Instruction} {stores loads : List Site}
    (hs : AccessSites .store 0 code stores) (hl : AccessSites .load 0 code loads) :
    (merged stores loads).Pairwise (·.position < ·.position) := by
  have hsorted : (merged stores loads).Pairwise (·.position ≤ ·.position) := by
    have h : (merged stores loads).Pairwise fun a b => decide (a.position ≤ b.position) = true :=
      List.pairwise_mergeSort (by simp; omega) (by simp; omega) (stores ++ loads)
    simpa using h
  have hdistinct : (stores ++ loads).Pairwise (·.position ≠ ·.position) := by
    refine List.pairwise_append.mpr ⟨?_, ?_, ?_⟩
    · exact hs.increasing.imp Nat.ne_of_lt
    · exact hl.increasing.imp Nat.ne_of_lt
    · intro s hsm t htm he
      obtain ⟨i, x, hi, hx, hxs, _⟩ := hs.sound s hsm
      obtain ⟨j, y, hj, hy, hyl, _⟩ := hl.sound t htm
      obtain rfl : i = j := by omega
      cases hx.symm.trans hy
      cases hxs.direction_eq hyl
  have hmerged : (merged stores loads).Pairwise (·.position ≠ ·.position) :=
    (List.mergeSort_perm (stores ++ loads) _).symm.pairwise hdistinct Ne.symm
  exact hsorted.imp₂ (fun _ _ hle hne => Nat.lt_of_le_of_ne hle hne) hmerged

theorem mem_merged_iff {stores loads : List Site} {s : Site} :
    s ∈ merged stores loads ↔ s ∈ stores ∨ s ∈ loads := by
  rw [merged, List.mem_mergeSort, List.mem_append]

theorem merged_sound {code : List Instruction} {stores loads : List Site}
    (hs : AccessSites .store 0 code stores) (hl : AccessSites .load 0 code loads) :
    ∀ s ∈ merged stores loads, ∃ d x, code[s.position]? = some x ∧ x.Accesses d ∧
      AccessPair.ofInstruction x = .ok s.pair := by
  intro s hm
  rcases mem_merged_iff.mp hm with hm | hm
  · exact ⟨.store, hs.sound_at s hm⟩
  · exact ⟨.load, hl.sound_at s hm⟩

/-- The merged sites are those of one pass in both directions, none left out and none twice. -/
theorem map_merged_eq {code : List Instruction} {stores loads : List Site}
    (hs : AccessSites .store 0 code stores) (hl : AccessSites .load 0 code loads) :
    ((merged stores loads).map fun s => (s.position, Except.ok s.pair)) = accessesInOrder code := by
  have hirrefl : Std.Irrefl fun a b : Nat × Except Error AccessPair => a.1 < b.1 :=
    ⟨fun a => Nat.lt_irrefl a.1⟩
  have hantisymm : Std.Antisymm fun a b : Nat × Except Error AccessPair => a.1 < b.1 :=
    ⟨fun a b hab hba => absurd hab (Nat.lt_asymm hba)⟩
  have hincreasing : ((merged stores loads).map fun s =>
      (s.position, (Except.ok s.pair : Except Error AccessPair))).Pairwise (·.1 < ·.1) :=
    List.pairwise_map.mpr (merged_increasing hs hl)
  have hsites : ∀ d, ∃ sites, AccessSites d 0 code sites ∧ sites ⊆ merged stores loads := by
    intro d
    cases d with
    | load => exact ⟨loads, hl, fun s hm => mem_merged_iff.mpr (.inr hm)⟩
    | store => exact ⟨stores, hs, fun s hm => mem_merged_iff.mpr (.inl hm)⟩
  -- Both lists increase strictly, so they are equal once they have the same members.
  refine hincreasing.eq_of_mem_iff (accessesInOrder_increasing code) ?_
  rintro ⟨i, e⟩
  rw [mem_accessesInOrder, List.mem_map]
  constructor
  · rintro ⟨s, hm, he⟩
    obtain ⟨d, x, hx, ha, hp⟩ := merged_sound hs hl s hm
    cases he
    exact ⟨x, hx, Instruction.isSome_valueAccess?_iff.mpr ⟨d, ha⟩, hp⟩
  · rintro ⟨x, hx, ha, rfl⟩
    obtain ⟨d, ha⟩ := Instruction.isSome_valueAccess?_iff.mp ha
    obtain ⟨sites, haccess, hsub⟩ := hsites d
    obtain ⟨p, hp, hm⟩ := haccess.complete i x hx ha
    rw [Nat.zero_add] at hm
    exact ⟨⟨i, p⟩, hsub hm, by rw [hp]⟩

theorem forall_find?_malformed_iff {code : List Instruction} :
    (∀ d, code.find? (fun y => y.Malformed d) = none) ↔
      ∀ x ∈ code, ∀ a, x.opcode.valueAccess? = some a → a.form.hasOperand = true →
        ∃ l, x.operand = some (.declared l) := by
  have hfind : (∀ d, code.find? (fun y => y.Malformed d) = none) ↔
      ∀ x ∈ code, ∀ d, ¬x.Malformed d := by
    simp only [List.find?_eq_none, decide_eq_true_eq]
    exact ⟨fun h x hx d => h d x hx, fun h d x hx => h x hx d⟩
  rw [hfind]
  exact forall₂_congr fun x _ => Instruction.forall_not_malformed_iff

theorem sitesOf_any_exists {code : List Instruction}
    (h : ∀ d, code.find? (fun y => y.Malformed d) = none) :
    ∃ stores loads, sitesOf none code = .ok (merged stores loads) ∧
      AccessSites .store 0 code stores ∧ AccessSites .load 0 code loads := by
  obtain ⟨stores, hs, hstores⟩ := allSites_exists (h .store)
  obtain ⟨loads, hl, hloads⟩ := allSites_exists (h .load)
  refine ⟨stores, loads, ?_, hstores, hloads⟩
  simp only [sitesOf, hs, hl]
  rfl

theorem sitesOf_any_eq_store_error {code : List Instruction} {x : Instruction}
    (h : code.find? (fun y => y.Malformed .store) = some x) :
    sitesOf none code = .error (.scan .store (.noLocal x.opcode)) := by
  simp only [sitesOf, allSites_eq_error h]
  rfl

theorem sitesOf_any_eq_load_error {code : List Instruction} {x : Instruction}
    (hs : code.find? (fun y => y.Malformed .store) = none)
    (hl : code.find? (fun y => y.Malformed .load) = some x) :
    sitesOf none code = .error (.scan .load (.noLocal x.opcode)) := by
  obtain ⟨stores, hstores, _⟩ := allSites_exists hs
  simp only [sitesOf, hstores, allSites_eq_error hl]
  rfl

theorem find?_malformed_of_sitesOf_any {code : List Instruction} {sites : List Site}
    (h : sitesOf none code = .ok sites) (d : Direction) :
    code.find? (fun y => y.Malformed d) = none := by
  cases hs : code.find? (fun y => y.Malformed .store) with
  | some x => cases h.symm.trans (sitesOf_any_eq_store_error hs)
  | none =>
    cases hl : code.find? (fun y => y.Malformed .load) with
    | some x => cases h.symm.trans (sitesOf_any_eq_load_error hs hl)
    | none =>
      cases d with
      | load => exact hl
      | store => exact hs

theorem sort_eq_self {sites : List Site} (h : sites.Pairwise (·.position < ·.position)) :
    (sites.mergeSort fun a b => a.position ≤ b.position) = sites :=
  List.mergeSort_of_pairwise (h.imp fun hlt => decide_eq_true (Nat.le_of_lt hlt))

/-- The sites in one direction are in order already. -/
theorem sitesOf_some (d : Direction) (code : List Instruction) :
    sitesOf (some d) code = (allSites d code).mapError (.scan d) := by
  cases h : allSites d code with
  | error e => cases d <;> simp only [sitesOf, h] <;> rfl
  | ok sites =>
    have hsort := sort_eq_self (accessSites_of_allSites h).increasing
    cases d with
    | load =>
      simp only [sitesOf, h]
      exact congrArg Except.ok hsort
    | store =>
      rw [← List.append_nil sites] at hsort
      simp only [sitesOf, h]
      exact congrArg Except.ok (hsort.trans (List.append_nil sites))

/-- Whatever directions are wanted, the sites are pairs of instructions of the code. -/
theorem ofInstruction_of_mem_sitesOf {wanted : Option Direction} {code : List Instruction}
    {sites : List Site} (h : sitesOf wanted code = .ok sites) :
    ∀ s ∈ sites, ∃ x, code[s.position]? = some x ∧ AccessPair.ofInstruction x = .ok s.pair := by
  intro s hs
  cases wanted with
  | none =>
    obtain ⟨stores, loads, hsites, hstores, hloads⟩ :=
      sitesOf_any_exists (find?_malformed_of_sitesOf_any h)
    obtain rfl : sites = merged stores loads := Except.ok.inj (h.symm.trans hsites)
    obtain ⟨_, x, hx, _, hp⟩ := merged_sound hstores hloads s hs
    exact ⟨x, hx, hp⟩
  | some d =>
    rw [sitesOf_some, mapError_eq_ok_iff] at h
    obtain ⟨x, hx, _, hp⟩ := (accessSites_of_allSites h).sound_at s hs
    exact ⟨x, hx, hp⟩

/-- A scan in both directions lists what one pass would, or reports a malformed store before any
load. -/
theorem sitesOf_any (code : List Instruction) :
    ((∃ sites, sitesOf none code = .ok sites) ↔
      ∀ x ∈ code, ∀ a, x.opcode.valueAccess? = some a → a.form.hasOperand = true →
        ∃ l, x.operand = some (.declared l)) ∧
    (∀ sites, sitesOf none code = .ok sites →
      (sites.map fun s => (s.position, Except.ok s.pair)) = accessesInOrder code ∧
        sites.Pairwise (·.position < ·.position)) ∧
    (∀ x, code.find? (fun y => y.Malformed .store) = some x →
      sitesOf none code = .error (.scan .store (.noLocal x.opcode))) ∧
    (∀ x, code.find? (fun y => y.Malformed .store) = none →
      code.find? (fun y => y.Malformed .load) = some x →
        sitesOf none code = .error (.scan .load (.noLocal x.opcode))) := by
  refine ⟨⟨?_, ?_⟩, ?_, fun x => sitesOf_any_eq_store_error, fun x => sitesOf_any_eq_load_error⟩
  · rintro ⟨sites, h⟩
    exact forall_find?_malformed_iff.mp (find?_malformed_of_sitesOf_any h)
  · intro h
    obtain ⟨stores, loads, hsites, _⟩ := sitesOf_any_exists (forall_find?_malformed_iff.mpr h)
    exact ⟨_, hsites⟩
  · intro sites h
    obtain ⟨stores, loads, hsites, hs, hl⟩ :=
      sitesOf_any_exists (find?_malformed_of_sitesOf_any h)
    obtain rfl : sites = merged stores loads := Except.ok.inj (h.symm.trans hsites)
    exact ⟨map_merged_eq hs hl, merged_increasing hs hl⟩

/-- A malformed store is reported even behind a malformed load. -/
theorem sitesOf_any_late_store :
    sitesOf none [⟨.ldloc, none⟩, ⟨.stloc0, none⟩, ⟨.stlocS, some (.index 4)⟩] =
      .error (.scan .store (.noLocal .stlocS)) :=
  (sitesOf_any [⟨.ldloc, none⟩, ⟨.stloc0, none⟩, ⟨.stlocS, some (.index 4)⟩]).2.2.1
    ⟨.stlocS, some (.index 4)⟩ rfl

end MethodBody
