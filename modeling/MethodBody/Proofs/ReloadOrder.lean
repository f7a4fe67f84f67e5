import MethodBody.Proofs.Complementing
import MethodBody.Proofs.Reloading
import MethodBody.Proofs.Scanning

namespace MethodBody

/-- Where the instruction at a position of the original code stands once there are loads behind the
positions done. -/
def shifted (done : List Nat) (position : Nat) : Nat :=
  position + done.countP (· < position)

/-- Reloads at positions of the original code, each moved by those done before it. -/
def reloadEach : List Nat → List Nat → List Instruction → Except Error (List Instruction)
  | _, [], code => .ok code
  | done, position :: order, code => do
    let code ← reloadAfter (shifted done position) code
    reloadEach (position :: done) order code

/-- A store with the load of its pair behind it, and any other instruction alone. -/
def Instruction.withReload (x : Instruction) : List Instruction :=
  if x.Accesses .store then
    match AccessPair.ofInstruction x with
    | .ok p => [x, p.load]
    | .error _ => [x]
  else [x]

def withReloads (code : List Instruction) : List Instruction :=
  code.flatMap Instruction.withReload

/-- Code that stands from a position on, with loads behind those of its stores that are done. -/
def partlyReloaded (done : List Nat) : Nat → List Instruction → List Instruction
  | _, [] => []
  | position, x :: code =>
    (if position ∈ done then x.withReload else [x]) ++ partlyReloaded done (position + 1) code

theorem shifted_succ (done : List Nat) (position : Nat) :
    shifted done (position + 1) = shifted done position + 1 + done.count position := by
  have hcount : done.countP (· < position + 1) =
      done.countP (· < position) + done.count position := by
    induction done with
    | nil => rfl
    | cons i done ih =>
      simp only [List.countP_cons, List.count_cons, ih, decide_eq_true_eq, beq_iff_eq]
      split_ifs <;> omega
  rw [shifted, shifted, hcount]
  omega

/-- Only the positions before an instruction move it. -/
theorem shifted_append {before behind : List Nat} {position : Nat}
    (hbefore : ∀ i ∈ before, i < position) (hbehind : ∀ i ∈ behind, position ≤ i) :
    shifted (before ++ behind) position = position + before.length := by
  have hall : before.countP (· < position) = before.length :=
    List.countP_eq_length.mpr fun i hi => by simpa using hbefore i hi
  have hnone : behind.countP (· < position) = 0 :=
    List.countP_eq_zero.mpr fun i hi => by simpa using hbehind i hi
  rw [shifted, List.countP_append, hall, hnone, Nat.add_zero]

theorem shifted_of_behind {behind : List Nat} {position : Nat}
    (hbehind : ∀ i ∈ behind, position ≤ i) : shifted behind position = position :=
  @shifted_append [] behind position (by simp) hbehind

namespace AccessPair

theorem complement_of_store {x : Instruction} {p : AccessPair} (ha : x.Accesses .store)
    (hp : ofInstruction x = .ok p) : p.complement = p.load ∧ ¬p.load.Accesses .store := by
  obtain ⟨a, y, h, rfl⟩ := ofInstruction_eq_ok_iff.mp hp
  obtain ⟨form, haccess⟩ := Instruction.accesses_iff.mp ha
  obtain rfl : a = ⟨.store, form⟩ := Option.some.inj (h.access.symm.trans haccess)
  refine ⟨rfl, fun hy => ?_⟩
  have hload : y.Accesses .load := Instruction.accesses_iff.mpr ⟨form, h.access_counterpart⟩
  cases hy.direction_eq hload

end AccessPair

theorem Instruction.withReload_of_store {x : Instruction} {p : AccessPair}
    (ha : x.Accesses .store) (hp : AccessPair.ofInstruction x = .ok p) :
    x.withReload = [x, p.load] := by
  rw [withReload, if_pos ha, hp]

theorem Instruction.withReload_of_other {x : Instruction} (ha : ¬x.Accesses .store) :
    x.withReload = [x] := by
  rw [withReload, if_neg ha]

theorem insertIdx_behind {α : Type} (before behind : List α) (x y : α) :
    (before ++ x :: behind).insertIdx (before.length + 1) y = before ++ x :: y :: behind := by
  induction before with
  | nil => rfl
  | cons z before ih => simpa using ih

theorem reloadAfter_append {x : Instruction} {p : AccessPair} (ha : x.Accesses .store)
    (hp : AccessPair.ofInstruction x = .ok p) (before behind : List Instruction) :
    reloadAfter before.length (before ++ x :: behind) = .ok (before ++ x.withReload ++ behind) := by
  have hx : (before ++ x :: behind)[before.length]? = some x := by simp
  simp only [reloadAfter, hx, AccessPair.matching?_of_accesses ha, hp]
  rw [Instruction.withReload_of_store ha hp, ← (AccessPair.complement_of_store ha hp).1,
    List.append_assoc]
  exact congrArg Except.ok (insertIdx_behind before behind x p.complement)

/-- There is a store at the position that can be reloaded. -/
def StoreAt (code : List Instruction) (position : Nat) : Prop :=
  ∃ x p, code[position]? = some x ∧ x.Accesses .store ∧ AccessPair.ofInstruction x = .ok p

theorem partlyReloaded_nil (position : Nat) (code : List Instruction) :
    partlyReloaded [] position code = code := by
  induction code generalizing position with
  | nil => rfl
  | cons x code ih => simp [partlyReloaded, ih]

theorem partlyReloaded_append (done : List Nat) (position : Nat) (code code' : List Instruction) :
    partlyReloaded done position (code ++ code') =
      partlyReloaded done position code ++ partlyReloaded done (position + code.length) code' := by
  induction code generalizing position with
  | nil => simp [partlyReloaded]
  | cons x code ih =>
    have hlength : position + (x :: code).length = position + 1 + code.length := by
      simp only [List.length_cons]
      omega
    simp only [List.cons_append, partlyReloaded, ih, hlength, List.append_assoc]

/-- A reload elsewhere leaves the code as it is. -/
theorem partlyReloaded_cons_of_outside {done : List Nat} {position i : Nat}
    {code : List Instruction} (h : i < position ∨ position + code.length ≤ i) :
    partlyReloaded (i :: done) position code = partlyReloaded done position code := by
  induction code generalizing position with
  | nil => rfl
  | cons x code ih =>
    simp only [List.length_cons] at h
    have hne : position ≠ i := by omega
    have hmem : position ∈ i :: done ↔ position ∈ done := by simp [hne]
    simp only [partlyReloaded, hmem]
    rw [ih (by omega)]

theorem partlyReloaded_of_all {done : List Nat} {position : Nat} {code : List Instruction}
    (h : ∀ i x, code[i]? = some x → x.Accesses .store → position + i ∈ done) :
    partlyReloaded done position code = withReloads code := by
  induction code generalizing position with
  | nil => rfl
  | cons x code ih =>
    have hrest : partlyReloaded done (position + 1) code = withReloads code := by
      refine ih fun i y hy ha => ?_
      have hi := h (i + 1) y hy ha
      rwa [Nat.add_right_comm, Nat.add_assoc]
    have hfirst : (if position ∈ done then x.withReload else [x]) = x.withReload := by
      by_cases ha : x.Accesses .store
      · exact if_pos (h 0 x rfl ha)
      · rw [Instruction.withReload_of_other ha, ite_self]
    rw [partlyReloaded, hfirst, hrest, withReloads, withReloads, List.flatMap_cons]

/-- An instruction has moved on by as many as there were reloads before it. -/
theorem length_partlyReloaded {done : List Nat} {position : Nat} {code : List Instruction}
    (hdone : done.Nodup)
    (h : ∀ i x, code[i]? = some x → position + i ∈ done → x.withReload.length = 2) :
    shifted done position + (partlyReloaded done position code).length =
      shifted done (position + code.length) := by
  induction code generalizing position with
  | nil => rfl
  | cons x code ih =>
    have hrest : shifted done (position + 1) + (partlyReloaded done (position + 1) code).length =
        shifted done (position + 1 + code.length) := by
      refine ih fun i y hy hi => h (i + 1) y hy ?_
      rwa [Nat.add_right_comm, Nat.add_assoc] at hi
    have hfirst : (if position ∈ done then x.withReload else [x]).length =
        1 + done.count position := by
      rw [hdone.count]
      split
      next hm => exact h 0 x rfl hm
      next => rfl
    have hlength : position + (x :: code).length = position + 1 + code.length := by
      simp only [List.length_cons]
      omega
    rw [shifted_succ] at hrest
    rw [partlyReloaded, List.length_append, hfirst, hlength, ← hrest]
    omega

/-- A reload at a position not yet done, moved by those done before it, only adds the load there. -/
theorem reloadAfter_partlyReloaded {done : List Nat} {code : List Instruction} {position : Nat}
    (hdone : done.Nodup) (hstores : ∀ i ∈ done, StoreAt code i) (hnew : position ∉ done)
    (hp : StoreAt code position) :
    reloadAfter (shifted done position) (partlyReloaded done 0 code) =
      .ok (partlyReloaded (position :: done) 0 code) := by
  obtain ⟨x, p, hx, ha, hpair⟩ := hp
  obtain ⟨before, behind, rfl, rfl⟩ := exists_append_of_getElem? hx
  -- The code before the store has grown by as much as the store has moved.
  have hlength : (partlyReloaded done 0 before).length = shifted done before.length := by
    have h : shifted done 0 + (partlyReloaded done 0 before).length =
        shifted done (0 + before.length) := by
      refine length_partlyReloaded hdone fun i y hy hi => ?_
      obtain ⟨z, q, hz, hza, hq⟩ := hstores _ hi
      have hib : i < before.length := (List.getElem?_eq_some_iff.mp hy).1
      rw [Nat.zero_add, List.getElem?_append_left hib, hy] at hz
      cases hz
      rw [Instruction.withReload_of_store hza hq]
      rfl
    have hzero : shifted done 0 = 0 := shifted_of_behind fun i _ => Nat.zero_le i
    rwa [hzero, Nat.zero_add, Nat.zero_add] at h
  have hbefore : partlyReloaded (before.length :: done) 0 before = partlyReloaded done 0 before :=
    partlyReloaded_cons_of_outside (by omega)
  have hbehind : partlyReloaded (before.length :: done) (before.length + 1) behind =
      partlyReloaded done (before.length + 1) behind :=
    partlyReloaded_cons_of_outside (by omega)
  rw [partlyReloaded_append, partlyReloaded_append, hbefore]
  simp only [partlyReloaded, Nat.zero_add, hbehind, if_neg hnew, List.mem_cons_self, if_true,
    List.singleton_append]
  rw [← hlength, reloadAfter_append ha hpair, List.append_assoc]

/-- The code between two reloads depends on which are done, but not on their order. -/
theorem reloadEach_partlyReloaded (code : List Instruction) (done order : List Nat)
    (hnodup : (order ++ done).Nodup) (hstores : ∀ i ∈ order ++ done, StoreAt code i) :
    reloadEach done order (partlyReloaded done 0 code) =
      .ok (partlyReloaded (order.reverse ++ done) 0 code) := by
  induction order generalizing done with
  | nil => rfl
  | cons position order ih =>
    have hperm : (order ++ position :: done).Perm (position :: order ++ done) :=
      List.perm_middle
    have hnew := List.nodup_cons.mp hnodup
    have hdone : done.Nodup := (List.nodup_append.mp hnew.2).2.1
    have hfirst : reloadAfter (shifted done position) (partlyReloaded done 0 code) =
        .ok (partlyReloaded (position :: done) 0 code) :=
      reloadAfter_partlyReloaded hdone
        (fun i hi => hstores i (List.mem_append_right _ hi))
        (fun hm => hnew.1 (List.mem_append_right _ hm))
        (hstores position List.mem_cons_self)
    have hrest := ih (position :: done) (hperm.nodup_iff.mpr hnodup) fun i hi =>
      hstores i (hperm.mem_iff.mp hi)
    rw [reloadEach, hfirst, List.reverse_cons, List.append_assoc]
    exact hrest

/-- From back to front no position has to be moved. -/
theorem reloadEach_of_decreasing {done order : List Nat} (horder : order.Pairwise (· > ·))
    (hdone : ∀ i ∈ done, ∀ j ∈ order, j < i) (code : List Instruction) :
    reloadEach done order code =
      order.foldlM (fun code position => reloadAfter position code) code := by
  induction order generalizing done code with
  | nil => rfl
  | cons position order ih =>
    obtain ⟨hbelow, horder⟩ := List.pairwise_cons.mp horder
    have hmoved : shifted done position = position :=
      shifted_of_behind fun i hi => Nat.le_of_lt (hdone i hi position List.mem_cons_self)
    rw [reloadEach, hmoved, List.foldlM_cons]
    refine bind_congr fun code => ih horder ?_ code
    intro i hi j hj
    rcases List.mem_cons.mp hi with rfl | hi
    · exact hbelow j hj
    · exact hdone i hi j (List.mem_cons_of_mem _ hj)

/-- A pass over the code with its loads finds the same stores, moved. -/
theorem sitesFrom_withReloads (done : List Nat) {position : Nat} {code : List Instruction}
    {sites : List Site} (hdone : ∀ i ∈ done, i < position)
    (h : sitesFrom .store position code = .ok sites) :
    sitesFrom .store (position + done.length) (withReloads code) =
      .ok (sites.map fun s => ⟨shifted (done ++ sites.map (·.position)) s.position, s.pair⟩) := by
  induction code generalizing done position sites with
  | nil =>
    cases h
    rfl
  | cons x code ih =>
    rw [withReloads, List.flatMap_cons]
    rcases sitesFrom_cons_cases h with ⟨ha, hcode⟩ | ⟨p, rest, ha, hp, hcode, rfl⟩
    · have hrest := ih done (fun i hi => Nat.lt_succ_of_lt (hdone i hi)) hcode
      rw [Instruction.withReload_of_other ha, List.singleton_append, sitesFrom_of_not_accesses ha,
        Nat.add_right_comm]
      exact hrest
    · have hdone' : ∀ i ∈ done ++ [position], i < position + 1 := by
        intro i hi
        rcases List.mem_append.mp hi with hi | hi
        · exact Nat.lt_succ_of_lt (hdone i hi)
        · rw [List.mem_singleton.mp hi]
          exact Nat.lt_succ_self position
      have hrest := ih (done ++ [position]) hdone' hcode
      have hposition : shifted (done ++ position :: rest.map (·.position)) position =
          position + done.length := by
        refine shifted_append hdone fun i hi => ?_
        rcases List.mem_cons.mp hi with rfl | hi
        · exact Nat.le_refl i
        · obtain ⟨s, hs, rfl⟩ := List.mem_map.mp hi
          exact Nat.le_of_succ_le (le_position_of_sitesFrom hcode s hs)
      have hstart : position + done.length + 1 + 1 =
          position + 1 + (done ++ [position]).length := by
        simp only [List.length_append, List.length_singleton]
        omega
      -- The load behind the store is no store, so the pass goes on two positions further.
      rw [Instruction.withReload_of_store ha hp, List.cons_append, List.singleton_append,
        sitesFrom_of_accesses ha hp,
        sitesFrom_of_not_accesses (AccessPair.complement_of_store ha hp).2, hstart]
      rw [withReloads] at hrest
      rw [hrest, List.map_cons, List.map_cons, hposition]
      simp [Except.map]

theorem storeAt_of_mem {code : List Instruction} {sites : List Site}
    (h : AccessSites .store 0 code sites) {i : Nat} (hi : i ∈ sites.map (·.position)) :
    StoreAt code i := by
  obtain ⟨s, hs, rfl⟩ := List.mem_map.mp hi
  obtain ⟨i, x, hi, hx, ha, hp⟩ := h.sound s hs
  rw [Nat.zero_add] at hi
  exact ⟨x, s.pair, by rw [hi, hx], ha, hp⟩

/-- All stores can be reloaded in any order, and the result is one load right behind each. -/
theorem reloadEach_perm {code : List Instruction} {sites : List Site}
    (h : allSites .store code = .ok sites) :
    (∀ order : List Nat, order.Perm (sites.map (·.position)) →
      reloadEach [] order code = .ok (withReloads code)) ∧
    (sites.map (·.position)).reverse.foldlM (fun code position => reloadAfter position code) code =
      .ok (withReloads code) ∧
    allSites .store (withReloads code) =
      .ok (sites.map fun s => ⟨shifted (sites.map (·.position)) s.position, s.pair⟩) := by
  have hsites := accessSites_of_allSites h
  have hincreasing : (sites.map (·.position)).Pairwise (· < ·) :=
    List.pairwise_map.mpr hsites.increasing
  have horder : ∀ order : List Nat, order.Perm (sites.map (·.position)) →
      reloadEach [] order code = .ok (withReloads code) := by
    intro order hperm
    have hnodup : order.Nodup := hperm.nodup_iff.mpr (hincreasing.imp Nat.ne_of_lt)
    have hstores : ∀ i ∈ order, StoreAt code i :=
      fun i hi => storeAt_of_mem hsites (hperm.mem_iff.mp hi)
    have hrun := reloadEach_partlyReloaded code [] order (by simpa using hnodup)
      (by simpa using hstores)
    rw [partlyReloaded_nil, List.append_nil] at hrun
    rw [hrun, partlyReloaded_of_all]
    intro i x hx ha
    obtain ⟨p, _, hm⟩ := hsites.complete i x hx ha
    rw [List.mem_reverse, hperm.mem_iff]
    exact List.mem_map_of_mem (f := Site.position) hm
  refine ⟨horder, ?_, ?_⟩
  · rw [← horder _ (List.reverse_perm _)]
    refine (reloadEach_of_decreasing ?_ (by simp) code).symm
    exact List.pairwise_reverse.mpr hincreasing
  · rw [allSites_eq_sitesFrom] at h ⊢
    simpa using sitesFrom_withReloads [] (by simp) h

/-- Two stores side by side and one further on, the second one first and the first one last. -/
theorem reloadEach_perm_middle_first :
    reloadEach [] [1, 3, 0]
        [⟨.stloc0, none⟩, ⟨.stlocS, some (.declared ⟨⟨⟨"int32", false⟩, 4⟩, 0, 4⟩)⟩, ⟨.ldloc, none⟩,
          ⟨.stloc3, some (.index 9)⟩] =
      .ok [⟨.stloc0, none⟩, ⟨.ldloc0, none⟩,
        ⟨.stlocS, some (.declared ⟨⟨⟨"int32", false⟩, 4⟩, 0, 4⟩)⟩,
        ⟨.ldlocS, some (.declared ⟨⟨⟨"int32", false⟩, 4⟩, 0, 4⟩)⟩, ⟨.ldloc, none⟩,
        ⟨.stloc3, some (.index 9)⟩, ⟨.ldloc3, none⟩] := by
  have hsites : allSites .store
      [⟨.stloc0, none⟩, ⟨.stlocS, some (.declared ⟨⟨⟨"int32", false⟩, 4⟩, 0, 4⟩)⟩, ⟨.ldloc, none⟩,
        ⟨.stloc3, some (.index 9)⟩] =
      .ok [⟨0, ⟨⟨.ldloc0, none⟩, ⟨.stloc0, none⟩, .store⟩⟩,
        ⟨1, ⟨⟨.ldlocS, some (.declared ⟨⟨⟨"int32", false⟩, 4⟩, 0, 4⟩)⟩,
          ⟨.stlocS, some (.declared ⟨⟨⟨"int32", false⟩, 4⟩, 0, 4⟩)⟩, .store⟩⟩,
        ⟨3, ⟨⟨.ldloc3, none⟩, ⟨.stloc3, some (.index 9)⟩, .store⟩⟩] := by
    rw [allSites_eq_sitesFrom]
    rfl
  exact (reloadEach_perm hsites).1 [1, 3, 0] (by decide)

end MethodBody
