import MethodBody.Proofs.Complementing
import MethodBody.Proofs.Numbering

namespace MethodBody

namespace LocalTable

variable {table : LocalTable} {k l : Local}

theorem mem_toList_iff :
    l ∈ table.toList ↔ l.method = table.method ∧ table.entries[l.place]? = some l.toEntry := by
  rw [List.mem_iff_getElem?]
  constructor
  · intro h
    obtain ⟨place, hl⟩ := h
    rw [getElem?_toList] at hl
    obtain ⟨e, he, rfl⟩ := Option.map_eq_some_iff.mp hl
    exact ⟨rfl, he⟩
  · intro h
    obtain ⟨hmethod, he⟩ := h
    refine ⟨l.place, ?_⟩
    rw [getElem?_toList, he, ← hmethod]
    rfl

theorem eq_of_place_eq (hk : k ∈ table.toList) (hl : l ∈ table.toList) (h : k.place = l.place) :
    k = l := by
  obtain ⟨hkm, hke⟩ := mem_toList_iff.mp hk
  obtain ⟨hlm, hle⟩ := mem_toList_iff.mp hl
  rw [h, hle] at hke
  cases k
  cases l
  cases hkm.trans hlm.symm
  cases hke
  cases h
  rfl

theorem place_of_getElem?_toList {place : Nat} (h : table.toList[place]? = some l) :
    l.place = place := by
  rw [getElem?_toList] at h
  obtain ⟨e, _, rfl⟩ := Option.map_eq_some_iff.mp h
  rfl

/-- In a table that was numbered as it grew, the numbers tell its entries apart. -/
theorem Numbered.place_eq_iff (h : table.Numbered) (hk : k ∈ table.toList) (hl : l ∈ table.toList) :
    k.place = l.place ↔ k.index = l.index := by
  have hkp := h.index_eq (mem_toList_iff.mp hk).2
  have hlp := h.index_eq (mem_toList_iff.mp hl).2
  rw [← UInt16.toNat_inj, hkp, hlp]

end LocalTable

/-- The tables of a program. Methods may agree in their declarations. -/
def methodTable (declarations : Nat → List Declaration) (method : Nat) : LocalTable :=
  ((LocalTable.empty method).declareEach (declarations method)).2

theorem numbered_methodTable (declarations : Nat → List Declaration) (method : Nat) :
    (methodTable declarations method).Numbered :=
  LocalTable.numbered_declareEach_empty method (declarations method)

theorem method_of_mem_methodTable {declarations : Nat → List Declaration} {method : Nat}
    {l : Local} (h : l ∈ (methodTable declarations method).toList) : l.method = method :=
  (LocalTable.mem_toList_iff.mp h).1.trans (LocalTable.method_declareEach _ _)

/-- A slot that is fixed, or that belongs to an entry of the table. -/
inductive Slot.IsOf (table : LocalTable) : Slot → Prop where
  | fixed (slot : Fin 4) : IsOf table (.fixed slot)
  | declared {l : Local} (h : l ∈ table.toList) : IsOf table (.declared l)

namespace Slot

theorem index_fixed_inj {a b : Fin 4} : (fixed a).index = (fixed b).index ↔ a = b := by
  revert a b
  decide

def SameKind (s t : Slot) : Prop :=
  (∃ a b, s = .fixed a ∧ t = .fixed b) ∨ ∃ k l, s = .declared k ∧ t = .declared l

/-- Among the slots of one method, the kind and the number tell all. -/
theorem IsOf.same_iff {table : LocalTable} (h : table.Numbered) {s t : Slot} (hs : s.IsOf table)
    (ht : t.IsOf table) : s.same t = true ↔ s.SameKind t ∧ s.index = t.index := by
  cases hs with
  | fixed a =>
    cases ht with
    | fixed b => simp [SameKind, same, index_fixed_inj]
    | declared => simp [SameKind, same]
  | @declared k hk =>
    cases ht with
    | fixed => simp [SameKind, same]
    | @declared l hl =>
      have hmethod : k.method = l.method :=
        (LocalTable.mem_toList_iff.mp hk).1.trans (LocalTable.mem_toList_iff.mp hl).1.symm
      simp [SameKind, same, Local.same, index, hmethod, h.place_eq_iff hk hl]

theorem same_declared_iff {declarations : Nat → List Declaration} {m n i j : Nat} {k l : Local}
    (hk : (methodTable declarations m).toList[i]? = some k)
    (hl : (methodTable declarations n).toList[j]? = some l) :
    (declared k).same (declared l) = true ↔ m = n ∧ i = j := by
  have hkm := method_of_mem_methodTable (List.mem_of_getElem? hk)
  have hlm := method_of_mem_methodTable (List.mem_of_getElem? hl)
  have hkp := LocalTable.place_of_getElem?_toList hk
  have hlp := LocalTable.place_of_getElem?_toList hl
  simp [same, Local.same, hkm, hlm, hkp, hlp]

/-- The same slots are equal ones, since table and place leave no choice for the entry. -/
theorem IsOf.same_iff_eq {declarations : Nat → List Declaration} {m n : Nat} {s t : Slot}
    (hs : s.IsOf (methodTable declarations m)) (ht : t.IsOf (methodTable declarations n)) :
    s.same t = true ↔ s = t := by
  constructor
  · intro h
    cases hs with
    | fixed a =>
      cases ht with
      | fixed b => rw [eq_of_beq h]
      | declared => cases h
    | @declared k hk =>
      cases ht with
      | fixed => cases h
      | @declared l hl =>
        obtain ⟨hmethod, hplace⟩ := Bool.and_eq_true_iff.mp h
        -- Entries at one place are only equal once they are known to be of one table.
        have hmn := eq_of_beq hmethod
        rw [method_of_mem_methodTable hk, method_of_mem_methodTable hl] at hmn
        subst hmn
        rw [LocalTable.eq_of_place_eq hk hl (eq_of_beq hplace)]
  · rintro rfl
    exact s.same_self

end Slot

namespace Instruction

theorem slot?_cases {x : Instruction} {s : Slot} (h : x.slot? = some s) :
    ∃ a, x.opcode.valueAccess? = some a ∧
      ((∃ slot, a.form = .fixed slot ∧ s = .fixed slot) ∨
        a.form.hasOperand = true ∧ ∃ l, x.operand = some (.declared l) ∧ s = .declared l) := by
  obtain ⟨a, ha, h⟩ := Option.bind_eq_some_iff.mp h
  refine ⟨a, ha, ?_⟩
  have hdeclared : x.local?.map Slot.declared = some s →
      ∃ l, x.operand = some (.declared l) ∧ s = .declared l := by
    intro h
    obtain ⟨l, hl, rfl⟩ := Option.map_eq_some_iff.mp h
    exact ⟨l, local?_eq_some_iff.mp hl, rfl⟩
  cases hf : a.form with
  | fixed slot =>
    rw [hf] at h
    cases h
    exact .inl ⟨slot, rfl, rfl⟩
  | compact =>
    rw [hf] at h
    exact .inr ⟨rfl, hdeclared h⟩
  | general =>
    rw [hf] at h
    exact .inr ⟨rfl, hdeclared h⟩

/-- If the operand of an instruction is a local, that is an entry of the table. -/
def NamesOnly (table : LocalTable) (x : Instruction) : Prop :=
  ∀ l, x.operand = some (.declared l) → l ∈ table.toList

theorem NamesOnly.isOf {table : LocalTable} {x : Instruction} {s : Slot} (hx : x.NamesOnly table)
    (h : x.slot? = some s) : s.IsOf table := by
  obtain ⟨a, _, ⟨slot, _, rfl⟩ | ⟨_, l, ho, rfl⟩⟩ := slot?_cases h
  · exact .fixed slot
  · exact .declared (hx l ho)

/-- Instructions of equal value have slots of one kind and number. -/
theorem slots_of_alike {x y : Instruction} {s t : Slot} (h : x.alike y = true)
    (hs : x.slot? = some s) (ht : y.slot? = some t) : s.SameKind t ∧ s.index = t.index := by
  obtain ⟨hop, hoperand⟩ := Bool.and_eq_true_iff.mp h
  obtain ⟨a, ha, hs⟩ := slot?_cases hs
  obtain ⟨b, hb, ht⟩ := slot?_cases ht
  rw [eq_of_beq hop, hb] at ha
  cases ha
  rcases hs with ⟨slot, hf, rfl⟩ | ⟨hf, k, hk, rfl⟩
  · rcases ht with ⟨slot', hf', rfl⟩ | ⟨hf', _⟩
    · cases hf.symm.trans hf'
      exact ⟨.inl ⟨slot, slot, rfl, rfl⟩, rfl⟩
    · rw [hf] at hf'
      cases hf'
  · rcases ht with ⟨slot, hf', _⟩ | ⟨_, l, hl, rfl⟩
    · rw [hf'] at hf
      cases hf
    · rw [hk, hl] at hoperand
      have hentry : k.toEntry = l.toEntry := eq_of_beq hoperand
      exact ⟨.inr ⟨k, l, rfl, rfl⟩, congrArg Entry.index hentry⟩

end Instruction

/-- A slot of some instruction in one of the methods of a program. -/
def ProgramSlot (declarations : Nat → List Declaration) : Type :=
  { s : Slot // ∃ method x, Instruction.NamesOnly (methodTable declarations method) x ∧
    x.slot? = some s }

theorem ProgramSlot.same_iff {declarations : Nat → List Declaration}
    (s t : ProgramSlot declarations) : s.val.same t.val = true ↔ s.val = t.val := by
  obtain ⟨_, _, _, hx, hs⟩ := s
  obtain ⟨_, _, _, hy, ht⟩ := t
  exact (hx.isOf hs).same_iff_eq (hy.isOf ht)

/-- Sameness of slots is an equivalence that goes by number within a method and never across
methods. -/
theorem Slot.same_equivalence (declarations : Nat → List Declaration) :
    Equivalence (fun s t : ProgramSlot declarations => s.val.same t.val = true) ∧
    (∀ s t : ProgramSlot declarations, s.val.same t.val = true → s.val.index = t.val.index) ∧
    (∀ (m n i j : Nat) (k l : Local),
      (methodTable declarations m).toList[i]? = some k →
      (methodTable declarations n).toList[j]? = some l →
        ((declared k).same (declared l) = true ↔ m = n ∧ i = j)) ∧
    (∀ (method : Nat) (x y : Instruction) (s t : Slot),
      x.NamesOnly (methodTable declarations method) →
      y.NamesOnly (methodTable declarations method) →
      x.slot? = some s → y.slot? = some t →
        (s.same t = true ↔
          ((∃ a b, s = .fixed a ∧ t = .fixed b) ∨ ∃ k l, s = .declared k ∧ t = .declared l) ∧
            s.index = t.index)) ∧
    (∀ (method : Nat) (x y : Instruction) (s t : Slot),
      x.NamesOnly (methodTable declarations method) →
      y.NamesOnly (methodTable declarations method) →
      x.slot? = some s → y.slot? = some t → x.alike y = true → s.same t = true) ∧
    (∀ (m n : Nat) (x y : Instruction) (k l : Local), m ≠ n →
      x.NamesOnly (methodTable declarations m) → y.NamesOnly (methodTable declarations n) →
      x.slot? = some (.declared k) → y.slot? = some (.declared l) → x.alike y = true →
        (declared k).same (declared l) = false) := by
  refine ⟨⟨fun s => s.val.same_self, ?_, ?_⟩, ?_, fun _ _ _ _ _ _ => same_declared_iff, ?_, ?_, ?_⟩
  · intro s t h
    rw [ProgramSlot.same_iff] at h ⊢
    exact h.symm
  · intro s t u hst htu
    rw [ProgramSlot.same_iff] at hst htu ⊢
    exact hst.trans htu
  · intro s t h
    rw [(s.same_iff t).mp h]
  · intro method x y s t hx hy hs ht
    exact (hx.isOf hs).same_iff (numbered_methodTable declarations method) (hy.isOf ht)
  · intro method x y s t hx hy hs ht h
    exact ((hx.isOf hs).same_iff (numbered_methodTable declarations method) (hy.isOf ht)).mpr
      (Instruction.slots_of_alike h hs ht)
  · intro m n x y k l hmn hx hy hk hl _
    cases hx.isOf hk with
    | declared hk =>
      cases hy.isOf hl with
      | declared hl =>
        have hmethod : k.method ≠ l.method := by
          rwa [method_of_mem_methodTable hk, method_of_mem_methodTable hl]
        simp [same, Local.same, hmethod]

/-- Two methods declare the same two locals. Only the load of the same local shares the slot. -/
theorem Slot.same_equivalence_twins :
    ∃ store store' other load : Slot,
      (⟨.stlocS, some (.declared ⟨⟨⟨"int32", false⟩, 1⟩, 0, 1⟩)⟩ : Instruction).slot? =
        some store ∧
      (⟨.stlocS, some (.declared ⟨⟨⟨"int32", false⟩, 1⟩, 1, 1⟩)⟩ : Instruction).slot? =
        some store' ∧
      (⟨.ldloc, some (.declared ⟨⟨⟨"int32", false⟩, 0⟩, 0, 0⟩)⟩ : Instruction).slot? =
        some other ∧
      (⟨.ldloc, some (.declared ⟨⟨⟨"int32", false⟩, 1⟩, 0, 1⟩)⟩ : Instruction).slot? =
        some load ∧
      (⟨.stlocS, some (.declared ⟨⟨⟨"int32", false⟩, 1⟩, 0, 1⟩)⟩ : Instruction).alike
        ⟨.stlocS, some (.declared ⟨⟨⟨"int32", false⟩, 1⟩, 1, 1⟩)⟩ = true ∧
      store.same store' = false ∧ ¬store.same other = true ∧ store.same load = true := by
  let declarations : Nat → List Declaration := fun _ => [⟨"int32", false⟩, ⟨"int32", false⟩]
  obtain ⟨_, _, _, hsame, _, htwins⟩ := same_equivalence declarations
  have hnames (method : Nat) (op : Opcode) : Instruction.NamesOnly (methodTable declarations method)
      ⟨op, some (.declared ⟨⟨⟨"int32", false⟩, 1⟩, method, 1⟩)⟩ := by
    intro l hl
    cases hl
    exact List.mem_cons_of_mem _ List.mem_cons_self
  have hother : Instruction.NamesOnly (methodTable declarations 0)
      ⟨.ldloc, some (.declared ⟨⟨⟨"int32", false⟩, 0⟩, 0, 0⟩)⟩ := by
    intro l hl
    cases hl
    exact List.mem_cons_self
  refine ⟨_, _, _, _, rfl, rfl, rfl, rfl, by decide, ?_, ?_, ?_⟩
  · exact htwins 0 1 _ _ _ _ (by decide) (hnames 0 .stlocS) (hnames 1 .stlocS) rfl rfl (by decide)
  · rw [hsame 0 _ _ _ _ (hnames 0 .stlocS) hother rfl rfl]
    rintro ⟨_, hindex⟩
    cases hindex
  · rw [hsame 0 _ _ _ _ (hnames 0 .stlocS) (hnames 0 .ldloc) rfl rfl]
    exact ⟨.inr ⟨_, _, rfl, rfl⟩, rfl⟩

end MethodBody
