import MethodBody.Locals
import Mathlib.Data.List.Basic

namespace MethodBody

theorem toNat_toUInt16_of_lt {place : Nat} (h : place < localsLimit) :
    place.toUInt16.toNat = place :=
  UInt16.toNat_ofNat_of_lt' (Nat.lt_succ_of_lt h)

namespace LocalTable

variable {table : LocalTable}

/-- The limit lies just below the numbers of two bytes, so the size is not cut off below it. -/
theorem nextIndex?_of_room (h : table.size < localsLimit) :
    table.nextIndex? = some table.size.toUInt16 := by
  have hnarrow : table.size < UInt16.size := Nat.lt_succ_of_lt h
  have hbelow : decide (table.size.toUInt16.toNat < localsLimit) = true := by
    rw [toNat_toUInt16_of_lt h]
    exact decide_eq_true h
  rw [nextIndex?, if_pos hnarrow, Option.filter_some, if_pos hbelow]

theorem nextIndex?_of_full (h : localsLimit ≤ table.size) : table.nextIndex? = none := by
  unfold nextIndex?
  by_cases hnarrow : table.size < UInt16.size
  · have hindex : table.size.toUInt16.toNat = table.size := UInt16.toNat_ofNat_of_lt' hnarrow
    have hbelow : ¬decide (table.size.toUInt16.toNat < localsLimit) = true := by
      rw [hindex, decide_eq_true_iff]
      omega
    rw [if_pos hnarrow, Option.filter_some, if_neg hbelow]
  · rw [if_neg hnarrow, Option.filter_none]

/-- The types and marks of the entries, without their numbers. -/
def declarations (table : LocalTable) : Array Declaration :=
  table.entries.map Entry.toDeclaration

@[simp] theorem declarations_empty (method : Nat) : (empty method).declarations = #[] :=
  Array.map_empty

@[simp] theorem size_declarations (table : LocalTable) : table.declarations.size = table.size :=
  Array.size_map

theorem declarations_push {next : LocalTable} {d : Declaration} {index : UInt16}
    (h : next.entries = table.entries.push ⟨d, index⟩) :
    next.declarations = table.declarations.push d := by
  rw [declarations, h, Array.map_push]
  rfl

/-- A declaration is put behind all others under the next number, or nothing changes. -/
theorem declare_cases (table : LocalTable) (d : Declaration) :
    (table.size < localsLimit ∧ ∃ next, table.declare d = (.ok table.size.toUInt16, next) ∧
      next.method = table.method ∧
      next.entries = table.entries.push ⟨d, table.size.toUInt16⟩) ∨
    (localsLimit ≤ table.size ∧ table.declare d = (.error .tooManyLocals, table)) := by
  by_cases hroom : table.size < localsLimit
  · refine .inl ⟨hroom, ⟨table.method, table.entries.push ⟨d, table.size.toUInt16⟩⟩, ?_, rfl, rfl⟩
    rw [declare, nextIndex?_of_room hroom]
  · have hfull : localsLimit ≤ table.size := Nat.le_of_not_lt hroom
    refine .inr ⟨hfull, ?_⟩
    rw [declare, nextIndex?_of_full hfull]

/-- What declarations keep up: no more entries than the limit, each with its place as its number. -/
structure Numbered (table : LocalTable) : Prop where
  size_le : table.size ≤ localsLimit
  index_eq : ∀ {place : Nat} {e : Entry}, table.entries[place]? = some e → e.index.toNat = place

theorem numbered_empty (method : Nat) : (empty method).Numbered := by
  refine ⟨Nat.zero_le _, ?_⟩
  intro place e h
  simp [empty] at h

theorem Numbered.declare (h : table.Numbered) (d : Declaration) : (table.declare d).2.Numbered := by
  rcases table.declare_cases d with ⟨hroom, next, hd, _, hpush⟩ | ⟨_, hd⟩
  · rw [hd]
    refine ⟨?_, ?_⟩
    · rw [size, hpush, Array.size_push]
      exact hroom
    · intro place e he
      rw [hpush, Array.getElem?_push] at he
      by_cases hlast : place = table.entries.size
      · -- The new entry is at the end, and its number is the size before it came.
        rw [if_pos hlast] at he
        cases he
        rw [hlast]
        exact toNat_toUInt16_of_lt hroom
      · rw [if_neg hlast] at he
        exact h.index_eq he
  · rw [hd]
    exact h

theorem Reachable.numbered (h : table.Reachable) : table.Numbered := by
  induction h with
  | empty method => exact numbered_empty method
  | declare _ d ih => exact ih.declare d

theorem getElem?_toList (table : LocalTable) (place : Nat) :
    table.toList[place]? = table.entries[place]?.map fun e => ⟨e, table.method, place⟩ := by
  rw [toList, List.getElem?_map, List.getElem?_zipIdx, Array.getElem?_toList, Option.map_map,
    Nat.zero_add]
  rfl

theorem length_toList (table : LocalTable) : table.toList.length = table.size := by
  simp [toList, size]

theorem isSome_get? (table : LocalTable) (index : UInt16) :
    (table.get? index).isSome = true ↔ index.toNat < table.size := by
  simp [get?, size]

/-- A local is looked up at the place in the list that its number says. -/
theorem get?_eq_getElem?_toList (table : LocalTable) (n : UInt16) :
    table.get? n = table.toList[n.toNat]? := by
  rw [getElem?_toList, get?]

namespace Numbered

variable (h : table.Numbered)

include h

/-- The numbers in a table add nothing to the order of its declarations. -/
theorem getElem?_entries (place : Nat) :
    table.entries[place]? = table.declarations[place]?.map fun d => ⟨d, place.toUInt16⟩ := by
  rw [declarations, Array.getElem?_map, Option.map_map]
  cases he : table.entries[place]? with
  | none => rfl
  | some e =>
    have hindex : place.toUInt16 = e.index := by
      rw [← h.index_eq he]
      exact UInt16.ofNat_toNat
    rw [Option.map_some, Function.comp_apply, hindex]

theorem getElem?_toList (place : Nat) :
    table.toList[place]? = table.declarations[place]?.map fun d =>
      ⟨⟨d, place.toUInt16⟩, table.method, place⟩ := by
  rw [LocalTable.getElem?_toList, h.getElem?_entries, Option.map_map]
  rfl

theorem get?_eq_some_iff {index : UInt16} {l : Local} :
    table.get? index = some l ↔
      l.method = table.method ∧ l.place = index.toNat ∧ l.index = index ∧
        table.declarations[index.toNat]? = some l.toDeclaration := by
  have hindex : index.toNat.toUInt16 = index := UInt16.ofNat_toNat
  rw [get?_eq_getElem?_toList, h.getElem?_toList, hindex]
  constructor
  · intro hl
    obtain ⟨d, hd, rfl⟩ := Option.map_eq_some_iff.mp hl
    exact ⟨rfl, rfl, rfl, hd⟩
  · intro hl
    obtain ⟨hmethod, hplace, hnumber, hd⟩ := hl
    refine Option.map_eq_some_iff.mpr ⟨l.toDeclaration, hd, ?_⟩
    rw [← hmethod, ← hplace, ← hnumber]

theorem index_of_getElem?_toList {place : Nat} {l : Local} (hl : table.toList[place]? = some l) :
    l.index.toNat = place := by
  rw [LocalTable.getElem?_toList] at hl
  obtain ⟨e, he, rfl⟩ := Option.map_eq_some_iff.mp hl
  exact h.index_eq he

theorem eq_of_declarations {other : LocalTable} (ho : other.Numbered)
    (hm : table.method = other.method) (hd : table.declarations = other.declarations) :
    table = other := by
  have hentries : table.entries = other.entries := by
    apply Array.ext_getElem?
    intro place
    rw [h.getElem?_entries, ho.getElem?_entries, hd]
  cases table
  cases other
  cases hm
  cases hentries
  rfl

end Numbered

end LocalTable

namespace Locals

@[simp] theorem toLocalTable_empty (method : Nat) :
    (empty method).toLocalTable = LocalTable.empty method :=
  rfl

theorem numbered (locals : Locals) : locals.Numbered :=
  locals.reachable.numbered

theorem size_le (locals : Locals) : locals.size ≤ localsLimit :=
  locals.numbered.size_le

theorem eq_of_declarations {a b : Locals} (hm : a.method = b.method)
    (hd : a.declarations = b.declarations) : a = b := by
  have htables := a.numbered.eq_of_declarations b.numbered hm hd
  cases a
  cases b
  cases htables
  rfl

theorem declare_cases (locals : Locals) (d : Declaration) :
    (locals.size < localsLimit ∧ ∃ next, locals.declare d = (.ok locals.size.toUInt16, next) ∧
      next.method = locals.method ∧ next.declarations = locals.declarations.push d) ∨
    (locals.size = localsLimit ∧ locals.declare d = (.error .tooManyLocals, locals)) := by
  rcases locals.toLocalTable.declare_cases d with ⟨hroom, next, hd, hmethod, hpush⟩ | ⟨hfull, hd⟩
  · refine .inl ⟨hroom, (locals.declare d).2, ?_, ?_, ?_⟩
    · exact congrArg (fun result => (result.1, (locals.declare d).2)) hd
    · exact (congrArg (·.2.method) hd).trans hmethod
    · have hentries : (locals.declare d).2.entries = next.entries := congrArg (·.2.entries) hd
      exact LocalTable.declarations_push (hentries.trans hpush)
  · refine .inr ⟨Nat.le_antisymm locals.size_le hfull, ?_⟩
    have hsame : (locals.declare d).2 = locals := by
      apply eq_of_declarations
      · exact congrArg (·.2.method) hd
      · exact congrArg (·.2.declarations) hd
    have hanswer : (locals.declare d).1 = .error .tooManyLocals := congrArg (·.1) hd
    exact Prod.ext hanswer hsame

end Locals

end MethodBody
