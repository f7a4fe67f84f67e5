import MethodBody.Error

namespace MethodBody

structure Declaration where
  type : String
  pinned : Bool
deriving DecidableEq

/-- A local as its table stores it, with the number it was given. -/
structure Entry extends Declaration where
  index : UInt16
deriving DecidableEq

/-- A reference to the entry at a place of the table of a method, and what is stored there. -/
structure Local extends Entry where
  method : Nat
  place : Nat
deriving DecidableEq

namespace Local

/-- Equal by value, wherever the values are stored. -/
def alike (a b : Local) : Bool :=
  a.toEntry == b.toEntry

/-- References to one entry, whatever is stored in it. -/
def same (a b : Local) : Bool :=
  a.method == b.method && a.place == b.place

@[simp] theorem same_self (l : Local) : l.same l = true := by
  simp [same]

end Local

/-- The locals of one method, in order of declaration. -/
structure LocalTable where
  method : Nat
  entries : Array Entry

namespace LocalTable

def empty (method : Nat) : LocalTable :=
  ⟨method, #[]⟩

def size (table : LocalTable) : Nat :=
  table.entries.size

/-- The size as a number of two bytes, unless it is too large for that or reaches the limit. -/
def nextIndex? (table : LocalTable) : Option UInt16 :=
  (if table.size < UInt16.size then some table.size.toUInt16 else none).filter
    fun index => index.toNat < localsLimit

/-- A table without a next number stays as it is. -/
def declare (table : LocalTable) (d : Declaration) : Except Error UInt16 × LocalTable :=
  match table.nextIndex? with
  | some index => (.ok index, ⟨table.method, table.entries.push ⟨d, index⟩⟩)
  | none => (.error .tooManyLocals, table)

def get? (table : LocalTable) (index : UInt16) : Option Local :=
  table.entries[index.toNat]?.map fun e => ⟨e, table.method, index.toNat⟩

def toList (table : LocalTable) : List Local :=
  table.entries.toList.zipIdx.map fun (e, place) => ⟨e, table.method, place⟩

/-- Tables that are changed by declarations alone. -/
inductive Reachable : LocalTable → Prop
  | empty (method : Nat) : Reachable (empty method)
  | declare {table : LocalTable} (h : Reachable table) (d : Declaration) :
    Reachable (table.declare d).2

end LocalTable

/-- A table as it can be had, which is by declarations from an empty one. -/
structure Locals extends LocalTable where
  reachable : toLocalTable.Reachable

namespace Locals

def empty (method : Nat) : Locals :=
  ⟨.empty method, .empty method⟩

def declare (locals : Locals) (d : Declaration) : Except Error UInt16 × Locals :=
  let result := locals.toLocalTable.declare d
  (result.1, ⟨result.2, locals.reachable.declare d⟩)

end Locals

end MethodBody
