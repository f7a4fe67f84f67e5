import MethodBody.AccessPair

namespace MethodBody

/-- A place in a method body with the value access that stands there. -/
structure Site where
  position : Nat
  pair : AccessPair
deriving DecidableEq

/-- Looks for a site in the given direction from the start on. Code behind it is not looked at. -/
def searchSite (d : Direction) (code : Array Instruction) (start : Nat) :
    Except Error (Option Site) :=
  if h : start < code.size then
    match AccessPair.matching? d code[start] with
    | .ok (some p) => .ok (some ⟨start, p⟩)
    | .ok none => searchSite d code (start + 1)
    | .error e => .error e
  else .ok none

theorem searchSite_bounds {d : Direction} {code : Array Instruction} {start : Nat} {s : Site}
    (h : searchSite d code start = .ok (some s)) : start ≤ s.position ∧ s.position < code.size := by
  fun_induction searchSite d code start with
  | case1 start hs p hp =>
    cases h
    exact ⟨Nat.le_refl _, hs⟩
  | case2 start hs hp ih =>
    have := ih h
    omega
  | case3 => cases h
  | case4 => cases h

/-- The first site in the given direction that is not before the start. -/
def firstSite (d : Direction) (start : Nat) (code : List Instruction) :
    Except Error (Option Site) :=
  searchSite d code.toArray start

/-- Collects the sites from the start on behind those found so far, which are reversed. -/
def sitesOnto (d : Direction) (code : Array Instruction) (found : List Site) (start : Nat) :
    Except Error (List Site) :=
  match h : searchSite d code start with
  | .ok (some s) => sitesOnto d code (s :: found) (s.position + 1)
  | .ok none => .ok found.reverse
  | .error e => .error e
termination_by code.size - start
decreasing_by
  have := searchSite_bounds h
  omega

def allSites (d : Direction) (code : List Instruction) : Except Error (List Site) :=
  sitesOnto d code.toArray [] 0

end MethodBody
