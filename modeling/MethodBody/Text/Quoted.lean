namespace MethodBody

/-- The characters that need a backslash in a string literal. -/
def isSpecial (c : Char) : Bool :=
  c == '"' || c == '\\'

def escape (s : List Char) : List Char :=
  s.flatMap fun c => if isSpecial c then ['\\', c] else [c]

theorem escape_cons (c : Char) (s : List Char) :
    escape (c :: s) = (if isSpecial c then ['\\', c] else [c]) ++ escape s := by
  simp [escape]

def quote (s : List Char) : List Char :=
  '"' :: escape s ++ ['"']

/-- Undoes `escape` behind the reversed start. Only special characters may follow a backslash. -/
def readEscapedOnto : List Char → List Char → Option (List Char)
  | kept, [] => some kept.reverse
  | kept, '\\' :: c :: cs => if isSpecial c then readEscapedOnto (c :: kept) cs else none
  | kept, c :: cs => if isSpecial c then none else readEscapedOnto (c :: kept) cs

def readEscaped (cs : List Char) : Option (List Char) :=
  readEscapedOnto [] cs

theorem readEscapedOnto_escape (kept s : List Char) :
    readEscapedOnto kept (escape s) = some (kept.reverse ++ s) := by
  induction s generalizing kept with
  | nil => simp [escape, readEscapedOnto]
  | cons c s ih =>
    rw [escape_cons]
    split
    next h => simp [readEscapedOnto, h, ih]
    next h =>
      have hc : c ≠ '\\' := by rintro rfl; exact h rfl
      rw [List.singleton_append,
        readEscapedOnto.eq_3 _ _ _ (fun _ _ hd => absurd hd hc)]
      simp [h, ih]

theorem eq_escape_of_readEscapedOnto {kept cs s : List Char}
    (h : readEscapedOnto kept cs = some s) : ∃ t, cs = escape t ∧ s = kept.reverse ++ t := by
  fun_induction readEscapedOnto kept cs with
  | case1 kept => exact ⟨[], rfl, by simpa using h.symm⟩
  | case2 kept c cs hc ih =>
    obtain ⟨t, rfl, rfl⟩ := ih h
    exact ⟨c :: t, by simp [escape_cons, hc], by simp⟩
  | case3 => cases h
  | case4 => cases h
  | case5 kept c cs _ hc ih =>
    obtain ⟨t, rfl, rfl⟩ := ih h
    exact ⟨c :: t, by simp [escape_cons, hc], by simp⟩

theorem readEscaped_eq_some_iff {cs s : List Char} : readEscaped cs = some s ↔ cs = escape s := by
  constructor
  · intro h
    obtain ⟨t, rfl, rfl⟩ := eq_escape_of_readEscapedOnto h
    rfl
  · rintro rfl
    exact readEscapedOnto_escape [] s

def readQuoted : List Char → Option (List Char)
  | '"' :: cs => if cs.getLast? = some '"' then readEscaped cs.dropLast else none
  | _ => none

/-- A text is a literal in exactly one way, if it is one. -/
theorem readQuoted_eq_some_iff {cs s : List Char} : readQuoted cs = some s ↔ cs = quote s := by
  constructor
  · intro h
    unfold readQuoted at h
    split at h
    next cs =>
      split at h
      next hl =>
        rw [readEscaped_eq_some_iff] at h
        obtain ⟨cs, rfl⟩ := List.getLast?_eq_some_iff.mp hl
        simp only [List.dropLast_concat] at h
        simp [quote, h]
      next => cases h
    next => cases h
  · rintro rfl
    simp [quote, readQuoted, readEscaped_eq_some_iff]

end MethodBody
