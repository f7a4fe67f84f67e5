import MethodBody.Text.Blank
import Mathlib.Data.List.TakeWhile

namespace MethodBody

def Trimmed (cs : List Char) : Prop :=
  (∀ c ∈ cs.head?, isBlank c = false) ∧ ∀ c ∈ cs.getLast?, isBlank c = false

theorem trimStart_eq_self {cs : List Char} (h : ∀ c ∈ cs.head?, isBlank c = false) :
    trimStart cs = cs := by
  cases cs with
  | nil => rfl
  | cons c cs => simp [trimStart, h c rfl]

theorem trimEnd_eq_self {cs : List Char} (h : ∀ c ∈ cs.getLast?, isBlank c = false) :
    trimEnd cs = cs := by
  have hs : trimStart cs.reverse = cs.reverse := trimStart_eq_self (by simpa using h)
  unfold trimStart at hs
  rw [trimEnd, hs, List.reverse_reverse]

theorem Trimmed.trim_eq {cs : List Char} (h : Trimmed cs) : trim cs = cs := by
  rw [trim, trimStart_eq_self h.1, trimEnd_eq_self h.2]

theorem trimStart_eq (cs : List Char) :
    ∃ before, (∀ c ∈ before, isBlank c = true) ∧ cs = before ++ trimStart cs :=
  ⟨cs.takeWhile isBlank, List.all_eq_true.mp List.all_takeWhile,
    List.takeWhile_append_dropWhile.symm⟩

theorem trimEnd_eq (cs : List Char) :
    ∃ behind, (∀ c ∈ behind, isBlank c = true) ∧ cs = trimEnd cs ++ behind := by
  refine ⟨(cs.reverse.takeWhile isBlank).reverse, ?_, ?_⟩
  · intro c hc
    exact List.all_eq_true.mp List.all_takeWhile c (List.mem_reverse.mp hc)
  · rw [trimEnd, ← List.reverse_append, List.takeWhile_append_dropWhile, List.reverse_reverse]

/-- Trimming takes blanks away from both ends and keeps all between them. -/
theorem trim_eq (cs : List Char) :
    ∃ before behind, (∀ c ∈ before, isBlank c = true) ∧ (∀ c ∈ behind, isBlank c = true) ∧
      cs = before ++ trim cs ++ behind := by
  obtain ⟨before, hbefore, hs⟩ := trimStart_eq cs
  obtain ⟨behind, hbehind, he⟩ := trimEnd_eq (trimStart cs)
  exact ⟨before, behind, hbefore, hbehind, by rw [trim, List.append_assoc, ← he, ← hs]⟩

theorem mem_of_mem_trim {cs : List Char} {c : Char} (h : c ∈ trim cs) : c ∈ cs := by
  obtain ⟨before, behind, _, _, he⟩ := trim_eq cs
  rw [he]
  simp [h]

theorem head?_trimStart (cs : List Char) {c : Char} (h : (trimStart cs).head? = some c) :
    isBlank c = false := by
  have hd := List.head?_dropWhile_not isBlank cs
  rw [show (cs.dropWhile isBlank).head? = some c from h] at hd
  exact hd

theorem trimmed_trim (cs : List Char) : Trimmed (trim cs) := by
  constructor
  · intro c hc
    obtain ⟨behind, _, he⟩ := trimEnd_eq (trimStart cs)
    apply head?_trimStart cs
    rw [he, List.head?_append, show (trimEnd (trimStart cs)).head? = some c from hc]
    rfl
  · intro c hc
    apply head?_trimStart (trimStart cs).reverse
    simpa [trim, trimEnd, trimStart] using hc

theorem trim_blank_append {before cs : List Char} (h : ∀ c ∈ before, isBlank c = true) :
    trim (before ++ cs) = trim cs := by
  rw [trim, trimStart, List.dropWhile_append_of_pos h]
  rfl

theorem trimEnd_append {cs : List Char} (h : ∀ c ∈ cs.getLast?, isBlank c = false)
    (ds : List Char) : trimEnd (cs ++ ds) = cs ++ trimEnd ds := by
  have hcs : trimEnd cs = cs := trimEnd_eq_self h
  have hrev : cs.reverse.dropWhile isBlank = cs.reverse := by
    rw [← List.reverse_inj, List.reverse_reverse]
    exact hcs
  rw [trimEnd, List.reverse_append, List.dropWhile_append, trimEnd]
  split
  next hnil =>
    rw [List.isEmpty_iff.mp hnil, hrev]
    simp
  next => simp

theorem trimEnd_append_cons {c : Char} (h : isBlank c = false) (cs ds : List Char) :
    trimEnd (cs ++ c :: ds) = cs ++ c :: trimEnd ds := by
  have hlast : ∀ d ∈ (cs ++ [c]).getLast?, isBlank d = false := by simpa using h
  rw [List.append_cons, trimEnd_append hlast, ← List.append_cons]

theorem trim_of_blank {cs : List Char} (h : ∀ c ∈ cs, isBlank c = true) : trim cs = [] := by
  have hnil : trimStart cs = [] := List.dropWhile_eq_nil_iff.mpr h
  rw [trim, hnil]
  rfl

/-- Blanks around a trimmed text are what trimming takes away. -/
theorem Trimmed.trim_between {before cs behind : List Char} (h : Trimmed cs)
    (hbefore : ∀ c ∈ before, isBlank c = true) (hbehind : ∀ c ∈ behind, isBlank c = true) :
    trim (before ++ cs ++ behind) = cs := by
  rw [List.append_assoc, trim_blank_append hbefore]
  cases cs with
  | nil => exact trim_of_blank hbehind
  | cons c cs =>
    have hend : trimEnd behind = [] := by
      rw [trimEnd, List.dropWhile_eq_nil_iff.mpr fun c hc => hbehind c (List.mem_reverse.mp hc)]
      rfl
    have hhead : isBlank c = false := h.1 c rfl
    have hstart : trimStart (c :: cs ++ behind) = c :: cs ++ behind :=
      trimStart_eq_self fun d hd => by
        cases hd
        exact hhead
    rw [trim, hstart, trimEnd_append h.2, hend, List.append_nil]

theorem trim_append_blank {cs behind : List Char} (h : ∀ c ∈ behind, isBlank c = true) :
    trim (cs ++ behind) = trim cs := by
  obtain ⟨before, behind', hbefore, hbehind', he⟩ := trim_eq cs
  have hblank : ∀ c ∈ behind' ++ behind, isBlank c = true := by
    intro c hc
    rcases List.mem_append.mp hc with hc | hc
    · exact hbehind' c hc
    · exact h c hc
  have hcs : cs ++ behind = before ++ trim cs ++ (behind' ++ behind) := by
    rw [← List.append_assoc, ← he]
  rw [hcs, (trimmed_trim cs).trim_between hbefore hblank]

theorem blank_of_mem_head?_append {cs ds : List Char}
    (h : ∀ c ∈ (cs ++ ds).head?, isBlank c = true) : ∀ c ∈ cs.head?, isBlank c = true := by
  intro c hc
  apply h
  rw [List.head?_append, show cs.head? = some c from hc]
  rfl

theorem splitWord_eq {word rest : List Char} (hw : ∀ c ∈ word, isBlank c = false)
    (hr : ∀ c ∈ rest.head?, isBlank c = true) : splitWord (word ++ rest) = (word, rest) := by
  have hw : ∀ c ∈ word, (!isBlank c) = true := by simpa using hw
  rw [splitWord, List.takeWhile_append_of_pos hw, List.dropWhile_append_of_pos hw]
  cases rest with
  | nil => simp
  | cons c rest => simp [hr c rfl]

def IsWord (word : List Char) : Prop :=
  word ≠ [] ∧ ∀ c ∈ word, isBlank c = false

theorem nextWord?_eq {before word rest : List Char} (hb : ∀ c ∈ before, isBlank c = true)
    (hw : IsWord word) (hr : ∀ c ∈ rest.head?, isBlank c = true) :
    nextWord? (before ++ (word ++ rest)) = some (word, rest) := by
  obtain ⟨c, cs, rfl⟩ := List.exists_cons_of_ne_nil hw.1
  have hs : trimStart (before ++ (c :: cs ++ rest)) = c :: cs ++ rest := by
    rw [trimStart, List.dropWhile_append_of_pos hb]
    exact trimStart_eq_self fun d hd => by
      cases hd
      exact hw.2 c List.mem_cons_self
  rw [nextWord?, hs]
  exact congrArg some (splitWord_eq hw.2 hr)

theorem eq_of_nextWord? {cs word rest : List Char} (h : nextWord? cs = some (word, rest)) :
    ∃ before, (∀ c ∈ before, isBlank c = true) ∧ IsWord word ∧
      (∀ c ∈ rest.head?, isBlank c = true) ∧ cs = before ++ (word ++ rest) := by
  obtain ⟨before, hb, hs⟩ := trimStart_eq cs
  unfold nextWord? at h
  split at h
  next => cases h
  next c tail he =>
    cases h
    have hc : isBlank c = false := head?_trimStart cs (by rw [he]; rfl)
    refine ⟨before, hb, ⟨by simp [hc], ?_⟩, ?_, ?_⟩
    · intro d hd
      simpa using List.all_eq_true.mp List.all_takeWhile d hd
    · intro d hd
      have := List.head?_dropWhile_not (!isBlank ·) (c :: tail)
      rw [show ((c :: tail).dropWhile (!isBlank ·)).head? = some d from hd] at this
      simpa using this
    · rw [List.takeWhile_append_dropWhile, ← he, ← hs]

end MethodBody
