import MethodBody.Text.Line
import Mathlib.Data.List.Basic

namespace MethodBody

/-- Where a character stands: outside of literals, inside of one, or there behind a backslash. -/
inductive LiteralState where
  | outside
  | inside
  | escaped
deriving DecidableEq

namespace LiteralState

def next : LiteralState → Char → LiteralState
  | outside, c => if c = '"' then inside else outside
  | inside, c => if c = '"' then outside else if c = '\\' then escaped else inside
  | escaped, _ => inside

def after (s : LiteralState) (cs : List Char) : LiteralState :=
  cs.foldl next s

@[simp] theorem after_nil (s : LiteralState) : s.after [] = s :=
  rfl

@[simp] theorem after_cons (s : LiteralState) (c : Char) (cs : List Char) :
    s.after (c :: cs) = (s.next c).after cs :=
  rfl

@[simp] theorem after_append (s : LiteralState) (cs ds : List Char) :
    s.after (cs ++ ds) = (s.after cs).after ds :=
  List.foldl_append

/-- Text that begins in the state and holds no comment marker outside of a literal. -/
def NoComment (s : LiteralState) (cs : List Char) : Prop :=
  ∀ a b, cs = a ++ '/' :: '/' :: b → s.after a ≠ outside

theorem NoComment.of_append {s : LiteralState} {cs ds : List Char} (h : s.NoComment (cs ++ ds)) :
    s.NoComment cs := by
  rintro a b rfl
  exact h a (b ++ ds) (by simp)

theorem NoComment.behind {s : LiteralState} {cs ds : List Char} (h : s.NoComment (cs ++ ds)) :
    (s.after cs).NoComment ds := by
  rintro a b rfl
  simpa using h (cs ++ a) b (by simp)

theorem NoComment.cons {s : LiteralState} {c : Char} {cs : List Char}
    (h : (s.next c).NoComment cs) (hm : s = outside → c = '/' → cs.head? ≠ some '/') :
    s.NoComment (c :: cs) := by
  intro a b he hs
  cases a with
  | nil =>
    obtain ⟨rfl, rfl⟩ := List.cons.inj he
    exact hm hs rfl rfl
  | cons d a =>
    obtain ⟨rfl, rfl⟩ := List.cons.inj he
    exact h a b rfl hs

theorem noComment_of_not_mem {s : LiteralState} {cs : List Char} (h : '/' ∉ cs) :
    s.NoComment cs := by
  rintro a b rfl
  simp at h

/-- A marker could only arise across the border from a slash on either side of it. -/
theorem NoComment.append {s : LiteralState} {cs ds : List Char} (hc : s.NoComment cs)
    (hd : (s.after cs).NoComment ds) (hm : ds.head? ≠ some '/') : s.NoComment (cs ++ ds) := by
  induction cs generalizing s with
  | nil => exact hd
  | cons c cs ih =>
    have hrest : (s.next c).NoComment (cs ++ ds) :=
      ih (show s.NoComment ([c] ++ cs) from hc).behind hd
    refine hrest.cons fun hs hslash => ?_
    subst hs hslash
    cases cs with
    | nil => exact hm
    | cons d cs =>
      intro hhead
      cases hhead
      exact hc [] cs rfl rfl

theorem after_outside {cs : List Char} (h : '"' ∉ cs) : outside.after cs = outside := by
  induction cs with
  | nil => rfl
  | cons c cs ih =>
    have hc : c ≠ '"' := fun he => h (by simp [he])
    simp [next, hc, ih fun hm => h (List.mem_cons_of_mem c hm)]

end LiteralState

open LiteralState

def LiteralState.ofQuoted : Bool → LiteralState
  | true => inside
  | false => outside

theorem LiteralState.next_outside (c : Char) : outside.next c = ofQuoted (c == '"') := by
  by_cases hq : c = '"'
  · rw [hq]
    rfl
  · rw [next, if_neg hq, beq_false_of_ne hq]
    rfl

theorem LiteralState.next_inside {c : Char} (h : c ≠ '\\') :
    inside.next c = ofQuoted (c != '"') := by
  by_cases hq : c = '"'
  · rw [hq]
    rfl
  · rw [next, if_neg hq, if_neg h, bne_iff_ne.mpr hq]
    rfl

/-- The text goes up to the leftmost comment marker outside of a literal, or to the end. -/
structure IsCode (s : LiteralState) (line code : List Char) : Prop where
  cut : line = code ∨ ∃ comment, line = code ++ '/' :: '/' :: comment ∧ s.after code = outside
  leftmost : ∀ a b, line = a ++ '/' :: '/' :: b → s.after a = outside → code.length ≤ a.length

theorem IsCode.cons {s : LiteralState} {c : Char} {line code : List Char}
    (h : IsCode (s.next c) line code) (hm : s = outside → c = '/' → line.head? ≠ some '/') :
    IsCode s (c :: line) (c :: code) := by
  constructor
  · rcases h.cut with he | ⟨comment, he, hs⟩
    · exact Or.inl (by rw [he])
    · exact Or.inr ⟨comment, by rw [he]; rfl, hs⟩
  · intro a b he hs
    cases a with
    | nil =>
      obtain ⟨rfl, rfl⟩ := List.cons.inj he
      exact absurd rfl (hm hs rfl)
    | cons d a =>
      obtain ⟨rfl, hline⟩ := List.cons.inj he
      exact Nat.succ_le_succ (h.leftmost a b hline hs)

theorem IsCode.nil (s : LiteralState) : IsCode s [] [] :=
  ⟨.inl rfl, by simp⟩

theorem codeOnto_isCode (quoted : Bool) (kept line : List Char) :
    ∃ code, codeOnto quoted kept line = kept.reverse ++ code ∧
      IsCode (ofQuoted quoted) line code := by
  fun_induction codeOnto quoted kept line with
  | case1 quoted kept => exact ⟨[], by simp, .nil _⟩
  | case2 kept c line ih =>
    obtain ⟨code, he, hc⟩ := ih
    refine ⟨'\\' :: c :: code, by simpa using he, ?_⟩
    exact IsCode.cons (s := inside) (IsCode.cons (s := escaped) hc (by simp)) (by simp)
  | case3 kept c line hn ih =>
    obtain ⟨code, he, hc⟩ := ih
    refine ⟨c :: code, by simpa using he, IsCode.cons ?_ (by simp [ofQuoted])⟩
    by_cases hb : c = '\\'
    · -- The backslash is the last character, or the case before would have taken it.
      cases line with
      | cons d line => exact absurd rfl (hn d line hb)
      | nil =>
        cases code with
        | nil => exact .nil _
        | cons d code => rcases hc.cut with hc | ⟨_, hc, _⟩ <;> cases hc
    · rwa [ofQuoted, next_inside hb]
  | case4 kept line => exact ⟨[], by simp, .inr ⟨line, rfl, rfl⟩, by simp⟩
  | case5 kept c line hn ih =>
    obtain ⟨code, he, hc⟩ := ih
    refine ⟨c :: code, by simpa using he, IsCode.cons ?_ ?_⟩
    · rwa [ofQuoted, next_outside]
    · rintro - hslash hhead
      obtain ⟨line, rfl⟩ := List.head?_eq_some_iff.mp hhead
      exact hn line hslash rfl

theorem beforeComment_isCode (line : List Char) : IsCode outside line (beforeComment line) := by
  obtain ⟨code, he, hc⟩ := codeOnto_isCode false [] line
  rw [beforeComment, he]
  exact hc

theorem IsCode.exists_append {s : LiteralState} {line code : List Char} (h : IsCode s line code) :
    ∃ comment, line = code ++ comment := by
  rcases h.cut with he | ⟨comment, he, _⟩
  · exact ⟨[], by simp [he]⟩
  · exact ⟨_, he⟩

/-- No marker is left in the code, since the leftmost one is where it ends. -/
theorem IsCode.noComment {s : LiteralState} {line code : List Char} (h : IsCode s line code) :
    s.NoComment code := by
  rintro a b rfl hs
  obtain ⟨comment, he⟩ := h.exists_append
  have := h.leftmost a (b ++ comment) (by simp [he]) hs
  simp only [List.length_append, List.length_cons] at this
  omega

/-- A line has no more than one text that goes up to its comment. -/
theorem IsCode.length_le {s : LiteralState} {line code code' : List Char} (h : IsCode s line code)
    (h' : IsCode s line code') : code.length ≤ code'.length := by
  rcases h'.cut with rfl | ⟨comment, he, hs⟩
  · obtain ⟨comment, rfl⟩ := h.exists_append
    rw [List.length_append]
    omega
  · exact h.leftmost code' comment he hs

theorem IsCode.unique {s : LiteralState} {line code code' : List Char} (h : IsCode s line code)
    (h' : IsCode s line code') : code = code' := by
  obtain ⟨comment, he⟩ := h.exists_append
  obtain ⟨comment', he'⟩ := h'.exists_append
  exact List.append_inj_left (he.symm.trans he') (Nat.le_antisymm (h.length_le h') (h'.length_le h))

theorem IsCode.append {s : LiteralState} {cs line code : List Char}
    (h : IsCode (s.after cs) line code) (hc : s.NoComment cs) (hlast : cs.getLast? ≠ some '/') :
    IsCode s (cs ++ line) (cs ++ code) := by
  induction cs generalizing s with
  | nil => exact h
  | cons c cs ih =>
    have hrest : (s.next c).NoComment cs := (show s.NoComment ([c] ++ cs) from hc).behind
    cases cs with
    | nil => exact IsCode.cons h fun _ hslash => absurd (congrArg some hslash) hlast
    | cons d cs =>
      refine IsCode.cons (ih h hrest (by simpa using hlast)) fun hs hslash hhead => ?_
      cases hhead
      exact hc [] cs (by rw [hslash]; rfl) hs

/-- A character at the end of a line belongs to the comment, if there is one. -/
theorem IsCode.concat {s : LiteralState} {line code : List Char} {c : Char}
    (h : IsCode s line code) (hc : c ≠ '/') :
    IsCode s (line ++ [c]) code ∨ IsCode s (line ++ [c]) (code ++ [c]) := by
  have hmarker : ∀ a b, line ++ [c] = a ++ '/' :: '/' :: b →
      ∃ b', line = a ++ '/' :: '/' :: b' := by
    intro a b he
    rcases List.eq_nil_or_concat b with rfl | ⟨b, d, rfl⟩
    · have hlast : c = '/' := by simpa using congrArg List.getLast? he
      exact absurd hlast hc
    · have hline : line ++ [c] = (a ++ '/' :: '/' :: b) ++ [d] := by simpa using he
      exact ⟨b, (List.append_inj' hline rfl).1⟩
  rcases h.cut with rfl | ⟨comment, he, hs⟩
  · refine .inr ⟨.inl rfl, ?_⟩
    intro a b he hs
    obtain ⟨b', he'⟩ := hmarker a b he
    exact absurd hs (h.noComment a b' he')
  · refine .inl ⟨.inr ⟨comment ++ [c], by rw [he]; simp, hs⟩, ?_⟩
    intro a b he hs
    obtain ⟨b', he'⟩ := hmarker a b he
    exact h.leftmost a b' he' hs

theorem beforeComment_eq_self {line : List Char} (h : outside.NoComment line) :
    beforeComment line = line := by
  rcases (beforeComment_isCode line).cut with he | ⟨comment, he, hs⟩
  · exact he.symm
  · exact absurd hs (h _ comment he)

theorem mem_of_mem_beforeComment {line : List Char} {c : Char} (h : c ∈ beforeComment line) :
    c ∈ line := by
  obtain ⟨comment, he⟩ := (beforeComment_isCode line).exists_append
  rw [he]
  exact List.mem_append_left _ h

/-- Text that leaves no literal open and has no comment, whatever text of its kind is beside it. -/
structure IsClosed (cs : List Char) : Prop where
  noComment : outside.NoComment cs
  after_eq : outside.after cs = outside
  head_ne : cs.head? ≠ some '/'
  last_ne : cs.getLast? ≠ some '/'

theorem IsClosed.append {cs ds : List Char} (h : IsClosed cs) (h' : IsClosed ds) :
    IsClosed (cs ++ ds) := by
  refine ⟨h.noComment.append ?_ h'.head_ne, ?_, ?_, ?_⟩
  · rw [h.after_eq]
    exact h'.noComment
  · rw [after_append, h.after_eq, h'.after_eq]
  · cases cs with
    | nil => exact h'.head_ne
    | cons c cs => exact h.head_ne
  · cases ds with
    | nil =>
      rw [List.append_nil]
      exact h.last_ne
    | cons d ds =>
      rw [List.getLast?_append_of_ne_nil _ (List.cons_ne_nil d ds)]
      exact h'.last_ne

theorem isClosed_of_not_mem {cs : List Char} (hs : '/' ∉ cs) (hq : '"' ∉ cs) : IsClosed cs :=
  ⟨noComment_of_not_mem hs, after_outside hq, fun h => hs (List.mem_of_head? h),
    fun h => hs (List.mem_of_getLast? h)⟩

/-- The comment of a line is found behind any closed text. -/
theorem IsClosed.beforeComment_append {cs : List Char} (h : IsClosed cs) (line : List Char) :
    beforeComment (cs ++ line) = cs ++ beforeComment line := by
  have hline : IsCode (outside.after cs) line (beforeComment line) := by
    rw [h.after_eq]
    exact beforeComment_isCode line
  exact (beforeComment_isCode (cs ++ line)).unique (hline.append h.noComment h.last_ne)

end MethodBody
