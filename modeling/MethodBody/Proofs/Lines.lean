import MethodBody.Proofs.Blanks
import MethodBody.Proofs.Comments
import Mathlib.Data.List.Basic

namespace MethodBody

open LiteralState

theorem not_mem_of_mem_splitOn {text line : List Char} {c : Char} (h : line ∈ text.splitOn c) :
    c ∉ line := by
  induction text generalizing line with
  | nil =>
    rw [List.splitOn_nil, List.mem_singleton] at h
    simp [h]
  | cons d text ih =>
    rw [List.splitOn_cons_eq_if_modifyHead] at h
    split at h
    next =>
      rcases List.mem_cons.mp h with rfl | h
      · simp
      · exact ih h
    next hd =>
      obtain ⟨first, rest, he⟩ := List.exists_cons_of_ne_nil (List.splitOn_ne_nil c text)
      rw [he, List.modifyHead_cons] at h
      rcases List.mem_cons.mp h with rfl | h
      · have hdc : c ≠ d := by
          rintro rfl
          simp at hd
        simp [hdc, ih (by rw [he]; exact List.mem_cons_self)]
      · exact ih (by rw [he]; exact List.mem_cons_of_mem _ h)

theorem splitOn_flatMap {lines : List (List Char)} {c : Char} (h : ∀ line ∈ lines, c ∉ line) :
    (lines.flatMap fun line => line ++ [c]).splitOn c = lines ++ [[]] := by
  induction lines with
  | nil => rfl
  | cons line lines ih =>
    have hrest := ih fun l hl => h l (List.mem_cons_of_mem line hl)
    rw [List.flatMap_cons, List.append_assoc, List.singleton_append,
      List.splitOn_append_cons_self_of_not_mem (h line List.mem_cons_self), hrest]
    rfl

/-- A line that is left as it is when comments and outer blanks are taken away. -/
structure IsEffective (line : List Char) : Prop where
  ne_nil : line ≠ []
  trimmed : Trimmed line
  noComment : outside.NoComment line
  single : '\n' ∉ line

theorem IsWord.isEffective {word : List Char} (hw : IsWord word) (hc : outside.NoComment word) :
    IsEffective word := by
  have htrimmed : Trimmed word :=
    ⟨fun c h => hw.2 c (List.mem_of_mem_head? h), fun c h => hw.2 c (List.mem_of_mem_getLast? h)⟩
  have hsingle : '\n' ∉ word := fun hm => absurd (hw.2 '\n' hm) (by decide)
  exact ⟨hw.1, htrimmed, hc, hsingle⟩

theorem effectiveLine?_eq_some {raw line : List Char} (h : trim (beforeComment raw) = line)
    (hne : line ≠ []) : effectiveLine? raw = some line := by
  obtain ⟨c, cs, rfl⟩ := List.exists_cons_of_ne_nil hne
  rw [effectiveLine?, h]

theorem IsEffective.effectiveLine?_eq {line : List Char} (h : IsEffective line) :
    effectiveLine? line = some line := by
  refine effectiveLine?_eq_some ?_ h.ne_nil
  rw [beforeComment_eq_self h.noComment, h.trimmed.trim_eq]

/-- A blank at the end of a line makes no difference, such as a carriage return. -/
theorem effectiveLine?_concat {line : List Char} {c : Char} (h : isBlank c = true) :
    effectiveLine? (line ++ [c]) = effectiveLine? line := by
  have hc : c ≠ '/' := by
    rintro rfl
    cases h
  have htrim : trim (beforeComment (line ++ [c])) = trim (beforeComment line) := by
    rcases (beforeComment_isCode line).concat hc with hcode | hcode
    · rw [(beforeComment_isCode (line ++ [c])).unique hcode]
    · rw [(beforeComment_isCode (line ++ [c])).unique hcode,
        trim_append_blank (List.forall_mem_singleton.mpr h)]
  rw [effectiveLine?, effectiveLine?, htrim]

theorem eq_trim_of_effectiveLine? {raw line : List Char} (h : effectiveLine? raw = some line) :
    line = trim (beforeComment raw) ∧ line ≠ [] := by
  unfold effectiveLine? at h
  split at h
  next => cases h
  next he =>
    cases h
    exact ⟨he.symm, by simp⟩

theorem noComment_trim {cs : List Char} (h : outside.NoComment cs) :
    outside.NoComment (trim cs) := by
  obtain ⟨before, behind, hb, _, he⟩ := trim_eq cs
  have hq : '"' ∉ before := fun hm => absurd (hb _ hm) (by decide)
  rw [he, List.append_assoc] at h
  have hrest := h.behind
  rw [after_outside hq] at hrest
  exact hrest.of_append

def plainLines (text : List Char) : List (List Char) :=
  (text.splitOn '\n').filterMap effectiveLine?

theorem map_snd_effectiveLines (text : List Char) :
    (effectiveLines text).map Prod.snd = plainLines text := by
  have hsnd : (fun p : List Char × Nat => ((effectiveLine? p.1).map (p.2, ·)).map Prod.snd) =
      fun p => effectiveLine? p.1 := by
    funext p
    simp [Option.map_map, Function.comp_def]
  have hfst := List.zipIdx_map_fst 1 (text.splitOn '\n')
  calc (effectiveLines text).map Prod.snd
      = ((text.splitOn '\n').zipIdx 1).filterMap fun p => effectiveLine? p.1 := by
        rw [effectiveLines, List.map_filterMap, hsnd]
    _ = (((text.splitOn '\n').zipIdx 1).map Prod.fst).filterMap effectiveLine? := by
        rw [List.filterMap_map]
        rfl
    _ = plainLines text := by rw [hfst, plainLines]

/-- The number of an effective line is that of the line it is left from, counted from one. -/
theorem exists_raw_of_mem_effectiveLines {text line : List Char} {n : Nat}
    (h : (n, line) ∈ effectiveLines text) :
    0 < n ∧ ∃ raw, (text.splitOn '\n')[n - 1]? = some raw ∧ effectiveLine? raw = some line := by
  obtain ⟨⟨raw, m⟩, hm, hline⟩ := List.mem_filterMap.mp h
  obtain ⟨hle, hraw⟩ := List.mem_zipIdx_iff_le_and_getElem?_sub.mp hm
  obtain ⟨l, hl, he⟩ := Option.map_eq_some_iff.mp hline
  cases he
  exact ⟨hle, raw, hraw, hl⟩

theorem isEffective_of_mem {text line : List Char} (h : line ∈ plainLines text) :
    IsEffective line := by
  obtain ⟨raw, hraw, hline⟩ := List.mem_filterMap.mp h
  obtain ⟨rfl, hne⟩ := eq_trim_of_effectiveLine? hline
  have hsingle := not_mem_of_mem_splitOn hraw
  refine ⟨hne, trimmed_trim _, noComment_trim (beforeComment_isCode raw).noComment, ?_⟩
  exact fun hm => hsingle (mem_of_mem_beforeComment (mem_of_mem_trim hm))

/-- Effective lines, each closed by a line feed, are read as they are. -/
theorem plainLines_flatMap {lines : List (List Char)} (h : ∀ line ∈ lines, IsEffective line) :
    plainLines (lines.flatMap fun line => line ++ ['\n']) = lines := by
  have hkeep : ∀ line ∈ lines, effectiveLine? line = some line := fun line hl =>
    (h line hl).effectiveLine?_eq
  have hlast : effectiveLine? [] = none := rfl
  rw [plainLines, splitOn_flatMap fun line hl => (h line hl).single, List.filterMap_append,
    List.filterMap_congr hkeep, List.filterMap_some]
  simp [hlast]

end MethodBody
