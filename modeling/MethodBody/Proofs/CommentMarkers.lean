import MethodBody.Proofs.Comments
import MethodBody.Proofs.Success

namespace MethodBody

open LiteralState

/-- Two slashes stand next to each other from an index on, both outside of every literal. -/
def MarkerAt (cs : List Char) (i : Nat) : Prop :=
  (cs[i]? = some '/' ∧ outside.after (cs.take i) = outside) ∧
    cs[i + 1]? = some '/' ∧ outside.after (cs.take (i + 1)) = outside

instance (cs : List Char) (i : Nat) : Decidable (MarkerAt cs i) :=
  inferInstanceAs (Decidable ((_ ∧ _) ∧ _ ∧ _))

/-- No slash opens a literal, so the second one of a pair is outside if the first one is. -/
theorem markerAt_iff {line : List Char} {i : Nat} :
    MarkerAt line i ↔
      ∃ code comment, line = code ++ '/' :: '/' :: comment ∧ code.length = i ∧
        outside.after code = outside := by
  constructor
  · rintro ⟨⟨hfirst, hs⟩, hsecond, _⟩
    obtain ⟨code, behind, rfl, rfl⟩ := exists_append_of_getElem? hfirst
    rw [List.getElem?_append_right (Nat.le_succ _)] at hsecond
    have hhead : behind.head? = some '/' := by
      simpa [List.head?_eq_getElem?] using hsecond
    obtain ⟨comment, rfl⟩ := List.head?_eq_some_iff.mp hhead
    exact ⟨code, comment, rfl, rfl, by simpa using hs⟩
  · rintro ⟨code, comment, rfl, rfl, hs⟩
    have htake : (code ++ '/' :: '/' :: comment).take (code.length + 1) = code ++ ['/'] := by
      simp [List.take_length_add_append]
    refine ⟨⟨by simp, by simpa using hs⟩, by simp, ?_⟩
    rw [htake, after_append, hs]
    rfl

theorem MarkerAt.lt_length {line : List Char} {i : Nat} (h : MarkerAt line i) : i < line.length :=
  (List.getElem?_eq_some_iff.mp h.1.1).1

theorem IsCode.eq_take {line code : List Char} {i : Nat} (h : IsCode outside line code)
    (hi : MarkerAt line i) (hfirst : ∀ j < i, ¬MarkerAt line j) : code = line.take i := by
  obtain ⟨a, b, hline, rfl, hs⟩ := markerAt_iff.mp hi
  have hle : code.length ≤ a.length := h.leftmost a b hline hs
  rcases h.cut with he | ⟨comment, he, hcode⟩
  · have hlt := hi.lt_length
    rw [he] at hlt
    omega
  · have hge : a.length ≤ code.length :=
      Nat.le_of_not_lt fun hlt => hfirst _ hlt (markerAt_iff.mpr ⟨code, comment, he, rfl, hcode⟩)
    rw [Nat.le_antisymm hge hle, he, List.take_left]

theorem IsCode.eq_self {line code : List Char} (h : IsCode outside line code)
    (hnone : ∀ i, ¬MarkerAt line i) : code = line := by
  rcases h.cut with he | ⟨comment, he, hs⟩
  · exact he.symm
  · exact absurd (markerAt_iff.mpr ⟨code, comment, he, rfl, hs⟩) (hnone _)

/-- The number of bytes before the character at an index. -/
def byteIndex (cs : List Char) (i : Nat) : Nat :=
  (String.ofList (cs.take i)).utf8ByteSize

/-- A slash is one byte long. -/
theorem byteIndex_succ {cs : List Char} {i : Nat} (h : cs[i]? = some '/') :
    byteIndex cs (i + 1) = byteIndex cs i + 1 := by
  rw [byteIndex, List.take_add_one, h, String.ofList_append, String.utf8ByteSize_append]
  rfl

theorem exists_pos_splits {line code behind : List Char} (h : code ++ behind = line) :
    ∃ cut : (String.ofList line).Pos, cut.offset.byteIdx = (String.ofList code).utf8ByteSize ∧
      cut.Splits (String.ofList code) (String.ofList behind) := by
  subst h
  rw [String.ofList_append]
  exact ⟨_, rfl, String.Pos.splits_append_rawEndPos⟩

/-- A line is cut just before its leftmost comment marker outside of a literal, if it has one. -/
theorem beforeComment_leftmost (line : List Char) :
    (∀ i, MarkerAt line i → (∀ j < i, ¬MarkerAt line j) →
      beforeComment line = line.take i ∧
      ∃ cut : (String.ofList line).Pos, cut.offset.byteIdx = byteIndex line (i + 1) - 1 ∧
        cut.Splits (String.ofList (beforeComment line)) (String.ofList (line.drop i))) ∧
    ((∀ i, ¬MarkerAt line i) → beforeComment line = line) ∧
    (beforeComment line <+: line ∧ ∃ (cut : (String.ofList line).Pos) (behind : String),
      cut.Splits (String.ofList (beforeComment line)) behind) ∧
    beforeComment (beforeComment line) = beforeComment line := by
  have hcode := beforeComment_isCode line
  refine ⟨?_, hcode.eq_self, ?_, beforeComment_eq_self hcode.noComment⟩
  · intro i hi hfirst
    rw [hcode.eq_take hi hfirst, byteIndex_succ hi.1.1]
    exact ⟨rfl, exists_pos_splits (List.take_append_drop i line)⟩
  · obtain ⟨behind, he⟩ := hcode.exists_append
    obtain ⟨cut, _, hcut⟩ := exists_pos_splits he.symm
    exact ⟨⟨behind, he.symm⟩, cut, _, hcut⟩

/-- Neither the slashes in the literal nor the escaped quote matter. The letter before them takes
two bytes. -/
theorem beforeComment_leftmost_literal :
    (MarkerAt ['"', 'é', '/', '/', '\\', '"', '"', '/', '/', '/'] 7 ∧
      beforeComment ['"', 'é', '/', '/', '\\', '"', '"', '/', '/', '/'] =
        ['"', 'é', '/', '/', '\\', '"', '"'] ∧
      ∃ cut : (String.ofList ['"', 'é', '/', '/', '\\', '"', '"', '/', '/', '/']).Pos,
        cut.offset.byteIdx = 8) ∧
    beforeComment ['"', 'é', '/', '/', '\\', '"', '/', '/', '/'] =
      ['"', 'é', '/', '/', '\\', '"', '/', '/', '/'] := by
  have hmarker : MarkerAt ['"', 'é', '/', '/', '\\', '"', '"', '/', '/', '/'] 7 := by decide
  obtain ⟨hcode, cut, hcut, _⟩ := (beforeComment_leftmost _).1 7 hmarker (by decide)
  refine ⟨⟨hmarker, hcode, cut, hcut⟩, (beforeComment_leftmost _).2.1 ?_⟩
  intro i hi
  have hnone : ∀ j < 9, ¬MarkerAt ['"', 'é', '/', '/', '\\', '"', '/', '/', '/'] j := by decide
  exact hnone i hi.lt_length hi

end MethodBody
