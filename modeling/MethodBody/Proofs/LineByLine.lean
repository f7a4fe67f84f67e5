import MethodBody.Proofs.Joining

namespace MethodBody

/-- The instruction on a line, if there is one. -/
def readLine (locals : Locals) (raw : List Char) : Except Fault (List Instruction) :=
  match effectiveLine? raw with
  | none => .ok []
  | some line =>
    match directive? line with
    | some _ => .ok []
    | none => (readInstruction locals line).map ([·])

section ReadLine

variable {locals : Locals} {raw line args : List Char}

theorem readLine_of_none (h : effectiveLine? raw = none) : readLine locals raw = .ok [] := by
  rw [readLine, h]

theorem readLine_of_directive (h : effectiveLine? raw = some line)
    (hd : directive? line = some args) : readLine locals raw = .ok [] := by
  rw [readLine, h]
  simp only [hd]

theorem readLine_of_instruction (h : effectiveLine? raw = some line) (hd : directive? line = none) :
    readLine locals raw = (readInstruction locals line).map ([·]) := by
  rw [readLine, h]
  simp only [hd]

end ReadLine

theorem readCode_singleton (locals : Locals) {raw : List Char} (h : '\n' ∉ raw) :
    readCode locals (String.ofList raw) = (readLine locals raw).mapError (.atLine 1) := by
  have hread : readCode locals (String.ofList raw) =
      readEach (readInstruction locals) (codeLines (String.ofList raw)) := rfl
  have hlines : effectiveLines raw = ((effectiveLine? raw).map (1, ·)).toList := by
    rw [effectiveLines, List.splitOn_eq_singleton h]
    cases hline : effectiveLine? raw <;> simp [hline]
  rw [hread, codeLines, String.toList_ofList, hlines, readLine]
  cases effectiveLine? raw with
  | none => rfl
  | some line =>
    simp only [Option.map_some, Option.toList_some, List.filter_cons, List.filter_nil]
    cases directive? line with
    | some args => rfl
    | none =>
      refine (readEach_cons (readInstruction locals) 1 line []).trans ?_
      cases readInstruction locals line <;> rfl

/-- A text is read line by line, and an error hides all lines below. -/
theorem readCode_line (locals : Locals) {raw : List Char} (h : '\n' ∉ raw) (text : List Char) :
    readCode locals (String.ofList (raw ++ '\n' :: text)) = (do
      let x ← (readLine locals raw).mapError (.atLine 1)
      let y ← (readCode locals (String.ofList text)).mapError (Error.below 1)
      return x ++ y) := by
  have htext : String.ofList (raw ++ '\n' :: text) =
      String.ofList raw ++ "\n" ++ String.ofList text := by
    rw [← String.toList_inj]
    simp
  rw [htext, readCode_join, readCode_singleton locals h, String.toList_ofList,
    List.count_eq_zero.mpr h]

/-- The carriage return of a line end makes no difference. -/
theorem readCode_lineEnd (locals : Locals) {line ending : List Char} (h : '\n' ∉ line)
    (hending : ending = ['\n'] ∨ ending = ['\r', '\n']) (text : List Char) :
    readCode locals (String.ofList (line ++ ending ++ text)) = (do
      let x ← (readLine locals line).mapError (.atLine 1)
      let y ← (readCode locals (String.ofList text)).mapError (Error.below 1)
      return x ++ y) := by
  rcases hending with rfl | rfl
  · rw [List.append_assoc]
    exact readCode_line locals h text
  · have hsame : readLine locals (line ++ ['\r']) = readLine locals line := by
      rw [readLine, readLine, effectiveLine?_concat rfl]
    have hreturn : '\n' ∉ line ++ ['\r'] := by simpa using h
    have htext : line ++ ['\r', '\n'] ++ text = (line ++ ['\r']) ++ '\n' :: text := by simp
    rw [htext, readCode_line locals hreturn, hsame]

end MethodBody
