import MethodBody.Text.Blank

namespace MethodBody

/-- Collects the text before the first `//` outside of a literal behind the reversed start. -/
def codeOnto : Bool → List Char → List Char → List Char
  | _, kept, [] => kept.reverse
  | true, kept, '\\' :: c :: cs => codeOnto true (c :: '\\' :: kept) cs
  | true, kept, c :: cs => codeOnto (c != '"') (c :: kept) cs
  | false, kept, '/' :: '/' :: _ => kept.reverse
  | false, kept, c :: cs => codeOnto (c == '"') (c :: kept) cs

def beforeComment (line : List Char) : List Char :=
  codeOnto false [] line

/-- What a line holds besides outer blanks and a comment, if it is anything. -/
def effectiveLine? (line : List Char) : Option (List Char) :=
  match trim (beforeComment line) with
  | [] => none
  | c :: cs => some (c :: cs)

/-- The lines that hold more than blanks and comments, numbered from one. -/
def effectiveLines (text : List Char) : List (Nat × List Char) :=
  ((text.splitOn '\n').zipIdx 1).filterMap fun (line, n) => (effectiveLine? line).map (n, ·)

end MethodBody
