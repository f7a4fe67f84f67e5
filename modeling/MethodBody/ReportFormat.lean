import MethodBody.Report

namespace MethodBody

/-- A character within a JSON string. Only quotes, backslashes and control characters below the
blank are escaped. -/
def jsonChar (c : Char) : List Char :=
  match c with
  | '"' => ['\\', '"']
  | '\\' => ['\\', '\\']
  | '\x08' => ['\\', 'b']
  | '\t' => ['\\', 't']
  | '\n' => ['\\', 'n']
  | '\x0c' => ['\\', 'f']
  | '\r' => ['\\', 'r']
  | c => if c.toNat < 0x20 then '\\' :: 'u' :: hexDigits 4 c.toNat else [c]

def jsonString (s : String) : String :=
  "\"" ++ String.ofList (s.toList.flatMap jsonChar) ++ "\""

def jsonNumber (n : Nat) : String :=
  String.ofList (decimal n)

/-- The members of an entry, by increasing name. -/
def ReportEntry.members (e : ReportEntry) : List (String × String) :=
  [("complement_bytes", jsonString (String.ofList (hexText e.complementBytes))),
    ("index", jsonNumber e.position),
    ("load", jsonString e.load),
    ("slot", (e.slot.map fun n => jsonNumber n.toNat).getD "null"),
    ("source", jsonString e.source.word),
    ("store", jsonString e.store)]

/-- An object with a member on each line, as an element of the outermost array. -/
def ReportEntry.json (e : ReportEntry) : String :=
  let members := e.members.map fun (name, value) => "    " ++ jsonString name ++ ": " ++ value
  "  \x7b\n" ++ String.intercalate ",\n" members ++ "\n  \x7d"

/-- The array of the entries, which stays on one line if there are none. -/
def jsonReport (entries : List ReportEntry) : String :=
  if entries.isEmpty then "[]"
  else "[\n" ++ String.intercalate ",\n" (entries.map ReportEntry.json) ++ "\n]"

def printJson (sites : List Site) : Except Failure String :=
  (reportEntries sites).map jsonReport

def printText (sites : List Site) : String :=
  String.ofList (sites.flatMap Site.print)

end MethodBody
