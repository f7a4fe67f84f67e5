import MethodBody.Proofs.Numerals
import MethodBody.ReportFormat
import Mathlib.Data.List.Forall2

namespace MethodBody

/-- The JSON values that reports are made of. -/
inductive JsonValue where
  | null
  | number (n : Nat)
  | string (s : String)
  | array (elements : List JsonValue)
  | object (members : List (String × JsonValue))

/-- The ways to write a character within a JSON string. -/
inductive JsonCharText : Char → List Char → Prop
  | plain {c : Char} (hquote : c ≠ '"') (hbackslash : c ≠ '\\') (hcontrol : 0x20 ≤ c.toNat) :
    JsonCharText c [c]
  | quote : JsonCharText '"' ['\\', '"']
  | backslash : JsonCharText '\\' ['\\', '\\']
  | backspace : JsonCharText '\x08' ['\\', 'b']
  | tab : JsonCharText '\t' ['\\', 't']
  | lineFeed : JsonCharText '\n' ['\\', 'n']
  | formFeed : JsonCharText '\x0c' ['\\', 'f']
  | carriageReturn : JsonCharText '\r' ['\\', 'r']
  | code {c : Char} {digits : List Char} (hlength : digits.length = 4)
    (hdigits : readDigits 16 0 digits = some c.toNat) : JsonCharText c ('\\' :: 'u' :: digits)

/-- Texts of one thing or more, with a comma between any two. -/
inductive CommaSeparated {α : Type} (IsText : α → List Char → Prop) : List α → List Char → Prop
  | single {x : α} {text : List Char} (h : IsText x text) : CommaSeparated IsText [x] text
  | cons {x : α} {xs : List α} {text rest : List Char} (h : IsText x text)
    (hrest : CommaSeparated IsText xs rest) : CommaSeparated IsText (x :: xs) (text ++ ',' :: rest)

/-- Texts that a JSON value may stand between. -/
def JsonBlank (text : List Char) : Prop := ∀ c ∈ text, c ∈ [' ', '\n', '\r', '\t']

@[simp] theorem jsonBlank_nil : JsonBlank [] :=
  List.forall_mem_nil _

@[simp] theorem jsonBlank_cons {c : Char} {text : List Char} :
    JsonBlank (c :: text) ↔ c ∈ [' ', '\n', '\r', '\t'] ∧ JsonBlank text :=
  List.forall_mem_cons

mutual

/-- The text of a JSON value, which may stand between blanks. -/
inductive JsonText : JsonValue → List Char → Prop
  | null : JsonText .null "null".toList
  | number (n : Nat) : JsonText (.number n) (decimal n)
  | string {s : String} {parts : List (List Char)} (h : List.Forall₂ JsonCharText s.toList parts) :
    JsonText (.string s) ('"' :: parts.flatten ++ ['"'])
  | emptyArray : JsonText (.array []) ['[', ']']
  | array {elements : List JsonValue} {text : List Char}
    (h : CommaSeparated JsonText elements text) : JsonText (.array elements) ('[' :: text ++ [']'])
  | object {members : List (String × JsonValue)} {text : List Char}
    (h : CommaSeparated JsonMember members text) :
    JsonText (.object members) ('\x7b' :: text ++ ['\x7d'])
  | spaced {v : JsonValue} {text : List Char} (before behind : List Char) (h : JsonText v text)
    (hbefore : JsonBlank before) (hbehind : JsonBlank behind) :
    JsonText v (before ++ text ++ behind)

inductive JsonMember : String × JsonValue → List Char → Prop
  | mk {name : String} {v : JsonValue} {nameText text : List Char}
    (hname : JsonText (.string name) nameText) (hvalue : JsonText v text) :
    JsonMember (name, v) (nameText ++ ':' :: text)

end

theorem jsonCharText_jsonChar (c : Char) : JsonCharText c (jsonChar c) := by
  unfold jsonChar
  split
  next => exact .quote
  next => exact .backslash
  next => exact .backspace
  next => exact .tab
  next => exact .lineFeed
  next => exact .formFeed
  next => exact .carriageReturn
  next hquote hbackslash _ _ _ _ _ =>
    by_cases hcontrol : c.toNat < 0x20
    · have hdigits := readDigits_hexDigits 4 c.toNat 0
      have hsmall : c.toNat % 16 ^ 4 = c.toNat := Nat.mod_eq_of_lt (by omega)
      rw [Nat.mul_zero, Nat.zero_add, hsmall] at hdigits
      rw [if_pos hcontrol]
      exact .code (length_hexDigits 4 c.toNat) hdigits
    · rw [if_neg hcontrol]
      exact .plain hquote hbackslash (Nat.le_of_not_lt hcontrol)

theorem jsonText_jsonString (s : String) : JsonText (.string s) (jsonString s).toList := by
  have hparts : List.Forall₂ JsonCharText s.toList (s.toList.map jsonChar) := by
    rw [List.forall₂_map_right_iff]
    exact List.forall₂_same.mpr fun c _ => jsonCharText_jsonChar c
  have htext : (jsonString s).toList = '"' :: (s.toList.map jsonChar).flatten ++ ['"'] := by
    simp [jsonString, List.flatMap_def]
  rw [htext]
  exact .string hparts

/-- Blanks around a member belong to its name and to its value. -/
theorem JsonMember.spaced {m : String × JsonValue} {text : List Char} (before behind : List Char)
    (h : JsonMember m text) (hbefore : JsonBlank before) (hbehind : JsonBlank behind) :
    JsonMember m (before ++ text ++ behind) := by
  cases h with
  | @mk name v nameText text hname hvalue =>
    have hname' := JsonText.spaced before [] hname hbefore (by simp)
    have hvalue' := JsonText.spaced [] behind hvalue (by simp) hbehind
    have hmember := JsonMember.mk hname' hvalue'
    simpa using hmember

/-- A line for each element, with a comma at the end of all lines but the last. -/
theorem commaSeparated_lines {α : Type} {IsText : α → List Char → Prop} (behind : List Char)
    (hspaced : ∀ {x text} (before behind), IsText x text → JsonBlank before → JsonBlank behind →
      IsText x (before ++ text ++ behind))
    (hbehind : JsonBlank behind) {x : α} {xs : List α} {text : List Char}
    {texts : List (List Char)} (h : IsText x text) (hrest : List.Forall₂ IsText xs texts) :
    CommaSeparated IsText (x :: xs)
      (['\n'] ++ [',', '\n'].intercalate (text :: texts) ++ behind) := by
  have hline : JsonBlank ['\n'] := by simp
  induction hrest generalizing x text with
  | nil =>
    rw [List.intercalate_singleton]
    exact .single (hspaced _ _ h hline hbehind)
  | @cons y text' ys texts hy hrest ih =>
    have hx := hspaced ['\n'] [] h hline (by simp)
    have hall := CommaSeparated.cons hx (ih hy)
    rw [List.intercalate_cons_cons]
    simpa using hall

/-- What an entry of a report stands for. -/
def ReportEntry.value (e : ReportEntry) : JsonValue :=
  .object [("complement_bytes", .string (String.ofList (hexText e.complementBytes))),
    ("index", .number e.position),
    ("load", .string e.load),
    ("slot", (e.slot.map fun n => JsonValue.number n.toNat).getD .null),
    ("source", .string e.source.word),
    ("store", .string e.store)]

theorem jsonMember_line {v : JsonValue} {text : String} (name : String)
    (h : JsonText v text.toList) :
    JsonMember (name, v) ("    " ++ jsonString name ++ ": " ++ text).toList := by
  have hvalue := JsonText.spaced [' '] [] h (by simp) (by simp)
  have hmember := JsonMember.mk (jsonText_jsonString name) hvalue
  have hline := hmember.spaced "    ".toList [] (by simp) (by simp)
  simpa using hline

theorem jsonText_jsonNumber (n : Nat) : JsonText (.number n) (jsonNumber n).toList := by
  rw [jsonNumber, String.toList_ofList]
  exact .number n

theorem jsonText_slot (slot : Option UInt16) :
    JsonText ((slot.map fun n => JsonValue.number n.toNat).getD .null)
      ((slot.map fun n => jsonNumber n.toNat).getD "null").toList := by
  cases slot with
  | none => exact .null
  | some n => exact jsonText_jsonNumber n.toNat

theorem jsonText_entry (e : ReportEntry) : JsonText e.value e.json.toList := by
  have hbytes := jsonText_jsonString (String.ofList (hexText e.complementBytes))
  have hmembers := commaSeparated_lines "\n  ".toList JsonMember.spaced (by simp)
    (jsonMember_line "complement_bytes" hbytes)
    (.cons (jsonMember_line "index" (jsonText_jsonNumber e.position))
      (.cons (jsonMember_line "load" (jsonText_jsonString e.load))
        (.cons (jsonMember_line "slot" (jsonText_slot e.slot))
          (.cons (jsonMember_line "source" (jsonText_jsonString e.source.word))
            (.cons (jsonMember_line "store" (jsonText_jsonString e.store)) .nil)))))
  have hobject := JsonText.spaced "  ".toList [] (.object hmembers) (by simp) (by simp)
  have htext : e.json.toList = "  ".toList ++ ('\x7b' :: (['\n'] ++ [',', '\n'].intercalate
      (e.members.map fun m => ("    " ++ jsonString m.1 ++ ": " ++ m.2).toList) ++
        "\n  ".toList) ++ ['\x7d']) ++ [] := by
    simp [ReportEntry.json, String.toList_intercalate, Function.comp_def]
  rw [htext]
  exact hobject

/-- The text of a report is the JSON text of its entries. -/
theorem jsonText_jsonReport (entries : List ReportEntry) :
    JsonText (.array (entries.map ReportEntry.value)) (jsonReport entries).toList := by
  cases entries with
  | nil => exact .emptyArray
  | cons e es =>
    have hrest : List.Forall₂ JsonText (es.map ReportEntry.value)
        (es.map fun e => e.json.toList) := by
      rw [List.forall₂_map_left_iff, List.forall₂_map_right_iff]
      exact List.forall₂_same.mpr fun e _ => jsonText_entry e
    have hentries := commaSeparated_lines ['\n'] JsonText.spaced (by simp)
      (jsonText_entry e) hrest
    have htext : (jsonReport (e :: es)).toList = '[' :: (['\n'] ++ [',', '\n'].intercalate
        (e.json.toList :: es.map fun e => e.json.toList) ++ ['\n']) ++ [']'] := by
      simp [jsonReport, String.toList_intercalate, Function.comp_def]
    rw [htext]
    exact .array hentries

end MethodBody
