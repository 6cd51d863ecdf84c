/-!
# JSON text

JSON values and their two written forms: without white space (`Json.compact`), and with one element
or field to a line (`Json.pretty`). Fields keep the order in which they are given.
-/

namespace TensorLowering

/-- A JSON value whose numbers are integers. -/
inductive Json where
  | null
  | number (n : Int)
  | string (s : String)
  | array (items : List Json)
  | object (fields : List (String × Json))

namespace Json

/-! ## Strings -/

/-- A hexadecimal digit. -/
def hexDigit (n : Nat) : Char := (Nat.toDigits 16 (n % 16)).headD '0'

/-- A character inside a JSON string. Quotation marks, backslashes and the characters below the
space are escaped; everything else stands for itself. -/
def escaped (ch : Char) : List Char :=
  if ch = '"' then ['\\', '"']
  else if ch = '\\' then ['\\', '\\']
  else if ch = '\x08' then ['\\', 'b']
  else if ch = '\x0c' then ['\\', 'f']
  else if ch = '\n' then ['\\', 'n']
  else if ch = '\r' then ['\\', 'r']
  else if ch = '\t' then ['\\', 't']
  else if ch.toNat < 0x20 then
    ['\\', 'u', '0', '0', hexDigit (ch.toNat / 16), hexDigit ch.toNat]
  else [ch]

/-- A text as a JSON string. -/
def quoted (s : String) : String := "\"" ++ String.ofList (s.toList.flatMap escaped) ++ "\""

/-! ## Compact form -/

mutual

/-- The value without white space. -/
def compact : Json → String
  | null => "null"
  | number n => toString n
  | string s => quoted s
  | array items => "[" ++ ",".intercalate (compactItems items) ++ "]"
  | object fields => "\x7b" ++ ",".intercalate (compactFields fields) ++ "\x7d"

/-- The elements of an array. -/
def compactItems : List Json → List String
  | [] => []
  | item :: rest => item.compact :: compactItems rest

/-- The fields of an object. -/
def compactFields : List (String × Json) → List String
  | [] => []
  | (key, value) :: rest => (quoted key ++ ":" ++ value.compact) :: compactFields rest

end

/-! ## Pretty form -/

/-- The start of a line, with two spaces for each level of nesting. -/
def lineStart (depth : Nat) : String := "\n" ++ String.ofList (List.replicate (2 * depth) ' ')

/-- Lines between brackets; nothing between them when there is no line. -/
def block (opening closing : String) (depth : Nat) (lines : List String) : String :=
  if lines.isEmpty then opening ++ closing
  else
    opening ++ ",".intercalate (lines.map (lineStart (depth + 1) ++ ·)) ++ lineStart depth
      ++ closing

mutual

/-- The value with one element or field to a line, at a level of nesting. -/
def pretty (depth : Nat) : Json → String
  | null => "null"
  | number n => toString n
  | string s => quoted s
  | array items => block "[" "]" depth (prettyItems (depth + 1) items)
  | object fields => block "\x7b" "\x7d" depth (prettyFields (depth + 1) fields)

/-- The elements of an array. -/
def prettyItems (depth : Nat) : List Json → List String
  | [] => []
  | item :: rest => item.pretty depth :: prettyItems depth rest

/-- The fields of an object. -/
def prettyFields (depth : Nat) : List (String × Json) → List String
  | [] => []
  | (key, value) :: rest =>
    (quoted key ++ ": " ++ value.pretty depth) :: prettyFields depth rest

end

end Json

end TensorLowering
