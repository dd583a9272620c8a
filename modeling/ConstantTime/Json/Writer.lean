/-
Writing JSON text.

Two forms: on one line with characters as they are, and over several lines in plain ASCII, where
each level is indented by two blanks and every other character is written by its code units.
-/
import ConstantTime.Json
import ConstantTime.Decimal.Layout
import ConstantTime.Text.CharClass

set_option autoImplicit false

namespace ConstantTime.Json

/-- A character by its UTF-16 code units. -/
def codeUnits (c : Char) : String :=
  let n := c.toNat
  if n < 0x10000 then "\\u" ++ Text.hex 4 n
  else
    "\\u" ++ Text.hex 4 (0xD800 + (n - 0x10000) / 0x400) ++
      "\\u" ++ Text.hex 4 (0xDC00 + (n - 0x10000) % 0x400)

/-- A character of a literal; with `ascii` nothing else is written. -/
def literalChar (ascii : Bool) (c : Char) : String :=
  if c == '"' then "\\\""
  else if c == '\\' then "\\\\"
  else if c == '\n' then "\\n"
  else if c == '\r' then "\\r"
  else if c == '\t' then "\\t"
  else if c.toNat = 8 then "\\b"
  else if c.toNat = 12 then "\\f"
  else if c.toNat < 0x20 then codeUnits c
  else if ascii && 0x7F ≤ c.toNat then codeUnits c
  else c.toString

/-- A text in quotes. -/
def literal (ascii : Bool) (s : String) : String :=
  "\"" ++ String.join (s.toList.map (literalChar ascii)) ++ "\""

mutual

/-- A value on one line. -/
def compact : Json → String
  | .null => "null"
  | .bool true => "true"
  | .bool false => "false"
  | .int n => toString n
  | .float x => Decimal.structured.write x
  | .str s => literal false s
  | .arr items => "[" ++ ",".intercalate (compactItems items) ++ "]"
  | .obj fields => "\x7b" ++ ",".intercalate (compactFields fields) ++ "\x7d"

def compactItems : List Json → List String
  | [] => []
  | v :: rest => compact v :: compactItems rest

def compactFields : List (String × Json) → List String
  | [] => []
  | (name, v) :: rest => (literal false name ++ ":" ++ compact v) :: compactFields rest

end

/-- A line break and the indentation of a level. -/
def newline (level : Nat) : String := "\n" ++ String.ofList (List.replicate (2 * level) ' ')

/-- Parts between brackets, each on a line of its own one level deeper. -/
def block (opening closing : String) (level : Nat) (parts : List String) : String :=
  if parts.isEmpty then opening ++ closing
  else
    opening ++ newline (level + 1) ++ ("," ++ newline (level + 1)).intercalate parts ++
      newline level ++ closing

mutual

/-- A value over several lines, starting at the given level. -/
def indented (level : Nat) : Json → String
  | .null => "null"
  | .bool true => "true"
  | .bool false => "false"
  | .int n => toString n
  | .float x => Decimal.structured.write x
  | .str s => literal true s
  | .arr items => block "[" "]" level (indentedItems (level + 1) items)
  | .obj fields => block "\x7b" "\x7d" level (indentedFields (level + 1) fields)

def indentedItems (level : Nat) : List Json → List String
  | [] => []
  | v :: rest => indented level v :: indentedItems level rest

def indentedFields (level : Nat) : List (String × Json) → List String
  | [] => []
  | (name, v) :: rest => (literal true name ++ ": " ++ indented level v) ::
    indentedFields level rest

end

end ConstantTime.Json
