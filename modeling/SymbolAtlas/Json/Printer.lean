/-
# SymbolAtlas.Json.Printer -- JSON text

`compress` writes a value on one line without blanks, `pretty` with one member or
item a line, two blanks a level.  Characters that mean something in HTML and the
two line separators are escaped, so that the text can stand anywhere.
-/
import SymbolAtlas.Json.Basic
import SymbolAtlas.Text.Quoted

set_option autoImplicit false

namespace SymbolAtlas.Json

/-- How one character of a string is written. -/
def escapeChar (c : Char) : String :=
  if c = '"' then "\\\"" else if c = '\\' then "\\\\"
  else if c = '\n' then "\\n" else if c = '\r' then "\\r" else if c = '\t' then "\\t"
  else if c = '\x08' then "\\b" else if c = '\x0c' then "\\f"
  else if c.toNat < 0x20 ∨ c = '<' ∨ c = '>' ∨ c = '&' ∨ c = '\u2028' ∨ c = '\u2029' then
    "\\u" ++ Text.hex 4 c.toNat
  else c.toString

/-- A string between double quotes. -/
def quote (s : String) : String :=
  (s.toList.foldl (fun out c => out ++ escapeChar c) "\"").push '"'

/-- A number; only whole ones are ever written. -/
def renderNumber (d : Decimal) : String :=
  if 0 ≤ d.scale then toString (d.digits * Nat.pow 10 d.scale.natAbs)
  else toString d.digits ++ "e" ++ toString d.scale

mutual

/-- The value on one line. -/
def compress : Json → String
  | .null => "null"
  | .bool true => "true"
  | .bool false => "false"
  | .num d => renderNumber d
  | .str s => quote s
  | .arr items => "[" ++ compressItems items ++ "]"
  | .obj members => "\x7b" ++ compressMembers members ++ "\x7d"

/-- Items with commas between them. -/
def compressItems : List Json → String
  | [] => ""
  | [item] => compress item
  | item :: rest => compress item ++ "," ++ compressItems rest

/-- Members with commas between them. -/
def compressMembers : List (String × Json) → String
  | [] => ""
  | [(key, value)] => quote key ++ ":" ++ compress value
  | (key, value) :: rest => quote key ++ ":" ++ compress value ++ "," ++ compressMembers rest

end

/-- A line break and the blanks of a level. -/
def newline (level : Nat) : String := "\n" ++ String.ofList (List.replicate (2 * level) ' ')

mutual

/-- The value with its parts on lines of their own. -/
def prettyAt (level : Nat) : Json → String
  | .arr (item :: rest) =>
      "[" ++ prettyItems (level + 1) (item :: rest) ++ newline level ++ "]"
  | .obj (entry :: rest) =>
      "\x7b" ++ prettyMembers (level + 1) (entry :: rest) ++ newline level ++ "\x7d"
  | .null => "null"
  | .bool true => "true"
  | .bool false => "false"
  | .num d => renderNumber d
  | .str s => quote s
  | .arr [] => "[]"
  | .obj [] => "\x7b\x7d"

/-- Items, each on its own line. -/
def prettyItems (level : Nat) : List Json → String
  | [] => ""
  | [item] => newline level ++ prettyAt level item
  | item :: rest => newline level ++ prettyAt level item ++ "," ++ prettyItems level rest

/-- Members, each on its own line. -/
def prettyMembers (level : Nat) : List (String × Json) → String
  | [] => ""
  | [(key, value)] => newline level ++ quote key ++ ": " ++ prettyAt level value
  | (key, value) :: rest =>
      newline level ++ quote key ++ ": " ++ prettyAt level value ++ "," ++
        prettyMembers level rest

end

/-- The value with two blanks a level. -/
def pretty (j : Json) : String := prettyAt 0 j

end SymbolAtlas.Json
