/-
# SymbolAtlas.Text.Quoted -- a text between double quotes

Printable characters stand as they are, a quote and a backslash behind a
backslash, and everything else as an escape: one of seven letters, two
hexadecimal digits, four of them or eight.  `unquote?` reads such a text back; it
also knows octal escapes, and texts between back quotes, which have no escapes.
-/
import SymbolAtlas.Text.Printable
import SymbolAtlas.Text.Utf8

set_option autoImplicit false

namespace SymbolAtlas.Text

/-- A number in lower-case hexadecimal digits, with at least `width` of them. -/
def hex (width : Nat) (n : Nat) : String :=
  let digits := Nat.toDigits 16 n
  String.ofList (List.replicate (width - digits.length) '0' ++ digits)

namespace Quoted

/-- How one character is written. -/
def escape (c : Char) : String :=
  if c = '"' then "\\\"" else if c = '\\' then "\\\\"
  else if Printable.isPrintable c then c.toString
  else if c = '\x07' then "\\a" else if c = '\x08' then "\\b"
  else if c = '\x0c' then "\\f" else if c = '\n' then "\\n"
  else if c = '\r' then "\\r" else if c = '\t' then "\\t"
  else if c = '\x0b' then "\\v"
  else if c.toNat < 0x20 ∨ c.toNat = 0x7F then "\\x" ++ hex 2 c.toNat
  else if c.toNat < 0x10000 then "\\u" ++ hex 4 c.toNat
  else "\\U" ++ hex 8 c.toNat

/-- The text between double quotes. -/
def quote (text : String) : String := "\"" ++ String.join (text.toList.map escape) ++ "\""

/-- A character between single quotes. -/
def quoteChar (c : Char) : String :=
  "'" ++ (if c = '\'' then "\\'" else if c = '"' then "\"" else escape c) ++ "'"

/-- The value of a digit in some base up to sixteen. -/
def digit? (radix : Nat) (c : Char) : Option Nat :=
  let value :=
    if '0' ≤ c ∧ c ≤ '9' then c.toNat - 48
    else if 'a' ≤ c ∧ c ≤ 'f' then c.toNat - 87
    else if 'A' ≤ c ∧ c ≤ 'F' then c.toNat - 55
    else 16
  if value < radix then some value else none

/-- The number of exactly `count` digits, and what follows them. -/
def digits? (radix : Nat) : Nat → Nat → List Char → Option (Nat × List Char)
  | 0, value, rest => some (value, rest)
  | count + 1, value, c :: rest => do
      let d ← digit? radix c
      digits? radix count (value * radix + d) rest
  | _ + 1, _, [] => none

/-- The letter escapes. -/
def letterEscape? (c : Char) : Option Nat :=
  if c = 'a' then some 7 else if c = 'b' then some 8 else if c = 'f' then some 12
  else if c = 'n' then some 10 else if c = 'r' then some 13 else if c = 't' then some 9
  else if c = 'v' then some 11 else if c = '\\' then some 92 else if c = '"' then some 34
  else none

/-- The bytes of a code point. -/
def codeBytes (code : Nat) : List UInt8 := Utf8.encode (Char.ofNat code).toString

/-- Whether a number is a code point that is no surrogate. -/
def isScalar (code : Nat) : Bool := code < 0xD800 || (0xE000 ≤ code && code < 0x110000)

/-- The bytes of one escape, after its backslash. -/
def escapeBytes? : List Char → Option (List UInt8 × List Char)
  | [] => none
  | c :: rest =>
      match letterEscape? c with
      | some code => some ([code.toUInt8], rest)
      | none =>
          if c = 'x' then (digits? 16 2 0 rest).map fun (n, rest) => ([n.toUInt8], rest)
          else if c = 'u' ∨ c = 'U' then do
            let (code, rest) ← digits? 16 (if c = 'u' then 4 else 8) 0 rest
            if isScalar code then some (codeBytes code, rest) else none
          else if '0' ≤ c ∧ c ≤ '7' then do
            let (n, rest) ← digits? 8 3 0 (c :: rest)
            if n < 256 then some ([n.toUInt8], rest) else none
          else none

/-- The bytes of a text up to its closing double quote, which must end it. -/
def unescape? : Nat → List Char → Option (List UInt8)
  | 0, _ => none
  | _, [] => none
  | _, ['"'] => some []
  | _, '"' :: _ :: _ => none
  | fuel + 1, '\\' :: rest => do
      let (bytes, rest) ← escapeBytes? rest
      let more ← unescape? fuel rest
      return bytes ++ more
  | fuel + 1, c :: rest =>
      if c = '\n' then none else (unescape? fuel rest).map (codeBytes c.toNat ++ ·)

/-- The text that stands between quotes. -/
def unquote? (text : String) : Option String :=
  match text.toList with
  | '"' :: rest => (unescape? (rest.length + 1) rest).map Utf8.decode
  | '\x60' :: rest =>
      match rest.reverse with
      | '\x60' :: inside =>
          if inside.contains '\x60' then none
          else some (String.ofList (inside.reverse.filter (· ≠ '\r')))
      | _ => none
  | _ => none

end Quoted
end SymbolAtlas.Text
