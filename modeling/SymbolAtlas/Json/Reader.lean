/-
# SymbolAtlas.Json.Reader -- JSON values from text

The reader takes the whole text or nothing.  Every function returns what it read
and the characters that follow.  The nesting of the value is bounded by the
length of the text, which is the fuel of `read?`.
-/
import SymbolAtlas.Json.Basic

set_option autoImplicit false

namespace SymbolAtlas.Json

/-- The blanks of JSON. -/
def isBlank (c : Char) : Bool := c = ' ' || c = '\t' || c = '\n' || c = '\r'

/-- Drop leading blanks. -/
def skipBlanks (cs : List Char) : List Char := cs.dropWhile isBlank

/-- The value of a hexadecimal digit. -/
def hexDigit? (c : Char) : Option Nat :=
  if '0' ≤ c ∧ c ≤ '9' then some (c.toNat - 48)
  else if 'a' ≤ c ∧ c ≤ 'f' then some (c.toNat - 87)
  else if 'A' ≤ c ∧ c ≤ 'F' then some (c.toNat - 55)
  else none

/-- The code unit of four hexadecimal digits. -/
def codeUnit? : List Char → Option (Nat × List Char)
  | a :: b :: c :: d :: rest => do
      let a ← hexDigit? a
      let b ← hexDigit? b
      let c ← hexDigit? c
      let d ← hexDigit? d
      some (((a * 16 + b) * 16 + c) * 16 + d, rest)
  | _ => none

/-- The character after `\u`: two surrogates make one character, and a lone one
is replaced. -/
def escapedUnit? (cs : List Char) : Option (Char × List Char) := do
  let (unit, rest) ← codeUnit? cs
  if 0xD800 ≤ unit ∧ unit < 0xDC00 then
    match rest with
    | '\\' :: 'u' :: more =>
        match codeUnit? more with
        | some (low, after) =>
            if 0xDC00 ≤ low ∧ low < 0xE000 then
              some (Char.ofNat (0x10000 + (unit - 0xD800) * 0x400 + (low - 0xDC00)), after)
            else some ('\uFFFD', rest)
        | none => none
    | _ => some ('\uFFFD', rest)
  else if 0xDC00 ≤ unit ∧ unit < 0xE000 then some ('\uFFFD', rest)
  else some (Char.ofNat unit, rest)

/-- The character of a one-letter escape. -/
def simpleEscape? (c : Char) : Option Char :=
  if c = '"' ∨ c = '\\' ∨ c = '/' then some c
  else if c = 'b' then some '\x08' else if c = 'f' then some '\x0c'
  else if c = 'n' then some '\n' else if c = 'r' then some '\r'
  else if c = 't' then some '\t' else none

/-- The rest of a string, after its opening quote. -/
def readString? (fuel : Nat) (text : String) (cs : List Char) : Option (String × List Char) :=
  match fuel, cs with
  | _, '"' :: rest => some (text, rest)
  | fuel + 1, '\\' :: 'u' :: rest =>
      match escapedUnit? rest with
      | some (c, rest) => readString? fuel (text.push c) rest
      | none => none
  | fuel + 1, '\\' :: c :: rest =>
      match simpleEscape? c with
      | some c => readString? fuel (text.push c) rest
      | none => none
  | fuel + 1, c :: rest => if c.toNat < 0x20 then none else readString? fuel (text.push c) rest
  | _, _ => none

/-- Decimal digits at the front. -/
def spanDigits (cs : List Char) : List Char × List Char := cs.span Char.isDigit

/-- The number that digits stand for. -/
def ofDigits (ds : List Char) : Nat := ds.foldl (fun n c => n * 10 + (c.toNat - 48)) 0

/-- A number with an optional fraction and exponent. -/
def readNumber? (cs : List Char) : Option (Decimal × List Char) := do
  let (negative, cs) := match cs with
    | '-' :: rest => (true, rest)
    | _ => (false, cs)
  let (whole, cs) := spanDigits cs
  if whole = [] ∨ (whole.head? = some '0' ∧ whole ≠ ['0']) then none
  let (fraction, cs) ← match cs with
    | '.' :: rest =>
        let (ds, rest) := spanDigits rest
        if ds = [] then none else some (ds, rest)
    | _ => some ([], cs)
  let (power, cs) ← match cs with
    | 'e' :: rest | 'E' :: rest =>
        let (sign, rest) := match rest with
          | '-' :: rest => (-1, rest)
          | '+' :: rest => (1, rest)
          | _ => ((1 : Int), rest)
        let (ds, rest) := spanDigits rest
        if ds = [] then none else some (sign * ofDigits ds, rest)
    | _ => some (0, cs)
  let digits : Int := ofDigits (whole ++ fraction)
  some (⟨if negative then -digits else digits, power - fraction.length⟩, cs)

mutual

/-- One value, blanks before it skipped. -/
def readValue? (fuel : Nat) (cs : List Char) : Option (Json × List Char) :=
  match fuel with
  | 0 => none
  | fuel + 1 =>
      match skipBlanks cs with
      | 'n' :: 'u' :: 'l' :: 'l' :: rest => some (.null, rest)
      | 't' :: 'r' :: 'u' :: 'e' :: rest => some (.bool true, rest)
      | 'f' :: 'a' :: 'l' :: 's' :: 'e' :: rest => some (.bool false, rest)
      | '"' :: rest => (readString? (rest.length + 1) "" rest).map fun (s, rest) => (.str s, rest)
      | '[' :: rest =>
          match skipBlanks rest with
          | ']' :: rest => some (.arr [], rest)
          | _ => readItems? fuel [] rest
      | '\x7b' :: rest =>
          match skipBlanks rest with
          | '\x7d' :: rest => some (.obj [], rest)
          | _ => readMembers? fuel [] rest
      | cs => (readNumber? cs).map fun (d, rest) => (.num d, rest)

/-- The items of an array up to its end. -/
def readItems? (fuel : Nat) (done : List Json) (cs : List Char) : Option (Json × List Char) :=
  match fuel with
  | 0 => none
  | fuel + 1 =>
      match readValue? fuel cs with
      | none => none
      | some (item, rest) =>
          match skipBlanks rest with
          | ',' :: rest => readItems? fuel (item :: done) rest
          | ']' :: rest => some (.arr (item :: done).reverse, rest)
          | _ => none

/-- The members of an object up to its end. -/
def readMembers? (fuel : Nat) (done : List (String × Json)) (cs : List Char) :
    Option (Json × List Char) :=
  match fuel with
  | 0 => none
  | fuel + 1 =>
      match skipBlanks cs with
      | '"' :: rest =>
          match readString? (rest.length + 1) "" rest with
          | none => none
          | some (key, rest) =>
              match skipBlanks rest with
              | ':' :: rest =>
                  match readValue? fuel rest with
                  | none => none
                  | some (value, rest) =>
                      match skipBlanks rest with
                      | ',' :: rest => readMembers? fuel ((key, value) :: done) rest
                      | '\x7d' :: rest => some (.obj ((key, value) :: done).reverse, rest)
                      | _ => none
              | _ => none
      | _ => none

end

/-- The value that a text holds, blanks around it apart. -/
def read? (text : String) : Option Json :=
  let cs := text.toList
  match readValue? (cs.length + 1) cs with
  | some (value, rest) => if skipBlanks rest = [] then some value else none
  | none => none

end SymbolAtlas.Json
