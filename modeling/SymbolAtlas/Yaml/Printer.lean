/-
# SymbolAtlas.Yaml.Printer -- YAML text

Records are written with four blanks a level and lists one item a line.  A text is
plain where that is read back as the same text, else it is quoted; a text with line
breaks is a literal block, unless it holds something that only escapes can show.
-/
import SymbolAtlas.Text.Quoted
import SymbolAtlas.Yaml.Meaning

set_option autoImplicit false

namespace SymbolAtlas.Yaml

/-! ## The choice of a style -/

/-- Whether a character may stand in a text without escapes. -/
def isPlainlyPrintable (c : Char) : Bool :=
  let n := c.toNat
  n = 0x0A || (0x20 ≤ n && n ≤ 0x7E) || (0xA0 ≤ n && n ≤ 0xFFFD && n ≠ 0xFEFF)

/-- Whether a text looks like a number in base sixty, such as `1:30`. -/
def isSexagesimal (text : String) : Bool :=
  let cs := match text.toList with
    | '-' :: rest | '+' :: rest => rest
    | cs => cs
  let isDigit (c : Char) : Bool := c.isDigit || c = '_'
  let isPart (part : List Char) : Bool :=
    match part with
    | [d] => d.isDigit
    | [t, d] => '0' ≤ t && t ≤ '5' && d.isDigit
    | _ => false
  let (whole, fraction) := cs.span (· ≠ '.')
  match whole.splitOn ':' with
  | first :: part :: parts =>
      headIs Char.isDigit first && first.all isDigit && (part :: parts).all isPart &&
        (fraction.drop 1).all isDigit
  | _ => false

/-- Whether a text, written plainly, is read back as text. -/
def readsBackPlain (text : String) : Bool :=
  (match meaningOf text with
    | .text _ => true
    | _ => false) &&
    !yesWords.contains text && !noWords.contains text && !isSexagesimal text

/-- Whether the characters of a text allow a plain scalar in a block. -/
def allowsPlain (text : List Char) : Bool :=
  let starts := match text with
    | '-' :: '-' :: '-' :: _ | '.' :: '.' :: '.' :: _ => false
    | c :: rest =>
        let gapFollows := rest.isEmpty || headIs isBlank rest
        if c = '?' ∨ c = ':' ∨ c = '-' then !gapFollows
        else !"#,[]\x7b\x7d&*!|>'\"%@\x60".toList.contains c
    | [] => true
  let pairs := text.zip (text.drop 1)
  starts && headIs (· ≠ ' ') text && text.getLast? ≠ some ' ' &&
    text.all (fun c => isPlainlyPrintable c && !isBreak c) &&
    (text.length ≤ 1 || text.getLast? ≠ some ':') &&
    !pairs.any fun (a, b) => (a = ':' && isBlank b) || (isBlank a && b = '#')

/-- Whether blanks stand before a line break, or a character needs an escape. -/
def needsEscapes (text : List Char) : Bool :=
  text.any (fun c => c ≠ '\t' && !isPlainlyPrintable c) ||
    (text.zip (text.drop 1)).any fun (a, b) => a = ' ' && isBreak b

/-- Whether a text can stand between single quotes. -/
def allowsSingleQuotes (text : List Char) : Bool :=
  !needsEscapes text && !text.contains '\t' &&
    !(text.zip (text.drop 1)).any fun (a, b) => isBreak a && b = ' '

/-- Whether a text can be a literal block. -/
def allowsBlock (text : List Char) : Bool :=
  !needsEscapes text && text.getLast? ≠ some ' '

/-- The ways to write a text. -/
inductive Style where
  | plain
  | single
  | double
  | literal
deriving DecidableEq, Repr

/-- The style of a text. -/
def styleOf (text : String) : Style :=
  let cs := text.toList
  if cs.contains '\n' then if allowsBlock cs then .literal else .double
  else if !readsBackPlain text then .double
  else if allowsPlain cs then .plain
  else if allowsSingleQuotes cs then .single
  else .double

/-! ## The text of a scalar -/

/-- Blanks. -/
def blanks (n : Nat) : String := String.ofList (List.replicate n ' ')

/-- The letter that an escape has, if it has one. -/
def escapeLetter? (c : Char) : Option Char :=
  [('\x00', '0'), ('\x07', 'a'), ('\x08', 'b'), ('\t', 't'), ('\n', 'n'), ('\x0b', 'v'),
    ('\x0c', 'f'), ('\r', 'r'), ('\x1b', 'e'), ('"', '"'), ('\\', '\\'), ('\u0085', 'N'),
    ('\u00a0', '_'), ('\u2028', 'L'), ('\u2029', 'P')].lookup c

/-- A number in upper-case hexadecimal digits. -/
def upperHex (width n : Nat) : String :=
  String.ofList ((Text.hex width n).toList.map Char.toUpper)

/-- A character as an escape. -/
def escape (c : Char) : String :=
  match escapeLetter? c with
  | some letter => "\\" ++ letter.toString
  | none =>
      let n := c.toNat
      if n < 0x100 then "\\x" ++ upperHex 2 n
      else if n < 0x10000 then "\\u" ++ upperHex 4 n
      else "\\U" ++ upperHex 8 n

/-- A text between double quotes.  One that starts with a byte order mark is written
in escapes only. -/
def doubleQuoted (text : String) : String :=
  let cs := text.toList
  let marked := headIs (· = '\uFEFF') cs
  let write (c : Char) : String :=
    if marked || !isPlainlyPrintable c || isBreak c || c = '"' || c = '\\' then escape c
    else c.toString
  "\"" ++ String.join (cs.map write) ++ "\""

/-- Characters with `indent` blanks before each that follows a line break. -/
def indented (indent : Nat) (write : Char → String) : Bool → List Char → String
  | _, [] => ""
  | fresh, c :: rest =>
      if isBreak c then c.toString ++ indented indent write true rest
      else (if fresh then blanks indent else "") ++ write c ++ indented indent write false rest

/-- A text between single quotes. -/
def singleQuoted (indent : Nat) (text : String) : String :=
  "'" ++ indented indent (fun c => if c = '\'' then "''" else c.toString) false text.toList ++ "'"

/-- The header of a literal block: its indentation, if the text hides it, and what
becomes of the line breaks at its end. -/
def literalHeader (text : List Char) : String :=
  let hint := if headIs (fun c => c = ' ' || isBreak c) text then "4" else ""
  let chomp := match text.reverse with
    | last :: before =>
        if !isBreak last then "-" else if before.isEmpty || headIs isBreak before then "+" else ""
    | [] => "-"
  "|" ++ hint ++ chomp

/-- A literal block without the end of its last line.  A line break at its front ends
the line of the header. -/
def literal (indent : Nat) (text : List Char) : String :=
  let body := indented indent Char.toString true text
  literalHeader text ++ (if headIs isBreak text then "" else "\n") ++ body

/-- A scalar and the end of its line. -/
def renderText (indent : Nat) (text : String) : String :=
  match styleOf text with
  | .plain => text ++ "\n"
  | .double => doubleQuoted text ++ "\n"
  | .single => singleQuoted indent text ++ "\n"
  | .literal =>
      let cs := text.toList
      literal indent cs ++ (if (cs.getLast?.map isBreak).getD false then "" else "\n")

/-! ## Records -/

/-- A value of a record. -/
inductive Value where
  | null
  | flag (value : Bool)
  | text (value : String)
  | texts (items : List String)
  | record (fields : List (String × Value))

mutual

/-- A value after its key, with the end of its line. -/
def Value.render (indent : Nat) : Value → String
  | .null => " null\n"
  | .flag value => (if value then " true" else " false") ++ "\n"
  | .text value => " " ++ renderText (indent + 4) value
  | .texts [] => " []\n"
  | .texts items => "\n" ++ String.join (items.map fun item =>
      blanks (indent + 4) ++ "- " ++ renderText (indent + 6) item)
  | .record fields => "\n" ++ renderFields (indent + 4) fields

/-- Fields, each from the start of a line. -/
def renderFields (indent : Nat) : List (String × Value) → String
  | [] => ""
  | (key, value) :: rest =>
      blanks indent ++ key ++ ":" ++ value.render indent ++ renderFields indent rest

end

end SymbolAtlas.Yaml
