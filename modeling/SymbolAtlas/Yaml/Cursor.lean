/-
# SymbolAtlas.Yaml.Cursor -- a place in a YAML text

A cursor holds the characters that are still to be read, with the line, the
column and the index of the first of them.  Line breaks are the two ASCII ones,
the next-line character and the two separators; `takeLine` reads one of them in
the form in which a scalar keeps it.
-/
import SymbolAtlas.Text.Utf8

set_option autoImplicit false

namespace SymbolAtlas.Yaml

/-- A blank inside a line. -/
def isBlank (c : Char) : Bool := c = ' ' || c = '\t'

/-- A character that ends a line. -/
def isBreak (c : Char) : Bool :=
  c = '\n' || c = '\r' || c = '\u0085' || c = '\u2028' || c = '\u2029'

/-- A character of anchors, tag handles and directive names. -/
def isWord (c : Char) : Bool := c.isAlphanum || c = '_' || c = '-'

/-- Whether a text starts with a character that `p` takes. -/
def headIs (p : Char → Bool) (cs : List Char) : Bool := (cs.head?.map p).getD false

/-- Whether a text starts with a line break, or is at its end. -/
def atBreak (cs : List Char) : Bool := cs.isEmpty || headIs isBreak cs

/-- Whether a text starts with a blank or a line break, or is at its end. -/
def atGap (cs : List Char) : Bool := atBreak cs || headIs isBlank cs

/-- A place in a text. -/
structure Cursor where
  rest : List Char
  index : Nat := 0
  line : Nat := 0
  column : Nat := 0
  /-- Whether a line ended since the last character that is no blank. -/
  afterBreak : Bool := false
deriving Inhabited

namespace Cursor

/-- Pass one character that is no line break. -/
def skip (c : Cursor) : Cursor :=
  { c with
    rest := c.rest.drop 1
    index := c.index + 1
    column := c.column + 1
    afterBreak := c.afterBreak && headIs isBlank c.rest }

/-- Pass `n` characters. -/
def skipMany : Nat → Cursor → Cursor
  | 0, c => c
  | n + 1, c => skipMany n c.skip

/-- Pass the characters that `p` takes. -/
def skipWhile (p : Char → Bool) (c : Cursor) : Cursor := c.skipMany (c.rest.takeWhile p).length

/-- Pass a comment up to the end of its line. -/
def skipComment (c : Cursor) : Cursor := c.skipWhile fun ch => !isBreak ch

/-- Read a line break.  All but the separators are kept as a newline; where there
is none nothing is read. -/
def takeLine (c : Cursor) : String × Cursor :=
  let passed (n : Nat) : Cursor :=
    { rest := c.rest.drop n, index := c.index + n, line := c.line + 1, column := 0
      afterBreak := true }
  match c.rest with
  | '\r' :: '\n' :: _ => ("\n", passed 2)
  | ch :: _ =>
      if ch = '\u2028' ∨ ch = '\u2029' then (ch.toString, passed 1)
      else if isBreak ch then ("\n", passed 1)
      else ("", c)
  | [] => ("", c)

/-- Pass a line break, if there is one. -/
def skipLine (c : Cursor) : Cursor := c.takeLine.2

/-- Whether a line starts here with three times `mark`, and nothing else belongs to
it. -/
def isIndicator (mark : Char) (c : Cursor) : Bool :=
  c.column = 0 && [mark, mark, mark].isPrefixOf c.rest && atGap (c.rest.drop 3)

/-- Whether a document starts or ends here. -/
def atDocumentMark (c : Cursor) : Bool := c.isIndicator '-' || c.isIndicator '.'

end Cursor

/-! ## From bytes to characters -/

/-- Characters that a text may hold. -/
def isAllowed (n : Nat) : Bool :=
  n = 9 || n = 10 || n = 13 || (0x20 ≤ n && n ≤ 0x7E) || n = 0x85 || (0xA0 ≤ n && n ≤ 0xD7FF) ||
    (0xE000 ≤ n && n ≤ 0xFFFD) || (0x10000 ≤ n && n ≤ 0x10FFFF)

/-- The code points of well-formed UTF-8.  A byte that cannot be decoded is read as a character of
three bytes. -/
def codePoints? (bytes : List UInt8) : Option (List Nat) :=
  let codes := (Text.Utf8.fold (fun (acc : List Nat) code => code :: acc) [] bytes).reverse
  let size := codes.foldl (fun n code => n + (Char.ofNat code).utf8Size) 0
  if size = bytes.length then some codes else none

/-- The code points of UTF-16 units. -/
def ofUnits? : List Nat → Option (List Nat)
  | [] => some []
  | high :: rest =>
      if 0xDC00 ≤ high ∧ high < 0xE000 then none
      else if 0xD800 ≤ high ∧ high < 0xDC00 then
        match rest with
        | low :: rest =>
            if 0xDC00 ≤ low ∧ low < 0xE000 then
              (ofUnits? rest).map ((0x10000 + (high - 0xD800) * 0x400 + (low - 0xDC00)) :: ·)
            else none
        | [] => none
      else (ofUnits? rest).map (high :: ·)

/-- The 16-bit units of bytes. -/
def units? (unit : UInt8 → UInt8 → Nat) : List UInt8 → Option (List Nat)
  | [] => some []
  | [_] => none
  | a :: b :: rest => (units? unit rest).map (unit a b :: ·)

/-- The characters of a content; a byte order mark tells the encoding. -/
def characters? (bytes : List UInt8) : Option (List Char) := do
  let codes ← match bytes with
    | 0xFF :: 0xFE :: rest => (units? (fun a b => a.toNat + 256 * b.toNat) rest).bind ofUnits?
    | 0xFE :: 0xFF :: rest => (units? (fun a b => 256 * a.toNat + b.toNat) rest).bind ofUnits?
    | 0xEF :: 0xBB :: 0xBF :: rest => codePoints? rest
    | _ => codePoints? bytes
  if codes.all isAllowed then some (codes.map Char.ofNat) else none

end SymbolAtlas.Yaml
