/-
# SymbolAtlas.PackageClause -- the package name of a source file

A source file starts with its package clause: after an optional byte order mark,
white space and comments the word `package`, a name, and the end of the statement,
which is a semicolon, a line break or the end of the file.  Anything else is not a
source file.  The reader looks one token further and refuses what is no token.
-/
import SymbolAtlas.Text.Utf8

set_option autoImplicit false

namespace SymbolAtlas

open Text

/-- The name of a package and the offset at which it stands. -/
structure PackageClause where
  name : String
  offset : Nat
deriving DecidableEq, Repr, Inhabited

namespace PackageClause

/-- A character of a file with its offset. -/
abbrev Placed := Char × Nat

/-- The characters of a file with their offsets, last first. -/
def place (bytes : List UInt8) : List Placed :=
  (Utf8.fold (fun (acc : List Placed × Nat) code =>
    let c := Char.ofNat code
    ((c, acc.2) :: acc.1, acc.2 + c.utf8Size)) ([], 0) bytes).1

/-- Characters that no source file may hold past its first character. -/
def isForbidden (c : Char) : Bool := c = '\x00' || c = '\uFEFF' || c = '\uFFFD'

/-- How a stretch of white space and comments ends. -/
inductive Gap where
  /-- The rest of the text, and whether a line ended on the way. -/
  | before (lineEnded : Bool) (rest : List Placed)
  | malformed

mutual

/-- Skip white space and comments. -/
def skip (ended : Bool) : List Placed → Gap
  | [] => .before true []
  | (' ', _) :: rest | ('\t', _) :: rest | ('\r', _) :: rest => skip ended rest
  | ('\n', _) :: rest => skip true rest
  | ('/', _) :: ('/', _) :: rest => skipLine rest
  | ('/', _) :: ('*', _) :: rest => skipBlock ended rest
  | rest => .before ended rest

/-- Skip a comment up to the end of its line. -/
def skipLine : List Placed → Gap
  | [] => .before true []
  | (c, _) :: rest =>
      if c = '\n' then skip true rest else if isForbidden c then .malformed else skipLine rest

/-- Skip a comment up to its end mark; a line break inside counts. -/
def skipBlock (ended : Bool) : List Placed → Gap
  | [] => .malformed
  | ('*', _) :: ('/', _) :: rest => skip ended rest
  | (c, _) :: rest => if isForbidden c then .malformed else skipBlock (ended || c = '\n') rest

end

/-- Whether a character may start a name. -/
def isLetter (c : Char) : Bool := c.isAlpha || c = '_' || (0x80 ≤ c.toNat && !isForbidden c)

/-- Whether a character may stand in a name. -/
def isNamePart (c : Char) : Bool := isLetter c || c.isDigit

/-- Words that are no names. -/
def keywords : List String :=
  ["break", "case", "chan", "const", "continue", "default", "defer", "else", "fallthrough",
    "for", "func", "go", "goto", "if", "import", "interface", "map", "package", "range",
    "return", "select", "struct", "switch", "type", "var"]

/-- The word at the front of a text. -/
def word (text : List Placed) : String × List Placed :=
  let (chars, rest) := text.span fun p => isNamePart p.1
  (String.ofList (chars.map (·.1)), rest)

/-- Whether a text starts with a token, or ends. -/
def startsToken (text : List Placed) : Bool :=
  match skip true text with
  | .malformed => false
  | .before _ [] => true
  | .before _ ((c, _) :: rest) =>
      if c = '"' ∨ c = '\'' then
        let (_, after) := rest.span fun p => p.1 ≠ c ∧ p.1 ≠ '\n'
        (after.head?.map fun p => decide (p.1 = c)).getD false
      else if c = '\x60' then rest.any fun p => p.1 = '\x60'
      else isNamePart c || "+-*/%&|^<>=!()[]\x7b\x7d,;.:~".toList.contains c

/-- Whether a package clause may end here. -/
def isAtEnd (text : List Placed) : Bool :=
  match skip false text with
  | .malformed => false
  | .before true rest => startsToken rest
  | .before false ((c, _) :: rest) =>
      if c = ';' then startsToken rest else c = ')' || c = '\x7d'
  | .before false [] => true

/-- The package clause of a file. -/
def read? (bytes : List UInt8) : Option PackageClause :=
  let text := match (place bytes).reverse with
    | ('\uFEFF', _) :: rest => rest
    | text => text
  match skip false text with
  | .malformed => none
  | .before _ rest =>
      let (keyword, rest) := word rest
      if keyword ≠ "package" then none
      else
        match skip false rest with
        | .malformed => none
        | .before _ rest =>
            let (name, after) := word rest
            match rest with
            | [] => none
            | (first, offset) :: _ =>
                if isLetter first && !keywords.contains name && isAtEnd after then
                  some ⟨name, offset⟩
                else none

end PackageClause
end SymbolAtlas
