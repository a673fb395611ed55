/-
# SymbolAtlas.Module.Escaped -- module paths as directory names

The module cache stands on file systems that may not tell upper case from lower
case, so an upper-case letter is written as an exclamation mark and its lower
case.  `unescape?` reads a name back; `isModulePath` and `isVersion` say which
results are valid.
-/
import SymbolAtlas.Text.Path

set_option autoImplicit false

namespace SymbolAtlas.Module

open Text

/-- Write upper-case letters as an exclamation mark and their lower case. -/
def escapeChars : List Char → List Char
  | [] => []
  | c :: rest => if c.isUpper then '!' :: c.toLower :: escapeChars rest else c :: escapeChars rest

/-- Read escaped characters back.  Only ASCII is escaped, and an upper-case letter
never stands unescaped. -/
def unescapeChars? : List Char → Option (List Char)
  | [] => some []
  | '!' :: c :: rest => if c.isLower then (unescapeChars? rest).map (c.toUpper :: ·) else none
  | c :: rest =>
      if c = '!' ∨ 0x80 ≤ c.toNat ∨ c.isUpper then none
      else (unescapeChars? rest).map (c :: ·)

/-- The text that was escaped. -/
def unescape? (text : String) : Option String := (unescapeChars? text.toList).map String.ofList

/-- Names that a file system may reserve. -/
def reservedNames : List String :=
  ["con", "com1", "com2", "com3", "com4", "com5", "com6", "com7", "com8", "com9", "lpt1",
    "lpt2", "lpt3", "lpt4", "lpt5", "lpt6", "lpt7", "lpt8", "lpt9", "nul", "prn", "aux"]

/-- An element up to its first dot. -/
def shortName (element : List Char) : List Char := element.takeWhile (· ≠ '.')

/-- Whether an element is fit to be a file name: not empty, not only dots, no dot at
its end, only characters that `allowed` takes, no reserved name. -/
def isElement (allowed : Char → Bool) (element : List Char) : Bool :=
  element.any (· ≠ '.') && element.getLast? ≠ some '.' && element.all allowed &&
    !reservedNames.contains (String.ofList ((shortName element).map Char.toLower))

/-- The characters of a module path, slashes apart. -/
def isPathChar (c : Char) : Bool :=
  c = '-' || c = '.' || c = '_' || c = '~' || c.isDigit || c.isAlpha

/-- The characters of a file name. -/
def isNameChar (c : Char) : Bool :=
  c.isDigit || c.isAlpha || "!#$%&()+,-.=@[]^_\x7b\x7d~ ".toList.contains c

/-- The characters of the first element of a module path. -/
def isHostChar (c : Char) : Bool := c = '-' || c = '.' || c.isDigit || c.isLower

/-- Whether an element ends in a tilde and digits before its first dot, as
shortened file names do. -/
def isShortened (element : List Char) : Bool :=
  match (shortName element).reverse.span Char.isDigit with
  | (_ :: _, '~' :: _) => true
  | _ => false

/-- Whether an element may stand in a module path. -/
def isPathElement (element : List Char) : Bool :=
  isElement isPathChar element && element.head? ≠ some '.' && !isShortened element

/-- Whether the version at the end of a path is well formed: `/v2` and up, without
leading zero, and no version `/v1`. -/
def hasValidVersion (path : List Char) : Bool :=
  let isVersionChar (c : Char) : Bool := c.isDigit || c = '.'
  match path.reverse.span isVersionChar with
  | ([], _) => true
  | (version, 'v' :: '/' :: _) =>
      !version.contains '.' && version.getLast? ≠ some '0' && version ≠ ['1']
  | _ => true

/-- Whether the rest of a path at the host of versioned packages ends in a version,
perhaps an unstable one. -/
def hasValidDottedVersion (path : List Char) : Bool :=
  let stable := Path.trimTail (String.ofList path) "-unstable"
  let unstable := stable.length < path.length
  match stable.toList.reverse.span Char.isDigit with
  | (version, 'v' :: '.' :: _) =>
      !(version = [] && !unstable) && (version.getLast? ≠ some '0' || (version = ['0'] && !unstable))
  | _ => false

/-- Whether a text is a module path. -/
def isModulePath (path : String) : Bool :=
  let elements := path.toList.splitOn '/'
  path.toList.head? ≠ some '-' && elements.all isPathElement &&
    ((elements.head?.map fun host => host.contains '.' && host.all isHostChar).getD false) &&
    (if Path.startsWith path "gopkg.in/" then hasValidDottedVersion path.toList
      else hasValidVersion path.toList)

/-- The module path that a directory name stands for. -/
def unescapePath? (text : String) : Option String := (unescape? text).filter isModulePath

/-- The version that a directory name stands for. -/
def unescapeVersion? (text : String) : Option String :=
  (unescape? text).filter fun version => isElement isNameChar version.toList

end SymbolAtlas.Module
