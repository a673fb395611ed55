/-
# SymbolAtlas.Module.File -- the module path of a module file

The first line that says `module` and a path decides, whatever else the file
holds.  The path may stand between quotes; a quoted path that cannot be read
leaves the file without one.
-/
import SymbolAtlas.Text.Blank
import SymbolAtlas.Text.Quoted

set_option autoImplicit false

namespace SymbolAtlas.Module

open Text

/-- A line up to the first pair of slashes. -/
def dropComment : List Char → List Char
  | '/' :: '/' :: _ => []
  | c :: rest => c :: dropComment rest
  | [] => []

/-- The text after the word `module` and at least one blank. -/
def declared? (line : List Char) : Option (List Char) :=
  match Blank.trimChars (dropComment line) with
  | 'm' :: 'o' :: 'd' :: 'u' :: 'l' :: 'e' :: rest =>
      let path := Blank.trimChars rest
      if path.length = rest.length ∨ path = [] then none else some path
  | _ => none

/-- The path that a declaration names, empty if its quotes are malformed. -/
def unquotePath (path : List Char) : String :=
  match path with
  | '"' :: _ | '\x60' :: _ => (Quoted.unquote? (String.ofList path)).getD ""
  | _ => String.ofList path

/-- The module path of a module file, empty if it has none. -/
def pathOf (content : List UInt8) : String :=
  let lines := (Utf8.decode content).toList.splitOn '\n'
  ((lines.findSome? declared?).map unquotePath).getD ""

end SymbolAtlas.Module
