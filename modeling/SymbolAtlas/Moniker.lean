/-
# SymbolAtlas.Moniker -- identifiers that hold across projects

A moniker names an exported symbol by the path of its package and the chain of
exported names that leads to it.  The path comes from the location of the
declaring file.  `identifier` joins both; dots inside a name are doubled, so the
dots between names can be told from them.
-/
set_option autoImplicit false

namespace SymbolAtlas

/-- The scheme of monikers and symbols unless another is given. -/
def defaultScheme : String := "gomod"

/-- The package that a moniker belongs to. -/
structure PackageInfo where
  name : String := ""
  version : String := ""
  manager : String := ""
deriving DecidableEq, Repr, Inhabited

/-- The package of one file. -/
structure Location where
  path : String := ""
  external : Bool := false
  defaultLibrary : Bool := false
  package : PackageInfo := {}
deriving DecidableEq, Repr, Inhabited

/-- Maps a file to its location, if it has one. -/
abbrev Locator := String → Option Location

/-- The location that all files share; none if two files disagree on the path. -/
def Location.agree : List Location → Option Location
  | [] => none
  | first :: rest => if rest.all (·.path = first.path) then some first else none

/-- Whether a moniker is offered or used by the indexed project. -/
inductive MonikerKind where
  | exported
  | imported
  | other (text : String)
deriving DecidableEq, Repr, Inhabited

namespace MonikerKind

/-- The name of a kind. -/
def name : MonikerKind → String
  | exported => "export"
  | imported => "import"
  | other text => text

/-- The kind with a name. -/
def ofName (text : String) : MonikerKind :=
  if text = "export" then exported else if text = "import" then imported else other text

/-- The kind of a moniker that a file gives to its symbols. -/
def ofExternal (external : Bool) : MonikerKind := if external then imported else exported

end MonikerKind

/-- A global identifier of a symbol. -/
structure Moniker where
  scheme : String := ""
  identifier : String := ""
  kind : MonikerKind := .exported
  package : PackageInfo := {}
deriving DecidableEq, Repr, Inhabited

namespace Moniker

/-- Double the dots of a name. -/
def doubleDots : List Char → List Char
  | [] => []
  | c :: rest => if c = '.' then '.' :: '.' :: doubleDots rest else c :: doubleDots rest

/-- One name of an export path. -/
def escapeSegment (segment : String) : String := String.ofList (doubleDots segment.toList)

/-- Names joined by dots. -/
def exportPath (segments : List String) : String := ".".intercalate (segments.map escapeSegment)

/-- The identifier of the symbol that `segments` lead to in package `path`; no
segments name the package itself. -/
def identifierOf (path : String) (segments : List String) : String :=
  if segments = [] then path else path ++ ":" ++ exportPath segments

end Moniker
end SymbolAtlas
