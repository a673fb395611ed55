/-
# SymbolAtlas.Service.Arguments -- the arguments of a request

Arguments are the members of a JSON object.  An argument of another type than the one
that is asked for counts as missing.
-/
import SymbolAtlas.Json.Reader

set_option autoImplicit false

namespace SymbolAtlas.Service

/-- Arguments by name. -/
structure Arguments where
  members : List (String × Json) := []
deriving Inhabited

namespace Arguments

/-- How deep values may be nested. -/
def nestingLimit : Nat := 10000

/-- The arguments in a value: null is no arguments, and anything else but an object is
refused.  So is a number beyond all doubles, and nesting beyond the limit. -/
def ofJson? : Json → Option Arguments
  | .null => some {}
  | .obj members =>
      if Json.membersFit members && Json.depthOfMembers members < nestingLimit then
        some ⟨members⟩
      else none
  | _ => none

/-- The arguments in a text; no text at all is no arguments. -/
def parse? (text : String) : Option Arguments :=
  if text = "" then some {} else (Json.read? text).bind ofJson?

/-- The argument with a name. -/
def get (a : Arguments) (name : String) : Json := (Json.obj a.members).member name

/-- A text, empty if it is missing. -/
def text (a : Arguments) (name : String) : String := ((a.get name).str?).getD ""

/-- A flag, false if it is missing. -/
def flag (a : Arguments) (name : String) : Bool := ((a.get name).bool?).getD false

/-- A number cut off to a whole one, -1 if it is missing. -/
def number (a : Arguments) (name : String) : Int :=
  ((a.get name).num?.bind Decimal.toInt64?).getD (-1)

end Arguments

/-- What a request is answered with. -/
structure Reply where
  text : String := ""
  isError : Bool := false
deriving DecidableEq, Repr, Inhabited

end SymbolAtlas.Service
