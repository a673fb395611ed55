/-
# SymbolAtlas.Descriptor -- symbols as text

A global symbol is a scheme, a package and a chain of descriptors, one for each
container that leads to it.  A local symbol is a number.  Names that are more
than plain characters stand between back quotes, and blanks inside the first four
fields are doubled.
-/
import SymbolAtlas.Moniker

set_option autoImplicit false

namespace SymbolAtlas

/-- What a descriptor names. -/
inductive Suffix where
  | package
  | type
  | term
  | method
  | typeParameter
  /-- A descriptor that is written without any mark. -/
  | bare
deriving DecidableEq, Repr, Inhabited

/-- The mark after the name of a descriptor. -/
def Suffix.mark : Suffix → String
  | .package => "/"
  | .type => "#"
  | .term => "."
  | .method => "()."
  | .typeParameter => ":"
  | .bare => ""

/-- One named step of a symbol. -/
structure Descriptor where
  name : String
  suffix : Suffix
deriving DecidableEq, Repr, Inhabited

namespace Descriptor

/-- Whether a character may stand in a name without quotes. -/
def isPlain (c : Char) : Bool :=
  c.isAlpha || c.isDigit || c = '_' || c = '+' || c = '-' || c = '$'

/-- Double every occurrence of a character. -/
def double (mark : Char) : List Char → List Char
  | [] => []
  | c :: rest => if c = mark then mark :: mark :: double mark rest else c :: double mark rest

/-- A name, between back quotes unless it is plain. -/
def escapeName (name : String) : String :=
  if name ≠ "" ∧ name.toList.all isPlain then name
  else String.ofList ('\x60' :: (double '\x60' name.toList ++ ['\x60']))

/-- The text of a descriptor. -/
def render (d : Descriptor) : String := escapeName d.name ++ d.suffix.mark

/-- A field of a symbol: blanks are doubled, and the empty field is a dot. -/
def escapeField (field : String) : String :=
  if field = "" then "." else String.ofList (double ' ' field.toList)

end Descriptor

/-- The name of a symbol: global, or confined to its file. -/
inductive SymbolName where
  | globalName (scheme : String) (package : PackageInfo) (descriptors : List Descriptor)
  | localName (number : Int)
deriving DecidableEq, Repr, Inhabited

namespace SymbolName

/-- Whether the symbol is confined to its file. -/
def isLocal : SymbolName → Bool
  | .localName _ => true
  | .globalName .. => false

/-- The chain of descriptors; local symbols have none. -/
def descriptors : SymbolName → List Descriptor
  | .localName _ => []
  | .globalName _ _ ds => ds

/-- The text of a symbol. -/
def render : SymbolName → String
  | .localName n => "local " ++ toString n
  | .globalName scheme package ds =>
      Descriptor.escapeField scheme ++ " " ++ Descriptor.escapeField package.manager ++ " " ++
        Descriptor.escapeField package.name ++ " " ++ Descriptor.escapeField package.version ++
        " " ++ String.join (ds.map Descriptor.render)

end SymbolName
end SymbolAtlas
