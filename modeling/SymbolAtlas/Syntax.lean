/-
# SymbolAtlas.Syntax -- the syntax nodes that carry names

A node is known by its `NodeId`; it has a kind, a name, a place in its file, and
links to its parent and to the identifier that names it.  A file is a `Tree` of
nodes.  `Tree.walk` visits a tree in pre-order, with a second visit of each node
after its children; a first visit may answer that the children are to be skipped.
-/
import SymbolAtlas.Text.Span

set_option autoImplicit false

namespace SymbolAtlas

open Text (Span)

/-- What a syntax node is. -/
inductive NodeKind where
  | other
  | file
  | package
  | importSpec
  /-- Wraps declarations and has no identity of its own. -/
  | group
  /-- Opens a scope whose names never escape it. -/
  | block
  /-- Opens the scope of parameters and results. -/
  | signature
  | typeDecl
  | function
  | method
  | variable
  | constant
  | field
  | interfaceMethod
  | typeParameter
  | parameter
  | label
  | property
  | identifier
  /-- A kind that no rule mentions. -/
  | unknown
deriving DecidableEq, Repr, Inhabited

namespace NodeKind

/-- All kinds. -/
def all : List NodeKind :=
  [other, file, package, importSpec, group, block, signature, typeDecl, function, method,
    .variable, constant, field, interfaceMethod, typeParameter, parameter, label, property,
    identifier, unknown]

/-- The name under which a kind is reported. -/
def name : NodeKind → String
  | other => "other"
  | file => "file"
  | package => "package"
  | importSpec => "import"
  | group => "group"
  | block => "block"
  | signature => "signature"
  | typeDecl => "type"
  | function => "function"
  | method => "method"
  | .variable => "variable"
  | constant => "constant"
  | field => "field"
  | interfaceMethod => "interface_method"
  | typeParameter => "type_parameter"
  | parameter => "parameter"
  | label => "label"
  | property => "property"
  | identifier => "identifier"
  | unknown => "unknown"

/-- The kind with a name. -/
def ofName (text : String) : NodeKind := (all.find? (·.name = text)).getD unknown

/-- Whether nodes of this kind introduce a name. -/
def isDeclaration : NodeKind → Bool
  | package | importSpec | typeDecl | function | method | .variable | constant | field
  | interfaceMethod | typeParameter | parameter | label | property => true
  | _ => false

end NodeKind

/-- The identity of a syntax node. -/
structure NodeId where
  index : Nat
deriving DecidableEq, Repr, Inhabited

/-- A syntax node. -/
structure Node where
  id : NodeId
  kind : NodeKind := .other
  /-- The declared name of a declaration, the text of an identifier. -/
  name : String := ""
  file : String := ""
  /-- The identifier for names, the name for declarations. -/
  span : Span := {}
  fullSpan : Span := {}
  parent : Option NodeId := none
  /-- The identifier child that names a declaration. -/
  nameNode : Option NodeId := none
  /-- Whether the name may be declared again in the same container. -/
  redeclarable : Bool := false
deriving DecidableEq, Repr, Inhabited

/-- A node with the trees of its children. -/
inductive Tree where
  | node (root : Node) (children : List Tree)
deriving Inhabited

namespace Tree

/-- The node at the top of a tree. -/
def root : Tree → Node
  | node n _ => n

mutual

/-- The nodes of a tree in pre-order. -/
def nodes : Tree → List Node
  | node n children => n :: nodesOf children

/-- The nodes of trees in pre-order, one tree after the other. -/
def nodesOf : List Tree → List Node
  | [] => []
  | t :: rest => nodes t ++ nodesOf rest

end

mutual

/-- Visit a tree: `pre` before the children, which are skipped together with
`post` if it answers false, and `post` after them. -/
def walk {m : Type → Type} [Monad m] (pre : Node → m Bool) (post : Node → m Unit) :
    Tree → m Unit
  | node n children => do
      if ← pre n then
        walkAll pre post children
        post n

/-- Visit trees one after the other. -/
def walkAll {m : Type → Type} [Monad m] (pre : Node → m Bool) (post : Node → m Unit) :
    List Tree → m Unit
  | [] => pure ()
  | t :: rest => do
      walk pre post t
      walkAll pre post rest

end

end Tree
end SymbolAtlas
