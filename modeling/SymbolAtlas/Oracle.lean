/-
# SymbolAtlas.Oracle -- what the indexer may ask about a program

The indexer does not parse and does not check types: it asks an `Oracle`.  An
oracle answers from a fixed program, but it may keep a memory `μ` of what it was
asked, so each question is a state transition on that memory.  A symbol is known
by its key: two mentions of one thing have one key.
-/
import SymbolAtlas.Syntax

set_option autoImplicit false

namespace SymbolAtlas

/-- How a symbol may have to be looked through. -/
structure SymbolFlags where
  aliasing : Bool := false
  transient : Bool := false
  module : Bool := false
  typeOnly : Bool := false
  member : Bool := false
deriving DecidableEq, Repr, Inhabited

namespace SymbolFlags

/-- The flags as the bits of a number, `aliasing` lowest. -/
def toNat (f : SymbolFlags) : Nat :=
  f.aliasing.toNat + 2 * f.transient.toNat + 4 * f.module.toNat + 8 * f.typeOnly.toNat +
    16 * f.member.toNat

/-- Whether no flag but `transient` is set. -/
def onlyTransient (f : SymbolFlags) : Bool :=
  !f.aliasing && !f.module && !f.typeOnly && !f.member

end SymbolFlags

/-- A semantic symbol.  The oracle finds it again by `handle`; everyone else
tells symbols apart by `key`. -/
structure Symbol where
  handle : Nat
  key : String
  name : String
  flags : SymbolFlags := {}
deriving DecidableEq, Repr, Inhabited

/-- Documentation of a declaration. -/
structure Hover where
  signature : String := ""
  doc : String := ""
deriving DecidableEq, Repr, Inhabited

namespace Hover

/-- Whether there is nothing to show. -/
def isEmpty (h : Hover) : Bool := h.signature = "" && h.doc = ""

/-- The hover as editors show it: the signature as a code block, a rule, the
documentation. -/
def markdown (h : Hover) (language : String) : String :=
  let code := if h.signature = "" then "" else "```" ++ language ++ "\n" ++ h.signature ++ "\n```"
  let rule := if code = "" ∨ h.doc = "" then "" else "\n\n---\n\n"
  code ++ rule ++ h.doc

end Hover

/-- A program that answers questions; `μ` is what it remembers of them. -/
structure Oracle (μ : Type) where
  /-- The files to index, in this order. -/
  files : List Tree
  /-- No chain of owners and no chain of distinct symbols is longer. -/
  size : Nat
  node : NodeId → μ → Node
  /-- The container that qualifies a node: its parent, unless the language
  attaches the declaration elsewhere. -/
  owner : NodeId → StateM μ (Option NodeId)
  /-- The symbol that a name denotes. -/
  symbolAt : NodeId → StateM μ (Option Symbol)
  declarationsOf : Symbol → StateM μ (List NodeId)
  /-- The symbol that an alias stands for. -/
  resolveAlias : Symbol → StateM μ (Option Symbol)
  /-- The members of a composite as seen from a use; nothing if it is none. -/
  compositeMembers : Symbol → Option NodeId → StateM μ (Option (List Symbol))
  /-- The type that owns a member. -/
  containerOf : Symbol → StateM μ (Option Symbol)
  /-- Members of that name in the types that a container is built on. -/
  baseMembers : Symbol → String → StateM μ (List Symbol)
  /-- The exported names that lead to a symbol; nothing if it is not exported. -/
  exportPath : Symbol → StateM μ (Option (List String))
  /-- The name under which a declaration publishes its alias target; the empty
  name is the target's own. -/
  exportAlias : NodeId → StateM μ (Option String)
  isExternalFile : String → Bool
  isDefaultLibrary : String → Bool
  hoverText : NodeId → StateM μ (Except String Hover)

namespace Oracle

variable {μ : Type}

/-- Whether a node is the name child of a declaration. -/
def isDefinitionSite (o : Oracle μ) (memory : μ) (n : Node) : Bool :=
  n.kind = .identifier &&
    match n.parent with
    | none => false
    | some p =>
        let parent := o.node p memory
        parent.kind.isDeclaration && parent.nameNode = some n.id

end Oracle
end SymbolAtlas
