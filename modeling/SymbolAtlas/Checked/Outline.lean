/-
# SymbolAtlas.Checked.Outline -- the nodes of a loaded file

`outlineFile` turns a parsed file into a tree of nodes.  A declaration holds the
identifier that names it and what stands inside it; signatures, blocks, groups of
declarations and bodies of types become containers; all other syntax disappears and
leaves its identifiers behind.  Every identifier becomes one node.
-/
import SymbolAtlas.Checked.Memory
import SymbolAtlas.Text.Quoted

set_option autoImplicit false

namespace SymbolAtlas.Checked

open Text

/-- A file of a checked package. -/
structure LoadedFile where
  path : String
  /-- The path of the package as it was loaded. -/
  packagePath : String
  package : PackageId
  parsed : SourceFile
  source : Source

namespace LoadedFile

/-- The span of an extent. -/
def span (f : LoadedFile) (e : Extent) : Span :=
  ⟨f.source.offsetPosition e.start, f.source.offsetPosition e.stop⟩

end LoadedFile

/-! ## Single nodes -/

/-- A container of a kind. -/
def addContainer (f : LoadedFile) (parent : NodeId) (kind : NodeKind) (extent : Extent) :
    Asking Node :=
  let span := f.span extent
  addNode
    { node :=
        { id := default, kind, file := f.path, span, fullSpan := span, parent := some parent } }

/-- The node of an identifier. -/
def addIdentifier (f : LoadedFile) (parent : NodeId) (i : Identifier) : Asking Node :=
  let span := f.span i.extent
  addNode {
    node := { id := default, kind := .identifier, name := i.name, file := f.path, span
              fullSpan := span, parent := some parent }
    identifier := some i }

/-- A declaration and the node of its name. -/
structure Declared where
  declaration : Node
  name : Node

/-- The tree of a declaration with what stands inside it. -/
def Declared.tree (d : Declared) (inside : List Tree) : Tree :=
  .node d.declaration (.node d.name [] :: inside)

/-- A name may be declared again if it is blank. -/
def isBlankName (name : String) : Bool := name = "_"

/-- The declaration of an identifier, which is not found by its place yet. -/
def addDeclaration (f : LoadedFile) (parent : NodeId) (kind : NodeKind) (i : Identifier)
    (extent : Extent) (entity : Option EntityId) (doc : String) (redeclarable : Bool) :
    Asking Declared := do
  let nameId : NodeId := ⟨(← get).nodes.size + 1⟩
  let declaration ← addNode {
    node := { id := default, kind, name := i.name, file := f.path, span := f.span i.extent
              fullSpan := f.span extent, parent := some parent, nameNode := some nameId
              redeclarable }
    entity, doc }
  return { declaration, name := ← addIdentifier f declaration.id i }

/-- The declaration of an identifier. -/
def declare (b : Base) (f : LoadedFile) (parent : NodeId) (kind : NodeKind) (i : Identifier)
    (extent : Extent) (entity : Option EntityId) (doc : String := "")
    (redeclarable : Bool := isBlankName i.name) : Asking Declared := do
  let d ← addDeclaration f parent kind i extent entity doc redeclarable
  registerDeclaration b f.path i.extent.start d.declaration.id
  return d

/-- Let a name denote a symbol for which the checker recorded nothing. -/
def presetSymbol (name : Node) (symbol : Symbol) : Asking Unit :=
  modifyNode name.id fun n => { n with symbol := some symbol }

/-- An identifier on its own: a declaration if it declares something.  Claimed ones
have a node already. -/
def outlineIdentifier (b : Base) (f : LoadedFile) (claimed : List Nat) (parent : NodeId)
    (inSignature : Bool) (i : Identifier) : Asking (List Tree) := do
  if claimed.contains i.mark then return []
  match i.definition with
  | some id =>
      let kind := (b.facts.entity id).nodeKind inSignature
      return [(← declare b f parent kind i i.extent (some id)).tree []]
  | none => return [.node (← addIdentifier f parent i) []]

/-- Declarations that share what stands behind them: behind one name it stands inside
the declaration, behind several it stands beside them in a group. -/
def outlineNames (b : Base) (f : LoadedFile) (parent : NodeId) (kind : NodeKind) (extent : Extent)
    (doc : String) (names : List Identifier) (inside : NodeId → Asking (List Tree)) :
    Asking (List Tree) := do
  match names with
  | [] => inside parent
  | [i] =>
      let d ← declare b f parent kind i extent i.definition doc
      return [d.tree (← inside d.declaration.id)]
  | names =>
      let group ← addContainer f parent .group extent
      let declared ← names.mapM fun i => declare b f group.id kind i extent i.definition doc
      return [.node group (declared.map (·.tree []) ++ (← inside group.id))]

/-! ## Imports -/

/-- The name of an import that has none of its own: that of the package, or the last
element of the path. -/
def Import.impliedName (b : Base) (i : Import) : String :=
  let fromPath := ((Quoted.unquote? i.literal).map Path.base).getD ""
  match i.implicit.map b.facts.entity with
  | some e =>
      match e.kind with
      | .packageName _ => e.name
      | _ => fromPath
  | none => fromPath

/-- An import.  Without a name of its own, its path stands for the name. -/
def outlineImport (b : Base) (f : LoadedFile) (parent : NodeId) (i : Import) :
    Asking (List Tree) := do
  match i.name with
  | some name =>
      let entity := name.definition.or i.implicit
      let d ← declare b f parent .importSpec name i.extent entity
      if name.definition.isNone then
        if let some id := entity then presetSymbol d.name (← symbolFor b id)
      return [d.tree []]
  | none =>
      let name := i.impliedName b
      let span := f.span i.path
      let nameId : NodeId := ⟨(← get).nodes.size + 1⟩
      let declaration ← addNode {
        node := { id := default, kind := .importSpec, name, file := f.path, span
                  fullSpan := f.span i.extent, parent := some parent, nameNode := some nameId }
        entity := i.implicit }
      let nameNode ← addNode {
        node := { id := default, kind := .identifier, name, file := f.path, span
                  fullSpan := span, parent := some declaration.id } }
      if let some id := i.implicit then presetSymbol nameNode (← symbolFor b id)
      registerDeclaration b f.path i.path.start declaration.id
      return [Declared.tree ⟨declaration, nameNode⟩ []]

/-! ## Phrases -/

/-- The guard of a type switch. -/
def outlineGuard (b : Base) (f : LoadedFile) (parent : NodeId) (guard : Option (Identifier ×
    Extent)) : Asking (Option Declared) :=
  guard.mapM fun (i, assignment) => declare b f parent .variable i assignment none

/-- Record the variables that the clauses of a type switch declare, and let the guard
stand for them. -/
def bindGuard (b : Base) (f : LoadedFile) (guard : Option Declared) (start : Nat) (body : Phrase) :
    Asking Unit := do
  let declared := body.clauseVariables
  modify fun m => { m with
    cases := declared.foldl (fun cases (id, clause) => cases.insert id clause) m.cases }
  if let some d := guard then
    presetSymbol d.name (← guardSymbol b f.package d.declaration.name (b.placeAt f.path start)
      d.declaration.id (declared.map (·.1)))

/-- The comment that counts: the first that is not empty. -/
def firstDoc (own shared : String) : String := if own = "" then shared else own

mutual

/-- The trees of a phrase below a node. -/
def outline (b : Base) (f : LoadedFile) (claimed : List Nat) (parent : NodeId)
    (inSignature : Bool) : Phrase → Asking (List Tree)
  | .identifier i => outlineIdentifier b f claimed parent inSignature i
  | .selector operand name => do
      let left ← outline b f claimed parent inSignature operand
      return left ++ (← outlineIdentifier b f claimed parent inSignature name)
  | .wrapped operand arguments => do
      let left ← outline b f claimed parent inSignature operand
      return left ++ (← outlineAll b f claimed parent inSignature arguments)
  | .sequence parts => outlineAll b f claimed parent inSignature parts
  | .signature extent parts => do
      let n ← addContainer f parent .signature extent
      return [.node n (← outlineAll b f claimed n.id true parts)]
  | .scope extent _ parts => do
      let n ← addContainer f parent .block extent
      return [.node n (← outlineAll b f claimed n.id false parts)]
  | .typeSwitch extent init guard subject body => do
      let n ← addContainer f parent .block extent
      let start ← outlineAll b f claimed n.id false init
      let declared ← outlineGuard b f n.id guard
      let subjects ← outlineAll b f claimed n.id false subject
      bindGuard b f declared ((guard.map (·.1.extent.start)).getD 0) body
      let rest ← outline b f claimed n.id false body
      return [.node n (start ++ (declared.map (·.tree [])).toList ++ subjects ++ rest)]
  | .structType extent fields => do
      let n ← addContainer f parent .group extent
      return [.node n (← outlineFields b f claimed n.id fields)]
  | .interfaceType extent elements => do
      let n ← addContainer f parent .group extent
      return [.node n (← outlineElements b f claimed n.id elements)]
  | .declarations extent doc specs => do
      let n ← addContainer f parent .group extent
      let shared := if specs.length = 1 then doc else ""
      return [.node n (← outlineSpecs b f claimed n.id shared specs)]
  | .function extent doc name isMethod typeParameters signatureExtent parts body => do
      let kind := if isMethod then .method else .function
      let redeclarable := isBlankName name.name || (!isMethod && name.name = "init")
      let d ← declare b f parent kind name extent name.definition doc redeclarable
      let id := d.declaration.id
      if isMethod then
        let receiver := name.definition.bind fun entity =>
          (b.facts.entity entity).receiver?.bind (·.named?)
        modifyNode id fun n => { n with receiver }
      let parameters ← outlineAll b f claimed id false typeParameters
      let n ← addContainer f id .signature signatureExtent
      let inside ← outlineAll b f claimed n.id true parts
      let rest ← outlineAll b f claimed id false body
      return [d.tree (parameters ++ .node n inside :: rest)]

/-- The trees of phrases, one after the other. -/
def outlineAll (b : Base) (f : LoadedFile) (claimed : List Nat) (parent : NodeId)
    (inSignature : Bool) : List Phrase → Asking (List Tree)
  | [] => return []
  | p :: rest => do
      let first ← outline b f claimed parent inSignature p
      return first ++ (← outlineAll b f claimed parent inSignature rest)

/-- The trees of the fields of a struct type.  The name of an embedded field is claimed
by the field and does not stand inside it again. -/
def outlineFields (b : Base) (f : LoadedFile) (claimed : List Nat) (parent : NodeId) :
    List Field → Asking (List Tree)
  | [] => return []
  | .mk extent doc names type :: rest => do
      let first ← match names, type.embeddedName? with
        | [], some i => do
            let d ← declare b f parent .field i extent i.definition doc
            let inside ← outline b f (i.mark :: claimed) d.declaration.id false type
            pure [d.tree inside]
        | names, _ =>
            outlineNames b f parent .field extent doc names fun id =>
              outline b f claimed id false type
      return first ++ (← outlineFields b f claimed parent rest)

/-- The trees of the elements of an interface type. -/
def outlineElements (b : Base) (f : LoadedFile) (claimed : List Nat) (parent : NodeId) :
    List Element → Asking (List Tree)
  | [] => return []
  | .mk extent doc name type :: rest => do
      let first ← match name with
        | none => outline b f claimed parent false type
        | some i => do
            let d ← declare b f parent .interfaceMethod i extent i.definition doc
            let inside ← outline b f claimed d.declaration.id false type
            pure [d.tree inside]
      return first ++ (← outlineElements b f claimed parent rest)

/-- The trees of declarations after a keyword, with the comment that they share. -/
def outlineSpecs (b : Base) (f : LoadedFile) (claimed : List Nat) (parent : NodeId)
    (shared : String) : List Spec → Asking (List Tree)
  | [] => return []
  | .imported i :: rest => do
      let first ← outlineImport b f parent i
      return first ++ (← outlineSpecs b f claimed parent shared rest)
  | .type extent doc name parameters type :: rest => do
      let d ← declare b f parent .typeDecl name extent name.definition (firstDoc doc shared)
      let id := d.declaration.id
      let before ← outlineAll b f claimed id false parameters
      let inside ← outline b f claimed id false type
      return d.tree (before ++ inside) :: (← outlineSpecs b f claimed parent shared rest)
  | .value isConstant extent doc names parts :: rest => do
      let kind := if isConstant then .constant else .variable
      let first ← outlineNames b f parent kind extent (firstDoc doc shared) names fun id =>
        outlineAll b f claimed id false parts
      return first ++ (← outlineSpecs b f claimed parent shared rest)

end

/-! ## Files -/

/-- The tree of a loaded file: its package clause, then its declarations. -/
def outlineFile (b : Base) (f : LoadedFile) : Asking Tree := do
  let whole : Span := ⟨{}, f.source.offsetPosition f.source.bytes.length⟩
  let root ← addNode {
    node := { id := default, kind := .file, name := f.path, file := f.path, span := whole
              fullSpan := whole } }
  let i := f.parsed.name
  let clause ← addDeclaration f root.id .package i f.parsed.extent none f.parsed.doc
    (isBlankName i.name)
  presetSymbol clause.name (← packageSymbol b f.package)
  let path := (b.facts.package f.package).path
  modify fun m => { m with
    clauses := m.clauses.insert path
      ((m.clauses.get? path).getD [] ++ [clause.declaration.id]) }
  let inside ← outlineAll b f [] root.id false f.parsed.declarations
  return .node root (clause.tree [] :: inside)

end SymbolAtlas.Checked
