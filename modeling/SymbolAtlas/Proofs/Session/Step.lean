/-
# SymbolAtlas.Proofs.Session.Step -- what a session can do in one step

Everything a session does to its state is one of a few changes, and each is written
down here once, with what held before it and the exact state after it:

* `Detail`: something is added to symbols and documents that exist, and no symbol
  gets a node or a link;
* `Growth`: a symbol gets its node, a base or its members;
* `Usage`: an identifier is recorded as a definition or as a reference, which is forwarded;
* `Ending`: a symbol or a document is frozen.

An invariant of sessions is proved against these relations and never against the
operations, which only have to be shown to be made of such steps.
-/
import Mathlib.Logic.Relation
import SymbolAtlas.Proofs.Session.Outcome

set_option autoImplicit false

namespace SymbolAtlas

/-- One question that is not about the target of an alias, as a change of memory. -/
inductive Oracle.Quiet {μ : Type} (o : Oracle μ) : μ → μ → Prop where
  | owner (id : NodeId) (m : μ) : Quiet o m (o.owner id m).2
  | symbolAt (id : NodeId) (m : μ) : Quiet o m (o.symbolAt id m).2
  | declarationsOf (sym : Symbol) (m : μ) : Quiet o m (o.declarationsOf sym m).2
  | compositeMembers (sym : Symbol) (use : Option NodeId) (m : μ) :
      Quiet o m (o.compositeMembers sym use m).2
  | containerOf (sym : Symbol) (m : μ) : Quiet o m (o.containerOf sym m).2
  | baseMembers (container : Symbol) (name : String) (m : μ) :
      Quiet o m (o.baseMembers container name m).2
  | exportPath (sym : Symbol) (m : μ) : Quiet o m (o.exportPath sym m).2
  | exportAlias (id : NodeId) (m : μ) : Quiet o m (o.exportAlias id m).2
  | hoverText (id : NodeId) (m : μ) : Quiet o m (o.hoverText id m).2

namespace Session

open SymbolAtlas.Graph (Id)

variable {μ ω : Type}

/-! ## The states after each change -/

/-- The state after several more elements. -/
def State.emittedAll (c : Context μ ω) (s : State μ ω) (bodies : List Graph.Body) : State μ ω :=
  bodies.foldl (State.emitted c) s

/-- The element that begins a document. -/
def documentBody (c : Context μ ω) (path : String) : Graph.Document :=
  let location := c.locate path
  let has (f : Location → Bool) : Bool := (location.map f).getD false
  let defaultLibrary := c.oracle.isDefaultLibrary path || has (·.defaultLibrary)
  { uri := "file://" ++ path
    path := displayPath c.options.root path
    languageId := c.options.languageId
    external := defaultLibrary || c.oracle.isExternalFile path || has (·.external)
    monikerPath := (location.map (·.path)).getD ""
    defaultLibrary }

/-- The node of a document that begins in `s`. -/
def State.newDocument (c : Context μ ω) (s : State μ ω) (path : String) : DocumentNode :=
  { id := s.lastId + 1
    location := c.locate path
    external := (documentBody c path).external
    defaultLibrary := (documentBody c path).defaultLibrary
    locals := (s.pendingLocals.get? path).getD [] }

/-- The state after a document began. -/
def State.began (c : Context μ ω) (s : State μ ω) (path : String) : State μ ω :=
  { s.emitted c (.document (documentBody c path)) with
    documents := s.documents.insert path (s.newDocument c path)
    pendingLocals := s.pendingLocals.erase path
    stats := { s.stats with documents := s.stats.documents + 1 } }

/-- The state after a definition was recorded. -/
def State.defined (c : Context μ ω) (s : State μ ω) (key path : String) (n : SymbolNode)
    (d : DocumentNode) (declaration name : Node) : State μ ω :=
  { s.emitted c (.range {
      document := d.id
      resultSet := n.resultSet
      span := name.span
      role := .definition
      text := declaration.name
      kind := declaration.kind.name
      fullSpan := declaration.fullSpan }) with
    symbols := s.symbols.modify key fun n =>
      { n.addOccurrence path d.id (fun o =>
          { o with definitions := o.definitions.push (s.lastId + 1) }) with
        recorded := Site.ofNode name :: n.recorded }
    documents := s.documents.modify path fun d => { d with ranges := d.ranges.push (s.lastId + 1) }
    stats := { s.stats with definitions := s.stats.definitions + 1 } }

/-- Add a reference to the occurrences of a symbol in a document. -/
def SymbolNode.addReferenceId (n : SymbolNode) (path : String) (document id : Id) : SymbolNode :=
  n.addOccurrence path document fun o => { o with references := o.references.push id }

/-- The state after a reference was recorded where it stands. -/
def State.referred (c : Context μ ω) (s : State μ ω) (key path : String) (n : SymbolNode)
    (d : DocumentNode) (name : Node) : State μ ω :=
  { s.emitted c (.range {
      document := d.id
      resultSet := n.resultSet
      span := name.span
      role := .reference
      text := name.name }) with
    symbols := s.symbols.modify key fun n => n.addReferenceId path d.id (s.lastId + 1)
    documents := s.documents.modify path fun d => { d with ranges := d.ranges.push (s.lastId + 1) }
    stats := { s.stats with references := s.stats.references + 1 } }

/-- The state after a reference was counted for another symbol. -/
def State.forwarded (path : String) (document id : Id) (s : State μ ω) (key : String) :
    State μ ω :=
  match s.symbols.get? key with
  | none => s
  | some n =>
      if n.ended then s
      else { s with symbols := s.symbols.modify key fun n => n.addReferenceId path document id }

/-- The keys to which the references of a symbol are forwarded. -/
def SymbolNode.forwards (n : SymbolNode) (key : String) : List String :=
  n.bases ++ n.members.filter (· ≠ key)

/-- The state after a moniker was attached. -/
def State.attached (c : Context μ ω) (s : State μ ω) (key : String) (n : SymbolNode)
    (m : Moniker) : State μ ω :=
  { (s.emitted c (.moniker m)).emitted c (.monikerEdge n.resultSet (s.lastId + 1)) with
    symbols := s.symbols.modify key fun n => { n with monikers := n.monikers.push m }
    stats := { s.stats with monikers := s.stats.monikers + 1 } }

/-- The node of a symbol that is named. -/
def nodeOfSymbol (sym : Symbol) (variant : Variant) (declarations : List NodeId)
    (name : SymbolName) (resultSet : Id) : SymbolNode :=
  { symbol := sym, variant := some variant, declarations, identifier := name.render
    isLocal := name.isLocal, resultSet }

/-- The state after a symbol got its node. -/
def State.enrolled (c : Context μ ω) (s : State μ ω) (sym : Symbol) (variant : Variant)
    (declarations : List NodeId) (name : SymbolName) (namer : Namer) (memory : μ) : State μ ω :=
  { s.emitted c (.resultSet {
      symbol := name.render, name := sym.name, variant := variant.name, isLocal := name.isLocal })
    with
    symbols := s.symbols.insert sym.key
      (nodeOfSymbol sym variant declarations name (s.lastId + 1))
    namer
    memory
    stats := { s.stats with symbols := s.stats.symbols + 1 } }

/-- The item edges of a symbol. -/
def SymbolNode.items (n : SymbolNode) : List Graph.Item :=
  n.occurrences.values.flatMap (itemsOf n.resultSet)

/-- The state after a symbol was frozen. -/
def State.symbolEnded (c : Context μ ω) (s : State μ ω) (key : String) (n : SymbolNode) :
    State μ ω :=
  { s.emittedAll c (n.items.map .item) with
    symbols := s.symbols.modify key fun n => { n with ended := true } }

/-- The state after a document was frozen. -/
def State.documentEnded (c : Context μ ω) (s : State μ ω) (path : String) (d : DocumentNode) :
    State μ ω :=
  { (if d.ranges.isEmpty then s else s.emitted c (.contains d.id d.ranges.toList)) with
    documents := s.documents.modify path fun d => { d with locals := [], ended := true } }

/-- The declarations of a symbol that can only be seen in one file of the run. -/
def SymbolNode.ConfinedTo (c : Context μ ω) (s : State μ ω) (n : SymbolNode) (file : String) :
    Prop :=
  n.isLocal = true ∧ n.declarations ≠ [] ∧ file ∈ s.traversal ∧
    ∀ id ∈ n.declarations, (c.oracle.node id s.memory).file = file ∧
      isConfined? c s.memory (c.oracle.node id s.memory) = some true

/-- The state after an identifier that denotes nothing. -/
def State.passed (s : State μ ω) : State μ ω :=
  { s with stats := { s.stats with skipped := s.stats.skipped + 1 } }

/-- The place where a declaration is marked. -/
def siteIn (c : Context μ ω) (memory : μ) (id : NodeId) : Site :=
  Site.ofNode (markIn c memory (c.oracle.node id memory))

/-- A declaration of a symbol in a file that the run does not visit, and its mark. -/
structure State.Early (c : Context μ ω) (s : State μ ω) (n : SymbolNode) (path : String)
    (declaration name : Node) : Prop where
  chosen : ∃ id ∈ n.declarations, declaration = c.oracle.node id s.memory
  mark : name = markIn c s.memory declaration
  file : declaration.file = path
  outside : path ∉ s.traversal

/-- A declaration of a symbol stands in the file of a path. -/
def State.Needs (c : Context μ ω) (s : State μ ω) (path : String) : Prop :=
  ∃ key n id, s.symbols.get? key = some n ∧ id ∈ n.declarations ∧
    (c.oracle.node id s.memory).file = path

/-! ## The changes -/

/-- Something is added to what exists; no symbol gets a node or a link. -/
inductive Detail (c : Context μ ω) : State μ ω → State μ ω → Prop where
  | asked {s : State μ ω} {memory : μ} (quiet : c.oracle.Quiet s.memory memory) :
      Detail c s { s with memory }
  | counted (s : State μ ω) :
      Detail c s { s with
        stats := { s.stats with exportAliases := s.stats.exportAliases + 1 } }
  | began {s : State μ ω} {path : String} (fresh : s.documents.get? path = none)
      (outside : path ∉ s.traversal) (needed : s.Needs c path) : Detail c s (s.began c path)
  | sited {s : State μ ω} {key : String} {n : SymbolNode} {id : NodeId}
      (node : s.symbols.get? key = some n) (chosen : id ∈ n.declarations) :
      Detail c s { s with
        symbols := s.symbols.modify key fun n =>
          { n with sites := n.sites.insert (siteIn c s.memory id) id } }
  | defined {s : State μ ω} {key path : String} {n : SymbolNode} {d : DocumentNode}
      {declaration name : Node} (node : s.symbols.get? key = some n) (open_ : n.ended = false)
      (document : s.documents.get? path = some d) (writable : d.ended = false)
      (new : Site.ofNode name ∉ n.recorded) (early : s.Early c n path declaration name) :
      Detail c s (s.defined c key path n d declaration name)
  | attached {s : State μ ω} {key : String} {n : SymbolNode} {m : Moniker}
      (node : s.symbols.get? key = some n) (open_ : n.ended = false)
      (new : ∀ other ∈ n.monikers, other.identifier ≠ m.identifier) :
      Detail c s (s.attached c key n m)
  | hovered {s : State μ ω} {key : String} {n : SymbolNode} (contents : String)
      (node : s.symbols.get? key = some n) :
      Detail c s ((s.emitted c (.hover contents)).emitted c
        (.hoverEdge n.resultSet (s.lastId + 1)))
  | joined {s : State μ ω} {key : String} {n m : SymbolNode} {target : Symbol}
      (node : s.symbols.get? key = some n) (alias_ : n.variant = some (.aliasOf (some target)))
      (targetNode : s.symbols.get? target.key = some m) :
      Detail c s (s.emitted c (.next n.resultSet m.resultSet))
  | awaited {s : State μ ω} {key file : String} {n : SymbolNode}
      (node : s.symbols.get? key = some n) (confined : n.ConfinedTo c s file)
      (missing : s.documents.get? file = none) :
      Detail c s { s with
        pendingLocals := s.pendingLocals.insert file
          ((s.pendingLocals.get? file).getD [] ++ [key]) }
  | confined {s : State μ ω} {key file : String} {n : SymbolNode} {d : DocumentNode}
      (node : s.symbols.get? key = some n) (confined : n.ConfinedTo c s file)
      (document : s.documents.get? file = some d) (writable : d.ended = false) :
      Detail c s { s with
        documents := s.documents.modify file fun d => { d with locals := d.locals ++ [key] } }

/-- A symbol gets its node, a base or its members. -/
inductive Growth (c : Context μ ω) : State μ ω → State μ ω → Prop where
  | enrolled {s : State μ ω} {sym : Symbol} {use : Option NodeId} {variant : Variant}
      {declarations : List NodeId} {name : SymbolName} {namer : Namer} {m₁ m₂ m₃ : μ}
      (fresh : s.symbols.get? sym.key = none)
      (classified : (variant, m₁) = Variant.classify c.oracle sym use s.memory)
      (declared : (declarations, m₂) = variant.declarationsOf c.oracle sym use m₁)
      (called : (.ok (name, namer), m₃) = s.namer.nameFirst? c.oracle declarations m₂) :
      Growth c s (s.enrolled c sym variant declarations name namer m₃)
  | based {s : State μ ω} {key : String} {n m : SymbolNode} {container base : Symbol}
      {bases : List Symbol} (node : s.symbols.get? key = some n)
      (method : n.variant = some (.method container bases)) (member : base ∈ bases)
      (other : base.key ≠ key) (baseNode : s.symbols.get? base.key = some m) :
      Growth c s { s with
        symbols := s.symbols.modify key fun n => { n with bases := n.bases ++ [base.key] } }
  | composed {s : State μ ω} {key : String} {n : SymbolNode} {members : List Symbol}
      (node : s.symbols.get? key = some n) (composite : n.variant = some (.composite members))
      (unset : n.members = []) :
      Growth c s { s with
        symbols := s.symbols.modify key fun n => { n with members := members.map (·.key) } }

/-- An identifier that the run came upon is recorded: a definition, or a reference, which
is forwarded. -/
inductive Usage (c : Context μ ω) : State μ ω → State μ ω → Prop where
  | marked {s : State μ ω} {key path : String} {n : SymbolNode} {d : DocumentNode}
      {declaration name : Node} (node : s.symbols.get? key = some n) (open_ : n.ended = false)
      (document : s.documents.get? path = some d) (writable : d.ended = false)
      (new : Site.ofNode name ∉ n.recorded) :
      Usage c s (s.defined c key path n d declaration name)
  | referred {s : State μ ω} {key path : String} {n : SymbolNode} {d : DocumentNode}
      {name : Node} (node : s.symbols.get? key = some n) (open_ : n.ended = false)
      (document : s.documents.get? path = some d) (writable : d.ended = false) :
      Usage c s ((n.forwards key).foldl (State.forwarded path d.id (s.lastId + 1))
        (s.referred c key path n d name))

/-- A symbol or a document is frozen. -/
inductive Ending (c : Context μ ω) : State μ ω → State μ ω → Prop where
  | symbol {s : State μ ω} {key : String} {n : SymbolNode}
      (node : s.symbols.get? key = some n) (open_ : n.ended = false) :
      Ending c s (s.symbolEnded c key n)
  | document {s : State μ ω} {path : String} {d : DocumentNode}
      (document : s.documents.get? path = some d) (writable : d.ended = false)
      (frozen : ∀ key ∈ d.locals, ∀ n, s.symbols.get? key = some n → n.ended = true) :
      Ending c s (s.documentEnded c path d)

/-- One step of a session. -/
inductive Step (c : Context μ ω) : State μ ω → State μ ω → Prop where
  | detail {s s' : State μ ω} (h : Detail c s s') : Step c s s'
  | growth {s s' : State μ ω} (h : Growth c s s') : Step c s s'
  | usage {s s' : State μ ω} (h : Usage c s s') : Step c s s'
  | ending {s s' : State μ ω} (h : Ending c s s') : Step c s s'
  /-- A file of the run gets its document. -/
  | opened {s : State μ ω} {path : String} (fresh : s.documents.get? path = none)
      (inside : path ∈ s.traversal) : Step c s (s.began c path)
  | turned (s : State μ ω) (current : Option String) : Step c s { s with current }
  | passed (s : State μ ω) : Step c s s.passed

/-- Details one after the other. -/
abbrev Details (c : Context μ ω) : State μ ω → State μ ω → Prop :=
  Relation.ReflTransGen (Detail c)

/-- Steps one after the other. -/
abbrev Steps (c : Context μ ω) : State μ ω → State μ ω → Prop :=
  Relation.ReflTransGen (Step c)

theorem Details.steps {c : Context μ ω} {s s' : State μ ω} (h : Details c s s') : Steps c s s' :=
  Relation.ReflTransGen.mono (fun _ _ h => Step.detail h) _ _ h

end Session
end SymbolAtlas
