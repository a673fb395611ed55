/-
# SymbolAtlas.Session.Symbols -- the symbols of a session

`symbolNode` gives a symbol its node on the first request.  The key is taken
before any related symbol is resolved, so a cycle of aliases or of base members
ends at the node that started it; the number of keys that are still free bounds
the depth of the recursion.
-/
import SymbolAtlas.Session.Documents

set_option autoImplicit false

namespace SymbolAtlas.Session

open SymbolAtlas.Graph (Id)

variable {μ ω : Type}

/-- The node of a key. -/
def lookup (key : String) : Indexing μ ω SymbolNode := do
  return ((← get).symbols.get? key).getD default

/-- Change the node of a key. -/
def modifySymbol (key : String) (f : SymbolNode → SymbolNode) : Indexing μ ω Unit :=
  modify fun s => { s with symbols := s.symbols.modify key f }

/-- Only open symbols take additions. -/
def requireOpen (key : String) (addition : Addition) : Indexing μ ω Unit := do
  if (← lookup key).ended then throw (.symbolEnded addition key)

/-- The node whose span marks a declaration: its name, if it has one. -/
def markOf (c : Context μ ω) (declaration : Node) : Indexing μ ω Node :=
  match declaration.nameNode with
  | some name => nodeOf c name
  | none => pure declaration

/-- Change the occurrences of a symbol in one document. -/
def SymbolNode.addOccurrence (n : SymbolNode) (path : String) (document : Id)
    (f : Occurrences → Occurrences) : SymbolNode :=
  let o := (n.occurrences.get? path).getD { document }
  { n with occurrences := n.occurrences.insert path (f o) }

/-- The ID of the document of a path. -/
def documentId (path : String) : Indexing μ ω Id := do
  return (((← get).documents.get? path).map (·.id)).getD 0

/-- Record a definition, once for each site. -/
def recordDefinition (c : Context μ ω) (key path : String) (declaration : Node) :
    Indexing μ ω Unit := do
  requireOpen key .definition
  let name ← markOf c declaration
  let site := Site.ofNode name
  let n ← lookup key
  if n.recorded.contains site then return
  modifySymbol key fun n => { n with recorded := site :: n.recorded }
  let id ← addRange c path {
    resultSet := n.resultSet
    span := name.span
    role := .definition
    text := declaration.name
    kind := declaration.kind.name
    fullSpan := declaration.fullSpan }
  let document ← documentId path
  modifySymbol key fun n => n.addOccurrence path document fun o =>
    { o with definitions := o.definitions.push id }
  count fun s => { s with definitions := s.definitions + 1 }

/-- Record a definition in a file that the run never visits. -/
def recordEarly (c : Context μ ω) (key : String) (declaration : Node) : Indexing μ ω Unit := do
  if (← get).traversal.contains declaration.file then return
  let d ← document c declaration.file
  unless d.ended do
    recordDefinition c key declaration.file declaration

/-- Record a definition that the run came upon. -/
def markDefinition (c : Context μ ω) (key path : String) (name : Node) : Indexing μ ω Unit := do
  let n ← lookup key
  match (n.sites.get? (Site.ofNode name)).or name.parent with
  | some declaration => recordDefinition c key path (← nodeOf c declaration)
  | none =>
      requireOpen key .definition
      throw .noDeclaration

/-- Whether a name is a definition of the symbol it denotes. -/
def isDefinition (c : Context μ ω) (key : String) (name : Node) : Indexing μ ω Bool := do
  let n ← lookup key
  return n.sites.contains (Site.ofNode name) ||
    c.oracle.isDefinitionSite (← get).memory name

/-- Count a reference for another symbol that is still open. -/
def forward (key path : String) (document id : Id) : Indexing μ ω Unit := do
  match (← get).symbols.get? key with
  | none => return
  | some n =>
      unless n.ended do
        modifySymbol key fun n => n.addOccurrence path document fun o =>
          { o with references := o.references.push id }

/-- Record a use, and forward it to the members that the symbol builds on or
stands for. -/
def addReference (c : Context μ ω) (key path : String) (name : Node) : Indexing μ ω Unit := do
  requireOpen key .reference
  let n ← lookup key
  let id ← addRange c path {
    resultSet := n.resultSet, span := name.span, role := .reference, text := name.name }
  let document ← documentId path
  modifySymbol key fun n => n.addOccurrence path document fun o =>
    { o with references := o.references.push id }
  count fun s => { s with references := s.references + 1 }
  for base in n.bases do
    forward base path document id
  for member in n.members do
    unless member = key do
      forward member path document id

/-- Attach a moniker, unless the symbol has one with that identifier. -/
def attachMoniker (c : Context μ ω) (key : String) (m : Moniker) : Indexing μ ω Unit := do
  requireOpen key .moniker
  let n ← lookup key
  unless n.monikers.any (·.identifier = m.identifier) do
    let id ← emit c (.moniker m)
    let _ ← emit c (.monikerEdge n.resultSet id)
    modifySymbol key fun n => { n with monikers := n.monikers.push m }
    count fun s => { s with monikers := s.monikers + 1 }

/-- The locations of declarations, if all of them have one. -/
def locations? (c : Context μ ω) : List Node → Option (List Location)
  | [] => some []
  | d :: rest => do
      let location ← c.locate d.file
      let others ← locations? c rest
      return location :: others

/-- Attach the moniker of an exported symbol whose declarations agree on their
package. -/
def attachExported (c : Context μ ω) (key : String) (n : SymbolNode) : Indexing μ ω Unit := do
  if n.isLocal || n.declarations.isEmpty then return
  match ← ask (c.oracle.exportPath n.symbol) with
  | none => return
  | some segments =>
      let declarations ← n.declarations.mapM (nodeOf c)
      match (locations? c declarations).bind Location.agree with
      | none => return
      | some location =>
          attachMoniker c key {
            scheme := c.options.scheme
            identifier := Moniker.identifierOf location.path segments
            kind := .ofExternal location.external
            package := location.package }

/-- Attach the moniker of a symbol that is addressed through its own declarations. -/
def attachPrimary (c : Context μ ω) (key : String) : Indexing μ ω Unit := do
  let n ← lookup key
  match n.variant with
  | some .standard | some (.method ..) => attachExported c key n
  | _ => return

/-- Attach the hover of the first declaration that has a name. -/
def attachHover (c : Context μ ω) (key : String) : Indexing μ ω Unit := do
  let n ← lookup key
  if !c.options.hover || (n.variant.map (·.isAtUse)).getD false then return
  let declarations ← n.declarations.mapM (nodeOf c)
  match declarations.findSome? (·.nameNode) with
  | none => return
  | some name =>
      match ← ask (c.oracle.hoverText name) with
      | .error _ => return
      | .ok hover =>
          unless hover.isEmpty do
            let id ← emit c (.hover (hover.markdown c.options.languageId))
            let _ ← emit c (.hoverEdge n.resultSet id)

/-- Whether a declaration lies in a block, climbing at most `fuel` parents; nothing if that is not
far enough. -/
def inBlock? (c : Context μ ω) (memory : μ) : Nat → Option NodeId → Option Bool
  | _, none => some false
  | 0, some _ => none
  | fuel + 1, some id =>
      let n := c.oracle.node id memory
      match n.kind with
      | .block => some true
      | .file => some false
      | _ => inBlock? c memory fuel n.parent

/-- Whether a declaration can only be seen from its own function. -/
def isConfined? (c : Context μ ω) (memory : μ) (declaration : Node) : Option Bool :=
  match declaration.kind with
  | .parameter | .label => some true
  | _ => inBlock? c memory (c.oracle.size + 1) declaration.parent

/-- Whether declarations can only be seen from functions of one file. -/
def areConfined? (c : Context μ ω) (memory : μ) (file : String) : List Node → Option Bool
  | [] => some true
  | d :: rest =>
      if d.file ≠ file then some false
      else (isConfined? c memory d).bind fun confined =>
        if confined then areConfined? c memory file rest else some false

/-- Let a local symbol end with its document if all of its declarations are
confined to one file of the run. -/
def confine (c : Context μ ω) (key : String) : Indexing μ ω Unit := do
  let n ← lookup key
  let declarations ← n.declarations.mapM (nodeOf c)
  match declarations with
  | [] => return
  | first :: _ =>
      let file := first.file
      let s ← get
      unless s.traversal.contains file do return
      match areConfined? c s.memory file declarations with
      | none => throw (.endless key)
      | some false => return
      | some true =>
          match s.documents.get? file with
          | none =>
              let waiting := (s.pendingLocals.get? file).getD []
              set { s with pendingLocals := s.pendingLocals.insert file (waiting ++ [key]) }
          | some d =>
              unless d.ended do
                set { s with
                  documents := s.documents.modify file fun d =>
                    { d with locals := d.locals ++ [key] } }

/-- Name a symbol by its declarations. -/
def nameSymbol (c : Context μ ω) (key : String) (declarations : List NodeId) :
    Indexing μ ω SymbolName := do
  let s ← get
  match s.namer.nameFirst? c.oracle declarations s.memory with
  | (.ok (name, namer), memory) =>
      set { s with namer, memory }
      return name
  | (.error _, memory) =>
      set { s with memory }
      throw (.endless key)

/-- Classify a reserved symbol, name it and emit its result set. -/
def enroll (c : Context μ ω) (sym : Symbol) (use : Option NodeId) :
    Indexing μ ω (Variant × List NodeId) := do
  let key := sym.key
  let variant ← ask (Variant.classify c.oracle sym use)
  modifySymbol key fun n => { n with variant := some variant }
  let declarations ← ask (variant.declarationsOf c.oracle sym use)
  modifySymbol key fun n => { n with declarations }
  let name ← nameSymbol c key declarations
  let resultSet ← emit c (.resultSet {
    symbol := name.render, name := sym.name, variant := variant.name, isLocal := name.isLocal })
  modifySymbol key fun n => { n with
    identifier := name.render, isLocal := name.isLocal, resultSet }
  count fun s => { s with symbols := s.symbols + 1 }
  return (variant, declarations)

/-- Enroll a reserved symbol and add all that does not need other symbols. -/
def establish (c : Context μ ω) (sym : Symbol) (use : Option NodeId) :
    Indexing μ ω Variant := do
  let key := sym.key
  let (variant, declarations) ← enroll c sym use
  attachPrimary c key
  attachHover c key
  for id in declarations do
    let declaration ← nodeOf c id
    let mark ← markOf c declaration
    modifySymbol key fun n => { n with sites := n.sites.insert (Site.ofNode mark) id }
    recordEarly c key declaration
  return variant

/-- Link the node of a key to the symbols that its variant names.  `resolve` gives
another symbol its node. -/
def link (c : Context μ ω) (resolve : Symbol → Indexing μ ω String) (key : String) :
    Variant → Indexing μ ω Unit
  | .aliasOf (some target) => do
      let targetKey ← resolve target
      let _ ← emit c (.next (← lookup key).resultSet (← lookup targetKey).resultSet)
  | .method _ bases => do
      for base in bases do
        let baseKey ← resolve base
        unless baseKey = key do
          modifySymbol key fun n => { n with bases := n.bases ++ [baseKey] }
  | .composite members => modifySymbol key fun n => { n with members := members.map (·.key) }
  | .standard | .transient | .aliasOf none => pure ()

/-- The key of the node of a symbol, which is made on the first request.  `fuel`
bounds the number of symbols that are reserved while this one is resolved. -/
def symbolNodeWith (c : Context μ ω) (use : Option NodeId) :
    Nat → Symbol → Indexing μ ω String
  | 0, sym => throw (.bottomless sym.key)
  | fuel + 1, sym => do
      let key := sym.key
      if (← get).symbols.contains key then return key
      modify fun s => { s with symbols := s.symbols.insert key { symbol := sym } }
      let variant ← establish c sym use
      link c (symbolNodeWith c use fuel) key variant
      if (← lookup key).isLocal then confine c key
      return key

/-- The key of the node of a symbol, which is made on the first request. -/
def symbolNode (c : Context μ ω) (sym : Symbol) (use : Option NodeId) : Indexing μ ω String :=
  symbolNodeWith c use (c.oracle.size + 1) sym

end SymbolAtlas.Session
