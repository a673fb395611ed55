/-
# SymbolAtlas.Yaml.Node -- YAML documents as trees

A document is a tree of scalars, sequences and mappings.  An alias names an anchored
node by its number; the anchored nodes stand beside the tree, because a node may
contain an alias of itself.  `Document.ofTokens?` builds the first document of a
text: `none` if it is malformed, and no tree if the text holds none.

The parser looks two tokens ahead, so a fault in the text is met even if it stands a
little behind the document.
-/
import SymbolAtlas.Table
import SymbolAtlas.Yaml.Token

set_option autoImplicit false

namespace SymbolAtlas.Yaml

/-- A scalar with its explicit tag, if it has one. -/
structure Scalar where
  tag : Option String := none
  plain : Bool := true
  text : String := ""
deriving DecidableEq, Repr, Inhabited

/-- A node of a document. -/
inductive Node where
  | scalar (s : Scalar)
  | sequence (items : List Node)
  | mapping (entries : List (Node × Node))
  | aliasOf (name : String) (target : Nat)
deriving Inhabited

/-- The empty node. -/
def Node.empty : Node := .scalar {}

/-- A document. -/
structure Document where
  root : Node
  /-- The anchored nodes by number. -/
  anchored : Array Node
  /-- The number of tokens of the text.  No chain of nodes is longer. -/
  size : Nat
deriving Inhabited

/-- What a parser remembers. -/
structure ParserState where
  position : Nat := 0
  /-- The prefixes of tag handles. -/
  handles : List (String × String) := [("!", "!"), ("!!", "tag:yaml.org,2002:")]
  /-- The number of the last anchor with a name. -/
  anchors : Table String Nat := .empty
  anchored : Array Node := #[]

/-- Reads tokens, or fails. -/
abbrev Parser := ReaderT Tokens (StateT ParserState Option)

namespace Parser

/-- The next token.  Two more must be known, and the token must not be one that may
still turn out to be a key. -/
def peek : Parser Token := do
  let tokens ← read
  let i := (← get).position
  match tokens.fault with
  | some pending => if tokens.tokens.size ≤ i + 2 || pending.contains i then failure
  | none => pure ()
  return tokens.tokens[i]?.getD .streamEnd

/-- Pass the next token. -/
def pass : Parser Unit := modify fun s => { s with position := s.position + 1 }

/-- Pass the next token if it is `t`. -/
def accept (t : Token) : Parser Bool := do
  if (← peek) = t then
    pass
    return true
  else return false

/-- Pass the next token, which must be `t`. -/
def expect (t : Token) : Parser Unit := do
  unless ← accept t do failure

/-! ## Anchors and tags -/

/-- Give an anchored node its number before its content is read. -/
def openAnchor (name : Option String) : Parser (Option Nat) := do
  match name with
  | none => return none
  | some name =>
      let s ← get
      let number := s.anchored.size
      set { s with
        anchors := s.anchors.insert name number
        anchored := s.anchored.push .empty }
      return some number

/-- Keep the content of an anchored node. -/
def closeAnchor (number : Option Nat) (n : Node) : Parser Node := do
  match number with
  | none => return n
  | some i =>
      modify fun s => { s with anchored := s.anchored.setIfInBounds i n }
      return n

/-- The tag that a handle and a suffix stand for. -/
def resolveTag (handle suffix : String) : Parser String := do
  if handle = "" then return suffix
  match (← get).handles.lookup handle with
  | some lead =>
      if lead ++ suffix = "" then failure else return lead ++ suffix
  | none => failure

/-- The short form of a tag of the standard. -/
def shortTag (tag : String) : String :=
  let lead := "tag:yaml.org,2002:"
  if lead.toList.isPrefixOf tag.toList then "!!" ++ String.ofList (tag.toList.drop lead.length)
  else tag

/-- What stands before the content of a node. -/
structure Properties where
  anchor : Option String := none
  tag : Option String := none

/-- The tag of a node. -/
def readTag : Parser (Option String) := do
  match ← peek with
  | .tag handle suffix =>
      pass
      return some (← resolveTag handle suffix)
  | _ => return none

/-- The anchor of a node. -/
def readAnchor : Parser (Option String) := do
  match ← peek with
  | .anchor name =>
      pass
      return some name
  | _ => return none

/-- An anchor and a tag, in either order. -/
def readProperties : Parser Properties := do
  match ← peek with
  | .anchor _ =>
      let anchor ← readAnchor
      return { anchor, tag := ← readTag }
  | .tag .. =>
      let tag ← readTag
      return { tag, anchor := ← readAnchor }
  | _ => return {}

/-- The tag that counts: a lone exclamation mark is none. -/
def Properties.effectiveTag (p : Properties) : Option String :=
  (p.tag.filter (· ≠ "!")).map shortTag

/-! ## Nodes -/

/-- Where a node stands. -/
structure Place where
  block : Bool := true
  /-- Whether the items of a sequence may stand at the indentation of its key. -/
  flush : Bool := false

/-- In a flow collection. -/
def Place.flow : Place := { block := false }

mutual

/-- A node with its properties. -/
def node (fuel : Nat) (place : Place) : Parser Node := do
  match fuel with
  | 0 => failure
  | fuel + 1 =>
      match ← peek with
      | .aliasOf name =>
          pass
          match (← get).anchors.get? name with
          | some target => return .aliasOf name target
          | none => failure
      | _ =>
          let p ← readProperties
          let number ← openAnchor p.anchor
          let tag := p.effectiveTag
          let content : Option (Parser Node) := match ← peek with
            | .blockEntry => if place.flush then some (flushItems fuel []) else none
            | .scalar text plain => some (do
                pass
                return .scalar { tag, plain, text })
            | .flowSequenceStart => some (do
                pass
                flowItems fuel true [])
            | .flowMappingStart => some (do
                pass
                flowEntries fuel true [])
            | .blockSequenceStart =>
                if place.block then some (do
                  pass
                  blockItems fuel [])
                else none
            | .blockMappingStart =>
                if place.block then some (do
                  pass
                  blockEntries fuel [])
                else none
            | _ => none
          match content with
          | some content => closeAnchor number (← content)
          | none =>
              if p.anchor.isSome || p.tag.isSome then
                closeAnchor number (.scalar { tag, text := "" })
              else failure

/-- The items of a block sequence up to its end. -/
def blockItems (fuel : Nat) (done : List Node) : Parser Node := do
  match fuel with
  | 0 => failure
  | fuel + 1 =>
      if ← accept .blockEnd then return .sequence done.reverse
      expect .blockEntry
      match ← peek with
      | .blockEntry | .blockEnd => blockItems fuel (.empty :: done)
      | _ => blockItems fuel ((← node fuel {}) :: done)

/-- The items of a block sequence that stands at the indentation of its key. -/
def flushItems (fuel : Nat) (done : List Node) : Parser Node := do
  match fuel with
  | 0 => failure
  | fuel + 1 =>
      if ← accept .blockEntry then
        match ← peek with
        | .blockEntry | .key | .value | .blockEnd => flushItems fuel (.empty :: done)
        | _ => flushItems fuel ((← node fuel {}) :: done)
      else return .sequence done.reverse

/-- The entries of a block mapping up to its end. -/
def blockEntries (fuel : Nat) (done : List (Node × Node)) : Parser Node := do
  match fuel with
  | 0 => failure
  | fuel + 1 =>
      if ← accept .blockEnd then return .mapping done.reverse
      expect .key
      let part : Parser Node := do
        match ← peek with
        | .key | .value | .blockEnd => return .empty
        | _ => node fuel { flush := true }
      let key ← part
      let value ← if ← accept .value then part else pure .empty
      blockEntries fuel ((key, value) :: done)

/-- The items of a flow sequence up to its end. -/
def flowItems (fuel : Nat) (first : Bool) (done : List Node) : Parser Node := do
  match fuel with
  | 0 => failure
  | fuel + 1 =>
      if ← accept .flowSequenceEnd then return .sequence done.reverse
      unless first do expect .flowEntry
      match ← peek with
      | .flowSequenceEnd =>
          pass
          return .sequence done.reverse
      | .key =>
          pass
          flowItems fuel false ((← singlePair fuel) :: done)
      | _ => flowItems fuel false ((← node fuel .flow) :: done)

/-- A pair that is an item of a flow sequence.  Whatever stands in the place of the key is passed
over. -/
def singlePair (fuel : Nat) : Parser Node := do
  match fuel with
  | 0 => failure
  | fuel + 1 =>
      let key ← (do
        match ← peek with
        | .value | .flowEntry | .flowSequenceEnd =>
            pass
            return .empty
        | _ => node fuel .flow : Parser Node)
      let value ← (do
        if ← accept .value then
          match ← peek with
          | .flowEntry | .flowSequenceEnd => return .empty
          | _ => node fuel .flow
        else return .empty : Parser Node)
      return .mapping [(key, value)]

/-- The entries of a flow mapping up to its end. -/
def flowEntries (fuel : Nat) (first : Bool) (done : List (Node × Node)) : Parser Node := do
  match fuel with
  | 0 => failure
  | fuel + 1 =>
      if ← accept .flowMappingEnd then return .mapping done.reverse
      unless first do expect .flowEntry
      let part : Parser Node := do
        match ← peek with
        | .value | .flowEntry | .flowMappingEnd => return .empty
        | _ => node fuel .flow
      match ← peek with
      | .flowMappingEnd =>
          pass
          return .mapping done.reverse
      | .key =>
          pass
          let key ← part
          let value ← (do
            if ← accept .value then
              match ← peek with
              | .flowEntry | .flowMappingEnd => return .empty
              | _ => node fuel .flow
            else return .empty : Parser Node)
          flowEntries fuel false ((key, value) :: done)
      | _ => flowEntries fuel false ((← node fuel .flow, .empty) :: done)

end

/-! ## Documents -/

/-- The directives before a document: at most one version, which must be 1.1, and one
prefix for each handle. -/
def directives (fuel : Nat) (versioned : Bool) (given : List String) : Parser Unit := do
  match fuel with
  | 0 => failure
  | fuel + 1 =>
      match ← peek with
      | .versionDirective major minor =>
          if versioned || major ≠ 1 || minor ≠ 1 then failure
          pass
          directives fuel true given
      | .tagDirective handle lead =>
          if given.contains handle then failure
          pass
          modify fun s => { s with handles := (handle, lead) :: s.handles }
          directives fuel versioned (handle :: given)
      | _ => pure ()

/-- The root of a document that starts with a mark. -/
def markedRoot (fuel : Nat) : Parser Node := do
  match ← peek with
  | .versionDirective .. | .tagDirective .. | .documentStart | .documentEnd | .streamEnd =>
      return .empty
  | _ => node fuel {}

/-- The first document of a stream, if it holds one. -/
def firstDocument (fuel : Nat) : Parser (Option Node) := do
  expect .streamStart
  match ← peek with
  | .streamEnd => return none
  | .versionDirective .. | .tagDirective .. | .documentStart =>
      directives fuel false []
      expect .documentStart
      let root ← markedRoot fuel
      let _ ← peek
      return some root
  | _ =>
      let root ← node fuel {}
      let _ ← peek
      return some root

end Parser

/-- The first document of a text.  Every step of the parser takes a token or follows
one that did. -/
def Document.ofTokens? (tokens : Tokens) : Option (Option Document) :=
  ((Parser.firstDocument (4 * tokens.tokens.size + 8)).run tokens {}).map fun (root, s) =>
    root.map fun root => { root, anchored := s.anchored, size := tokens.tokens.size }

/-- The first document of a content. -/
def Document.read? (bytes : List UInt8) : Option (Option Document) :=
  (characters? bytes).bind fun text => Document.ofTokens? (scan text)

end SymbolAtlas.Yaml
