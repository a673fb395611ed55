/-
# SymbolAtlas.Yaml.Token -- the tokens of a YAML text

Indentation is made visible: a block collection has a token at its start and one
at its end, and every key of a mapping follows a `key` token.  A key is recognised
only at its colon, so its `key` token, and the token that opens its mapping, are
put before a token that stands already; `SimpleKey` remembers where.

`scan` reads all tokens, up to the first fault if there is one.
-/
import SymbolAtlas.Yaml.Scalar

set_option autoImplicit false

namespace SymbolAtlas.Yaml

/-- A token. -/
inductive Token where
  | streamStart
  | streamEnd
  | versionDirective (major minor : Nat)
  | tagDirective (handle lead : String)
  | documentStart
  | documentEnd
  | blockSequenceStart
  | blockMappingStart
  | blockEnd
  | flowSequenceStart
  | flowSequenceEnd
  | flowMappingStart
  | flowMappingEnd
  | blockEntry
  | flowEntry
  | key
  | value
  | aliasOf (name : String)
  | anchor (name : String)
  | tag (handle suffix : String)
  | scalar (text : String) (plain : Bool)
deriving DecidableEq, Repr, Inhabited

/-- A token that may turn out to be a key. -/
structure SimpleKey where
  /-- The number of the token. -/
  token : Nat
  /-- Whether nothing but a key can stand at this place. -/
  required : Bool
  index : Nat
  line : Nat
  column : Nat

/-- A scanner between two tokens. -/
structure Scanner where
  cursor : Cursor
  tokens : Array Token := #[.streamStart]
  /-- The column of the innermost block collection. -/
  indent : Int := -1
  /-- The columns of the collections around it. -/
  indents : List Int := []
  /-- The key that may be pending, for each level of flow collections and the block
  around them, the innermost first. -/
  keys : List (Option SimpleKey) := [none]
  /-- Whether a key may start here. -/
  keyAllowed : Bool := true

namespace Scanner

/-- Whether the scanner is inside a flow collection. -/
def inFlow (s : Scanner) : Bool := 1 < s.keys.length

/-- Add a token at the end. -/
def push (s : Scanner) (t : Token) : Scanner := { s with tokens := s.tokens.push t }

/-- Put a token before the token with a number. -/
def insertAt (s : Scanner) (number : Nat) (t : Token) : Scanner :=
  { s with tokens := s.tokens.insertIdxIfInBounds number t }

/-- Read with the cursor. -/
def reading {α : Type} (s : Scanner) (scan : Scan α) : Option (α × Scanner) :=
  (scan s.cursor).map fun (a, cursor) => (a, { s with cursor })

/-- Pass `n` characters. -/
def passing (s : Scanner) (n : Nat) : Scanner := { s with cursor := s.cursor.skipMany n }

/-! ## Indentation -/

/-- End the block collections that stand further right than `column`. -/
def unrollTo (column : Int) : List Int → Scanner → Scanner
  | [], s => s
  | outer :: rest, s =>
      if column < s.indent then
        unrollTo column rest { s.push .blockEnd with indent := outer, indents := rest }
      else s

/-- End the block collections that stand further right than `column`, unless this is a
flow collection. -/
def unroll (s : Scanner) (column : Int) : Scanner :=
  if s.inFlow then s else unrollTo column s.indents s

/-- Open a block collection at a column, unless one is open there.  Its token goes
before the token with a number, if one is given. -/
def roll (s : Scanner) (column : Nat) (number : Option Nat) (t : Token) : Scanner :=
  if s.inFlow || (column : Int) ≤ s.indent then s
  else
    let s := { s with indents := s.indent :: s.indents, indent := column }
    match number with
    | some n => s.insertAt n t
    | none => s.push t

/-! ## Keys -/

/-- Give up the pending key of this level, which must not be required. -/
def dropKey (s : Scanner) : Option Scanner :=
  match s.keys with
  | some k :: rest => if k.required then none else some { s with keys := none :: rest }
  | _ => some s

/-- Remember that the next token may be a key. -/
def saveKey (s : Scanner) : Option Scanner := do
  if !s.keyAllowed then return s
  let c := s.cursor
  let s' ← s.dropKey
  let k : SimpleKey :=
    { token := s.tokens.size
      required := !s.inFlow && s.indent = (c.column : Int)
      index := c.index, line := c.line, column := c.column }
  return { s' with keys := some k :: s'.keys.drop 1 }

/-- Whether a pending key can still be one: a key stands on one line and has at most
1024 characters. -/
def isFresh (s : Scanner) (k : SimpleKey) : Bool :=
  s.cursor.line ≤ k.line && s.cursor.index ≤ k.index + 1024

/-- The pending key of this level, if it can still be one; fails if a required key is
not. -/
def currentKey (s : Scanner) : Option (Option SimpleKey) :=
  match s.keys with
  | some k :: _ => if s.isFresh k then some (some k) else if k.required then none else some none
  | _ => some none

/-! ## White space and comments -/

/-- Pass blanks and line breaks up to the next comment. -/
def skipToComment : Nat → Cursor → Cursor
  | 0, c => c
  | fuel + 1, c =>
      if headIs (· = '#') c.rest then c
      else skipToComment fuel (if headIs isBreak c.rest then c.skipLine else c.skip)

/-- The comment lines that follow a comment, with only blanks and at most 511
characters between two of them. -/
def skipMoreComments : Nat → Cursor → Cursor
  | 0, c => c
  | fuel + 1, c =>
      let isGap (ch : Char) : Bool := ch = ' ' || ch = '\t' || ch = '\n' || ch = '\r'
      let gap := (c.rest.takeWhile isGap).length
      if 0 < gap && gap < 512 && headIs (· = '#') (c.rest.drop gap) then
        skipMoreComments fuel (skipToComment gap c).skipComment
      else c

/-- Pass white space and comments.  In a block, tabs must not stand where a key may
start. -/
def skipToToken : Nat → Scanner → Scanner
  | 0, s => s
  | fuel + 1, s =>
      let tabs := s.inFlow || !s.keyAllowed
      let c := s.cursor.skipWhile fun ch => ch = ' ' || (tabs && ch = '\t')
      let c := if headIs (· = '#') c.rest then skipMoreComments c.rest.length c.skipComment else c
      if headIs isBreak c.rest then
        skipToToken fuel { s with cursor := c.skipLine, keyAllowed := s.keyAllowed || !s.inFlow }
      else { s with cursor := c }

/-- Pass the comment on the line of a token. -/
def skipLineComment (s : Scanner) : Scanner :=
  let c := s.cursor
  let blanks := (c.rest.takeWhile isBlank).length
  if !c.afterBreak && blanks < 512 && headIs (· = '#') (c.rest.drop blanks) then
    { s with cursor := (c.skipMany blanks).skipComment }
  else s

/-! ## Directives, anchors and tags -/

/-- A run of word characters. -/
def readWord : Scan String := do
  let word := (← upcoming).takeWhile isWord
  modify (Cursor.skipMany word.length)
  return String.ofList word

/-- A number of one or two digits. -/
def readVersionNumber : Scan Nat := do
  let digits := (← upcoming).takeWhile Char.isDigit
  require (0 < digits.length && digits.length ≤ 2)
  modify (Cursor.skipMany digits.length)
  return digits.foldl (fun n c => n * 10 + (c.toNat - 48)) 0

/-- A tag handle.  In a directive it ends in an exclamation mark. -/
def readHandle (inDirective : Bool) : Scan String := do
  require ((← upcoming).head? = some '!')
  pass
  let word ← readWord
  if (← upcoming).head? = some '!' then
    pass
    return "!" ++ word ++ "!"
  else
    require (!inDirective || word = "")
    return "!" ++ word

/-- The characters of a tag, the escape mark apart. -/
def isTagChar (c : Char) : Bool := isWord c || ";/?:@&=+$,.!~*'()[]".toList.contains c

/-- The bytes of escapes such as `%20`, which together are one character. -/
def readTagBytes : Nat → Scan (List UInt8)
  | 0 => return []
  | n + 1 => do
      match ← upcoming with
      | '%' :: a :: b :: _ =>
          match hexDigit? a, hexDigit? b with
          | some a, some b =>
              modify (Cursor.skipMany 3)
              let more ← readTagBytes n
              return (16 * a + b).toUInt8 :: more
          | _, _ => failure
      | _ => failure

/-- An escaped character of a tag. -/
def readTagEscape : Scan String := do
  let first ← readTagBytes 1
  match first with
  | [lead] =>
      let width := if lead < 0x80 then 1 else if lead &&& 0xE0 = 0xC0 then 2
        else if lead &&& 0xF0 = 0xE0 then 3 else if lead &&& 0xF8 = 0xF0 then 4 else 0
      require (width ≠ 0)
      let more ← readTagBytes (width - 1)
      require (more.all fun b => b &&& 0xC0 = 0x80)
      return Text.Utf8.decode (lead :: more)
  | _ => failure

/-- The text of a tag; `given` says whether a part of it was read before. -/
def readTagText (given : Bool) : Nat → String → Scan String
  | 0, text => return text
  | fuel + 1, text => do
      match ← upcoming with
      | '%' :: _ =>
          let c ← readTagEscape
          readTagText true fuel (text ++ c)
      | c :: _ =>
          if isTagChar c then
            pass
            readTagText true fuel (text.push c)
          else
            require given
            return text
      | [] =>
          require given
          return text

/-- A tag: a handle and a suffix. -/
def readTag : Scan (String × String) := do
  let rest ← upcoming
  let fuel := rest.length
  let (handle, suffix) ← (do
    if rest.drop 1 |>.head? |> (· = some '<') then
      modify (Cursor.skipMany 2)
      let suffix ← readTagText false fuel ""
      require ((← upcoming).head? = some '>')
      pass
      return ("", suffix)
    else
      let handle ← readHandle false
      if handle.length > 1 ∧ handle.toList.getLast? = some '!' then
        return (handle, ← readTagText false fuel "")
      else
        let suffix ← readTagText true fuel (String.ofList (handle.toList.drop 1))
        return if suffix = "" then ("", "!") else ("!", suffix) : Scan (String × String))
  require (atGap (← upcoming))
  return (handle, suffix)

/-- The name of an anchor or alias, after its mark. -/
def readName : Scan String := do
  pass
  let name ← readWord
  let rest ← upcoming
  require (name ≠ "" && (atGap rest || headIs ("?:,]\x7d%@\x60".toList.contains ·) rest))
  return name

/-- A directive. -/
def readDirective : Scan Token := do
  pass
  let name ← readWord
  require (name ≠ "" && atGap (← upcoming))
  modify (Cursor.skipWhile isBlank)
  let t ← (do
    if name = "YAML" then
      let major ← readVersionNumber
      require ((← upcoming).head? = some '.')
      pass
      let minor ← readVersionNumber
      return .versionDirective major minor
    else if name = "TAG" then
      let handle ← readHandle true
      require (headIs isBlank (← upcoming))
      modify (Cursor.skipWhile isBlank)
      let lead ← readTagText false (← upcoming).length ""
      require (atGap (← upcoming))
      return .tagDirective handle lead
    else failure : Scan Token)
  readLineEnd
  return t

/-! ## One token -/

/-- A token that stands at the start of a line and ends all block collections. -/
def topLevel (s : Scanner) : Option Scanner := do
  let s ← (s.unroll (-1)).dropKey
  return { s with keyAllowed := false }

/-- A token that may be a key. -/
def keyLike (s : Scanner) (scan : Scan Token) : Option Scanner := do
  let s ← s.saveKey
  let (t, s) ← { s with keyAllowed := false }.reading scan
  return s.push t

/-- Open a flow collection. -/
def openFlow (s : Scanner) (t : Token) : Option Scanner := do
  let s ← s.saveKey
  return ({ s with keys := none :: s.keys, keyAllowed := true }.passing 1).push t

/-- Close a flow collection. -/
def closeFlow (s : Scanner) (t : Token) : Option Scanner := do
  let s ← s.dropKey
  let keys := if s.inFlow then s.keys.drop 1 else s.keys
  return ({ s with keys, keyAllowed := false }.passing 1).push t

/-- The comma of a flow collection. -/
def flowEntry (s : Scanner) : Option Scanner := do
  let s ← s.dropKey
  return ({ s with keyAllowed := true }.passing 1).push .flowEntry

/-- The dash of an item. -/
def blockEntry (s : Scanner) : Option Scanner := do
  if !s.inFlow && !s.keyAllowed then none
  let s ← (s.roll s.cursor.column none .blockSequenceStart).dropKey
  return ({ s with keyAllowed := true }.passing 1).push .blockEntry

/-- The question mark of a key. -/
def explicitKey (s : Scanner) : Option Scanner := do
  if !s.inFlow && !s.keyAllowed then none
  let s ← (s.roll s.cursor.column none .blockMappingStart).dropKey
  return ({ s with keyAllowed := !s.inFlow }.passing 1).push .key

/-- The colon after a key: the pending one, or one that was marked as a key. -/
def colon (s : Scanner) : Option Scanner := do
  match ← s.currentKey with
  | some k =>
      let s := (s.insertAt k.token .key).roll k.column (some k.token) .blockMappingStart
      return ({ s with keys := none :: s.keys.drop 1, keyAllowed := false }.passing 1).push .value
  | none =>
      if !s.inFlow && !s.keyAllowed then none
      let s := s.roll s.cursor.column none .blockMappingStart
      return ({ s with keyAllowed := !s.inFlow }.passing 1).push .value

/-- A block scalar. -/
def blockScalar (s : Scanner) (literal : Bool) : Option Scanner := do
  let s ← s.dropKey
  let (text, s) ← { s with keyAllowed := true }.reading (do pass; readBlock literal s.indent)
  return s.push (.scalar text false)

/-- A quoted scalar. -/
def quotedScalar (s : Scanner) (quote : Char) : Option Scanner :=
  s.keyLike do
    pass
    return .scalar (← readQuoted quote ((← upcoming).length + 1) "") false

/-- A plain scalar.  After a line break a key may start. -/
def plainScalar (s : Scanner) : Option Scanner := do
  let s ← s.saveKey
  let ((text, ended), s) ← { s with keyAllowed := false }.reading
    (readPlain s.inFlow (s.indent + 1) (s.cursor.rest.length + 1) {} "")
  return { s.push (.scalar text true) with keyAllowed := ended }

/-- Whether a plain scalar may start with these characters. -/
def startsPlain (inFlow : Bool) : List Char → Bool
  | [] => false
  | c :: rest =>
      if isBlank c || isBreak c then false
      else if c = '-' then !headIs isBlank rest
      else if c = '?' ∨ c = ':' then !inFlow && !atGap rest
      else !",[]\x7b\x7d#&*!|>'\"%@\x60".toList.contains c

/-- The token of an indicator, or a scalar. -/
def fetchContent (s : Scanner) : Option Scanner :=
  match s.cursor.rest with
  | [] => none
  | c :: rest =>
      if c = '[' then s.openFlow .flowSequenceStart
      else if c = '\x7b' then s.openFlow .flowMappingStart
      else if c = ']' then s.closeFlow .flowSequenceEnd
      else if c = '\x7d' then s.closeFlow .flowMappingEnd
      else if c = ',' then s.flowEntry
      else if c = '-' ∧ atGap rest then s.blockEntry
      else if c = '?' ∧ (s.inFlow ∨ atGap rest) then s.explicitKey
      else if c = ':' ∧ (s.inFlow ∨ atGap rest) then s.colon
      else if c = '*' then s.keyLike (return .aliasOf (← readName))
      else if c = '&' then s.keyLike (return .anchor (← readName))
      else if c = '!' then s.keyLike (do let (h, t) ← readTag; return .tag h t)
      else if c = '|' ∧ !s.inFlow then s.blockScalar true
      else if c = '>' ∧ !s.inFlow then s.blockScalar false
      else if c = '\'' ∨ c = '"' then s.quotedScalar c
      else if startsPlain s.inFlow (c :: rest) then s.plainScalar
      else none

/-- The next token, and those that indentation brings with it. -/
def fetch (s : Scanner) : Option Scanner := do
  let s := skipToToken (s.cursor.rest.length + 1) s
  let s := s.unroll s.cursor.column
  let c := s.cursor
  if c.rest.isEmpty then
    let s ← s.topLevel
    return s.push .streamEnd
  if c.column = 0 && c.rest.head? = some '%' then
    let (t, s) ← (← s.topLevel).reading readDirective
    return s.push t
  if c.isIndicator '-' then
    return ((← s.topLevel).passing 3).push .documentStart
  if c.isIndicator '.' then
    return ((← s.topLevel).passing 3).push .documentEnd
  let s ← s.fetchContent
  return if s.tokens.back? = some .blockEntry then s else s.skipLineComment

end Scanner

/-- The tokens of a text. -/
structure Tokens where
  tokens : Array Token
  /-- Set if the text is malformed after the last token: the numbers of the tokens that
  may still turn out to be keys. -/
  fault : Option (List Nat) := none

/-- Read tokens up to the end of the text or to the first fault. -/
def scanWith : Nat → Scanner → Tokens
  | 0, s => ⟨s.tokens, some []⟩
  | fuel + 1, s =>
      if s.tokens.back? = some .streamEnd then ⟨s.tokens, none⟩
      else
        match s.fetch with
        | some s => scanWith fuel s
        | none => ⟨s.tokens, some (s.keys.filterMap fun k =>
            (k.filter fun k => s.isFresh k || k.required).map (·.token))⟩

/-- The tokens of a text.  Every token but the last takes at least one character. -/
def scan (text : List Char) : Tokens := scanWith (text.length + 2) { cursor := { rest := text } }

end SymbolAtlas.Yaml
