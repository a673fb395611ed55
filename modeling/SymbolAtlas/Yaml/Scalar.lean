/-
# SymbolAtlas.Yaml.Scalar -- the text of scalars

A scalar is plain, quoted or a block.  Line breaks inside plain and quoted scalars
are folded: one break is read as a blank, and of several all but the first are
kept.  Block scalars keep their breaks or fold them, and chomp the last ones.
Every reader fails where the text is malformed.
-/
import SymbolAtlas.Yaml.Cursor

set_option autoImplicit false

namespace SymbolAtlas.Yaml

/-- Reads from a cursor, or fails. -/
abbrev Scan := StateT Cursor Option

/-- The characters that are still to be read. -/
def upcoming : Scan (List Char) := return (← get).rest

/-- Pass one character. -/
def pass : Scan Unit := modify Cursor.skip

/-- Fail unless `condition` holds. -/
def require (condition : Bool) : Scan Unit := if condition then pure () else failure

/-! ## Folded gaps -/

/-- What stands between two words of a scalar. -/
structure Gap where
  /-- The blanks, as long as no line ended. -/
  blanks : String := ""
  lineEnded : Bool := false
  /-- The first line break. -/
  first : String := ""
  /-- The line breaks after the first. -/
  more : String := ""

/-- What a gap is read as. -/
def Gap.text (g : Gap) : String :=
  if !g.lineEnded then g.blanks
  else if g.first = "\n" then (if g.more = "" then " " else g.more)
  else g.first ++ g.more

/-- Read a gap.  Tabs must not stand before the column `least` on a new line. -/
def readGap (least : Int) : Nat → Gap → Scan Gap
  | 0, g => return g
  | fuel + 1, g => do
      let c ← get
      match c.rest with
      | [] => return g
      | ch :: _ =>
          if isBlank ch then
            require !(g.lineEnded && ch = '\t' && (c.column : Int) < least)
            pass
            readGap least fuel (if g.lineEnded then g else { g with blanks := g.blanks.push ch })
          else if isBreak ch then
            let (line, c) := c.takeLine
            set c
            readGap least fuel
              (if g.lineEnded then { g with more := g.more ++ line }
                else { blanks := "", lineEnded := true, first := line })
          else return g

/-! ## Plain scalars -/

/-- Whether a plain scalar ends before these characters. -/
def endsPlain (inFlow : Bool) : List Char → Bool
  | [] => true
  | ':' :: rest => atGap rest
  | c :: _ => inFlow && [',', '?', '[', ']', '\x7b', '\x7d'].contains c

/-- One word of a plain scalar. -/
def readPlainWord (inFlow : Bool) : Nat → String → Scan String
  | 0, word => return word
  | fuel + 1, word => do
      match ← upcoming with
      | [] => return word
      | c :: rest =>
          if atGap (c :: rest) || endsPlain inFlow (c :: rest) then return word
          else
            pass
            readPlainWord inFlow fuel (word.push c)

/-- The rest of a plain scalar, and whether it ends after a line break. -/
def readPlain (inFlow : Bool) (least : Int) : Nat → Gap → String → Scan (String × Bool)
  | 0, gap, text => return (text, gap.lineEnded)
  | fuel + 1, gap, text => do
      let c ← get
      if c.atDocumentMark || headIs (· = '#') c.rest then return (text, gap.lineEnded)
      let word ← readPlainWord inFlow (c.rest.length + 1) ""
      let (gap, text) := if word = "" then (gap, text) else (({} : Gap), text ++ gap.text ++ word)
      let rest ← upcoming
      if rest.isEmpty || !atGap rest then return (text, gap.lineEnded)
      let gap ← readGap least (rest.length + 1) gap
      let c ← get
      if !inFlow && (c.column : Int) < least then return (text, gap.lineEnded)
      readPlain inFlow least fuel gap text

/-! ## Quoted scalars -/

/-- The characters that a one-letter escape stands for. -/
def escaped? (c : Char) : Option Char :=
  [('0', '\x00'), ('a', '\x07'), ('b', '\x08'), ('t', '\t'), ('\t', '\t'), ('n', '\n'),
    ('v', '\x0b'), ('f', '\x0c'), ('r', '\r'), ('e', '\x1b'), (' ', ' '), ('"', '"'),
    ('\'', '\''), ('\\', '\\'), ('N', '\u0085'), ('_', '\u00a0'), ('L', '\u2028'),
    ('P', '\u2029')].lookup c

/-- The number of hexadecimal digits of an escape. -/
def escapeWidth? (c : Char) : Option Nat := [('x', 2), ('u', 4), ('U', 8)].lookup c

/-- The value of a hexadecimal digit. -/
def hexDigit? (c : Char) : Option Nat :=
  if c.isDigit then some (c.toNat - 48)
  else if 'a' ≤ c ∧ c ≤ 'f' then some (c.toNat - 87)
  else if 'A' ≤ c ∧ c ≤ 'F' then some (c.toNat - 55)
  else none

/-- The number of `width` hexadecimal digits. -/
def readHex : Nat → Nat → Scan Nat
  | 0, n => return n
  | width + 1, n => do
      match (← upcoming).head?.bind hexDigit? with
      | some d =>
          pass
          readHex width (n * 16 + d)
      | none => failure

/-- An escape after its backslash. -/
def readEscape (c : Char) : Scan Char := do
  pass
  match escaped? c, escapeWidth? c with
  | some ch, _ => return ch
  | none, some width =>
      let code ← readHex width 0
      require (code < 0xD800 || (0xE000 ≤ code && code < 0x110000))
      return Char.ofNat code
  | none, none => failure

/-- One word of a quoted scalar, and whether an escaped line break ends it. -/
def readQuotedWord (quote : Char) : Nat → String → Scan (String × Bool)
  | 0, word => return (word, false)
  | fuel + 1, word => do
      match ← upcoming with
      | [] => return (word, false)
      | c :: rest =>
          if atGap (c :: rest) then return (word, false)
          else if c = quote then
            if quote = '\'' ∧ rest.head? = some '\'' then
              pass
              pass
              readQuotedWord quote fuel (word.push '\'')
            else return (word, false)
          else if c = '\\' ∧ quote = '"' then
            pass
            match rest with
            | [] => failure
            | e :: _ =>
                if isBreak e then
                  modify Cursor.skipLine
                  return (word, true)
                else
                  let ch ← readEscape e
                  readQuotedWord quote fuel (word.push ch)
          else
            pass
            readQuotedWord quote fuel (word.push c)

/-- The rest of a quoted scalar, with its closing quote. -/
def readQuoted (quote : Char) : Nat → String → Scan String
  | 0, _ => failure
  | fuel + 1, text => do
      let c ← get
      require !(c.atDocumentMark || c.rest.isEmpty)
      let (word, joined) ← readQuotedWord quote (c.rest.length + 1) ""
      let text := text ++ word
      let rest ← upcoming
      if rest.head? = some quote then
        pass
        return text
      else
        let gap ← readGap (-1) (rest.length + 1) { lineEnded := joined }
        readQuoted quote fuel (text ++ gap.text)

/-! ## Block scalars -/

/-- What becomes of the line breaks at the end of a block scalar. -/
inductive Chomping where
  | strip
  | clip
  | keep
deriving DecidableEq, Repr

/-- The header of a block scalar: chomping and indentation, in either order. -/
def readBlockHeader : Scan (Chomping × Nat) := do
  let chomp : Scan (Option Chomping) := do
    match ← upcoming with
    | '+' :: _ => pass; return some .keep
    | '-' :: _ => pass; return some .strip
    | _ => return none
  let digit : Scan Nat := do
    match ← upcoming with
    | c :: _ =>
        if c.isDigit then
          require (c ≠ '0')
          pass
          return c.toNat - 48
        else return 0
    | [] => return 0
  match ← chomp with
  | some chomping => return (chomping, ← digit)
  | none =>
      let indent ← digit
      if indent = 0 then return (.clip, 0)
      return ((← chomp).getD .clip, indent)

/-- Blanks, a comment and a line break, or the end of the text. -/
def readLineEnd : Scan Unit := do
  modify (Cursor.skipWhile isBlank)
  if headIs (· = '#') (← upcoming) then modify Cursor.skipComment
  require (atBreak (← upcoming))
  modify Cursor.skipLine

/-- Empty lines and the indentation of the next line.  An indentation of zero is not
known yet; the widest line then decides. -/
def readIndentation (indent : Nat) : Nat → Nat → String → Scan (Nat × String)
  | 0, widest, breaks => return (widest, breaks)
  | fuel + 1, widest, breaks => do
      let c ← get
      let spaces := (c.rest.takeWhile (· = ' ')).length
      let c := c.skipMany (if indent = 0 then spaces else min spaces (indent - c.column))
      set c
      let widest := max widest c.column
      require !((indent = 0 || c.column < indent) && headIs (· = '\t') c.rest)
      if headIs isBreak c.rest then
        let (line, c) := c.takeLine
        set c
        readIndentation indent fuel widest (breaks ++ line)
      else return (widest, breaks)

/-- The indentation of a block scalar below the indentation `outer`. -/
def settleIndent (outer : Int) (indent widest : Nat) : Nat :=
  if indent = 0 then max (max widest (outer + 1).toNat) 1 else indent

/-- A block scalar on its way. -/
structure BlockText where
  text : String := ""
  /-- The break that ended the last line. -/
  lineBreak : String := ""
  /-- The breaks of the empty lines after it. -/
  empty : String := ""
  /-- Whether the last line started with a blank. -/
  leadingBlank : Bool := false

/-- The lines of a block scalar. -/
def readBlockLines (literal : Bool) (indent : Nat) : Nat → BlockText → Scan BlockText
  | 0, b => return b
  | fuel + 1, b => do
      let c ← get
      if c.column ≠ indent || c.rest.isEmpty then return b
      let blank := headIs isBlank c.rest
      let folds := !literal && !b.leadingBlank && !blank && b.lineBreak = "\n"
      let joint := if folds then (if b.empty = "" then " " else "") else b.lineBreak
      let line := String.ofList (c.rest.takeWhile fun ch => !isBreak ch)
      let (lineBreak, c) := c.skipComment.takeLine
      set c
      let (_, empty) ← readIndentation indent (c.rest.length + 1) 0 ""
      readBlockLines literal indent fuel
        { text := b.text ++ joint ++ b.empty ++ line, lineBreak, empty, leadingBlank := blank }

/-- A block scalar after its indicator, below the indentation `outer`. -/
def readBlock (literal : Bool) (outer : Int) : Scan String := do
  let (chomping, increment) ← readBlockHeader
  readLineEnd
  let given := if increment = 0 then 0 else (max outer 0).toNat + increment
  let fuel := (← upcoming).length + 1
  let (widest, empty) ← readIndentation given fuel 0 ""
  let b ← readBlockLines literal (settleIndent outer given widest) fuel { empty }
  return match chomping with
    | .strip => b.text
    | .clip => b.text ++ b.lineBreak
    | .keep => b.text ++ b.lineBreak ++ b.empty

end SymbolAtlas.Yaml
