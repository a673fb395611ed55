/-
# SymbolAtlas.CommandLine.Flags -- flags among arguments

A flag is given by its name behind two dashes or by a letter behind one.  A switch
stands alone, or takes a truth value behind an equals sign; every other flag takes the
text behind an equals sign or the next argument.  Letters of switches may stand behind
one dash together.  Two dashes alone end the flags.
-/
import SymbolAtlas.Table
import SymbolAtlas.Text.Path
import SymbolAtlas.Text.Quoted

set_option autoImplicit false

namespace SymbolAtlas.CommandLine

open Text

/-- A flag of a command. -/
structure Flag where
  name : String
  letter : Option Char := none
  /-- Whether the flag stands for a truth value. -/
  isSwitch : Bool := false
deriving DecidableEq, Repr, Inhabited

/-- The flag as messages name it. -/
def Flag.title (f : Flag) : String :=
  (f.letter.map fun c => "-" ++ c.toString ++ ", ").getD "" ++ "--" ++ f.name

/-- What is wrong with a flag. -/
inductive FlagError where
  | unknown (name : String)
  | unknownLetter (letter : Char) (letters : String)
  | malformed (argument : String)
  | noValue (name : String)
  | noValueForLetter (letter : Char) (letters : String)
  | invalid (value : String) (flag : Flag)
deriving DecidableEq, Repr

/-- The error in words. -/
def FlagError.message : FlagError → String
  | unknown name => "unknown flag: --" ++ name
  | unknownLetter letter letters =>
      "unknown shorthand flag: " ++ Quoted.quoteChar letter ++ " in -" ++ letters
  | malformed argument => "bad flag syntax: " ++ argument
  | noValue name => "flag needs an argument: --" ++ name
  | noValueForLetter letter letters =>
      "flag needs an argument: " ++ Quoted.quoteChar letter ++ " in -" ++ letters
  | invalid value flag =>
      "invalid argument " ++ Quoted.quote value ++ " for " ++ Quoted.quote flag.title ++
        " flag: strconv.ParseBool: parsing " ++ Quoted.quote value ++ ": invalid syntax"

/-- The truth value of a word. -/
def truthOf? (word : String) : Option Bool :=
  if ["1", "t", "T", "TRUE", "true", "True"].contains word then some true
  else if ["0", "f", "F", "FALSE", "false", "False"].contains word then some false
  else none

/-- What arguments say: the flags and the rest. -/
structure Parsed where
  texts : Table String String := .empty
  switches : Table String Bool := .empty
  /-- The arguments that are no flags. -/
  operands : List String := []
deriving Inhabited

namespace Parsed

/-- The text of a flag, empty if it is not given. -/
def text (p : Parsed) (name : String) : String := (p.texts.get? name).getD ""

/-- Whether a switch is on. -/
def isOn (p : Parsed) (name : String) : Bool := (p.switches.get? name).getD false

/-- Give a flag a value. -/
def set (p : Parsed) (f : Flag) (value : String) : Except FlagError Parsed :=
  if f.isSwitch then
    match truthOf? value with
    | some truth => .ok { p with switches := p.switches.insert f.name truth }
    | none => .error (.invalid value f)
  else .ok { p with texts := p.texts.insert f.name value }

end Parsed

/-- The flag with a name. -/
def named? (flags : List Flag) (name : String) : Option Flag := flags.find? (·.name = name)

/-- The flag with a letter. -/
def lettered? (flags : List Flag) (c : Char) : Option Flag := flags.find? (·.letter = some c)

/-- The text before the first equals sign, and the text behind it if there is one. -/
def splitValue (text : String) : String × Option String :=
  match text.toList.span (· ≠ '=') with
  | (name, []) => (String.ofList name, none)
  | (name, _ :: value) => (String.ofList name, some (String.ofList value))

/-- Read a flag by its name; `next` are the arguments behind it, and those that are left
are returned. -/
def readName (flags : List Flag) (argument : String) (next : List String) (p : Parsed) :
    Except FlagError (Parsed × List String) :=
  let rest := Path.trimLead argument "--"
  if Path.startsWith rest "-" || Path.startsWith rest "=" then .error (.malformed argument)
  else
    let (name, value) := splitValue rest
    match named? flags name with
    | none => .error (.unknown name)
    | some f =>
        match value, f.isSwitch, next with
        | some value, _, next => (p.set f value).map (·, next)
        | none, true, next => (p.set f "true").map (·, next)
        | none, false, value :: next => (p.set f value).map (·, next)
        | none, false, [] => .error (.noValue name)

/-- The first byte of a character as a character. -/
def firstByte (c : Char) : Char :=
  ((Utf8.encode c.toString).head?.map fun b => Char.ofNat b.toNat).getD c

/-- Read flags by their letters.  Letters that start with `test.` are left to others. -/
def readLetters (flags : List Flag) (next : List String) (p : Parsed) (letters : List Char) :
    Except FlagError (Parsed × List String) :=
  match letters with
  | [] => .ok (p, next)
  | c :: rest =>
      let shown := String.ofList letters
      if Path.startsWith shown "test." then .ok (p, next)
      else
        match lettered? flags c with
        | none => .error (.unknownLetter (firstByte c) shown)
        | some f =>
            match f.isSwitch, rest, next with
            | _, '=' :: v :: value, next => (p.set f (String.ofList (v :: value))).map (·, next)
            | true, rest, next =>
                match p.set f "true" with
                | .error e => .error e
                | .ok p => readLetters flags next p rest
            | false, v :: value, next => (p.set f (String.ofList (v :: value))).map (·, next)
            | false, [], value :: next => (p.set f value).map (·, next)
            | false, [], [] => .error (.noValueForLetter c shown)

/-- Read arguments until one is wrong; `fuel` bounds their number. -/
def readWith (flags : List Flag) : Nat → List String → Parsed → Except FlagError Parsed
  | 0, _, p | _, [], p => .ok p
  | fuel + 1, argument :: next, p =>
      if argument = "--" then .ok { p with operands := p.operands ++ next }
      else if argument = "-" ∨ !Path.startsWith argument "-" then
        readWith flags fuel next { p with operands := p.operands ++ [argument] }
      else
        let result :=
          if Path.startsWith argument "--" then readName flags argument next p
          else readLetters flags next p (argument.toList.drop 1)
        match result with
        | .error e => .error e
        | .ok (p, next) => readWith flags fuel next p

/-- Read arguments. -/
def Parsed.ofArguments (flags : List Flag) (arguments : List String) : Except FlagError Parsed :=
  readWith flags (arguments.length + 1) arguments {}

end SymbolAtlas.CommandLine
