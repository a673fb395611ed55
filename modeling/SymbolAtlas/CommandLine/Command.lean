/-
# SymbolAtlas.CommandLine.Command -- the commands

The first argument that is no flag, and no value of one, names the command; flags may
stand before it.  A name that no command has is refused, with the commands that may
have been meant.
-/
import SymbolAtlas.CommandLine.Flags

set_option autoImplicit false

namespace SymbolAtlas.CommandLine

open Text

/-- The name of the program. -/
def programName : String := "codebase-xref"

/-- The version of the program. -/
def programVersion : String := "dev"

/-- A command. -/
inductive Command where
  /-- No command at all. -/
  | overview
  | index
  | serve
  | dump
  | version
  | help
  | completion
deriving DecidableEq, Repr, Inhabited

namespace Command

/-- The commands that can be named. -/
def all : List Command := [index, serve, dump, version, help, completion]

/-- The name of a command. -/
def name : Command → String
  | overview => ""
  | index => "index"
  | serve => "serve"
  | dump => "dump"
  | version => "version"
  | help => "help"
  | completion => "completion"

/-- A command with the name of the program. -/
def path : Command → String
  | overview => programName
  | c => programName ++ " " ++ c.name

/-- The flags of every command. -/
def commonFlags : List Flag :=
  [{ name := "db" }, { name := "verbose", letter := some 'v', isSwitch := true }]

/-- The flag that asks for help. -/
def helpFlag : Flag := { name := "help", letter := some 'h', isSwitch := true }

/-- The flags of a command alone. -/
def ownFlags : Command → List Flag
  | index => [{ name := "lsif" }, { name := "tests", isSwitch := true },
      { name := "force", isSwitch := true }]
  | serve => [{ name := "no-watch", isSwitch := true }]
  | dump => [{ name := "file" }, { name := "tests", isSwitch := true }]
  | _ => []

/-- All flags of a command. -/
def flags (c : Command) : List Flag := c.ownFlags ++ commonFlags ++ [helpFlag]

end Command

/-! ## Finding the command -/

/-- Whether an argument takes the next one as its value, as far as that can be told from
the flags of every command: a flag that is unknown here counts as one with a value. -/
def takesNext (argument : String) : Bool :=
  !argument.toList.contains '=' &&
    ((Path.startsWith argument "--" &&
        !((named? Command.commonFlags (Path.trimLead argument "--")).map (·.isSwitch)).getD false) ||
      match argument.toList with
      | ['-', c] => c.utf8Size = 1 && !((lettered? Command.commonFlags c).map (·.isSwitch)).getD false
      | _ => false)

/-- The arguments that are neither flags nor values of flags.  A flag that takes the last
argument ends the search. -/
def words : List String → List String
  | [] => []
  | argument :: rest =>
      if argument = "--" then []
      else if takesNext argument then
        match rest with
        | _ :: next :: more => words (next :: more)
        | _ => []
      else if argument ≠ "" ∧ !Path.startsWith argument "-" then argument :: words rest
      else words rest

/-- Arguments without the first one that is a word and no value of a flag. -/
def withoutWord (word : String) : List String → List String
  | [] => []
  | argument :: rest =>
      if argument = "--" then argument :: rest
      else if takesNext argument then
        match rest with
        | value :: more => argument :: value :: withoutWord word more
        | [] => [argument]
      else if argument = word then rest
      else argument :: withoutWord word rest

/-! ## Suggestions -/

/-- The next row of the table of edit distances. -/
def nextRow (b : UInt8) : List UInt8 → List Nat → Nat → List Nat
  | a :: as, diagonal :: above :: row, left =>
      let here := if a = b then diagonal else 1 + min (min left above) diagonal
      here :: nextRow b as (above :: row) here
  | _, _, _ => []

/-- The number of bytes to insert, delete or replace to get from one text to another. -/
def editDistance (source target : List UInt8) : Nat :=
  let first := List.range (source.length + 1)
  let rows := target.foldl (fun (row : List Nat) b =>
    let start := row.head?.getD 0 + 1
    start :: nextRow b source row start) first
  rows.getLast?.getD 0

/-- A text in lower-case letters. -/
def lower (text : String) : String := String.ofList (text.toList.map Char.toLower)

/-- Whether a name may have been meant by a word. -/
def isMeant (word name : String) : Bool :=
  editDistance (Utf8.encode (lower word)) (Utf8.encode name) ≤ 2 ||
    Path.startsWith name (lower word)

/-- The commands that may have been meant by a word. -/
def suggestions (word : String) : List String :=
  ((Command.all.filter (· ≠ .help)).map (·.name)).filter (isMeant word)

/-! ## Reading the arguments -/

/-- What is wrong with the arguments. -/
inductive UsageError where
  | unknownCommand (word path : String) (meant : List String)
  | tooMany (limit received : Nat)
  | flag (error : FlagError)
deriving DecidableEq, Repr

/-- The error in words. -/
def UsageError.message : UsageError → String
  | unknownCommand word path meant =>
      "unknown command " ++ Quoted.quote word ++ " for " ++ Quoted.quote path ++
        (if meant.isEmpty then ""
          else "\n\nDid you mean this?\n" ++ String.join (meant.map fun name => "\t" ++ name ++ "\n"))
  | tooMany limit received =>
      "accepts at most " ++ toString limit ++ " arg(s), received " ++ toString received
  | flag error => error.message

/-- The command that arguments name, and the arguments for it. -/
def findCommand (arguments : List String) : Except UsageError (Command × List String) :=
  match words arguments with
  | [] => .ok (.overview, arguments)
  | word :: _ =>
      match Command.all.find? (·.name = word) with
      | some c => .ok (c, withoutWord word arguments)
      | none => .error (.unknownCommand word programName (suggestions word))

/-- Whether a command takes operands: `index` and `dump` one path at most. -/
def checkOperands (c : Command) (operands : List String) : Except UsageError Unit :=
  match c, operands with
  | .index, operands | .dump, operands =>
      if 1 < operands.length then .error (.tooMany 1 operands.length) else .ok ()
  | .serve, word :: _ | .version, word :: _ => .error (.unknownCommand word c.path [])
  | _, _ => .ok ()

/-- A command with what its arguments say. -/
structure Invocation where
  command : Command
  parsed : Parsed
deriving Inhabited

/-- Whether the invocation only asks how the program is used. -/
def Invocation.wantsHelp (i : Invocation) : Bool :=
  i.parsed.isOn "help" || [.overview, .help, .completion].contains i.command

/-- Read arguments. -/
def Invocation.ofArguments (arguments : List String) : Except UsageError Invocation := do
  let (command, rest) ← findCommand arguments
  let parsed ← (Parsed.ofArguments command.flags rest).mapError .flag
  let i : Invocation := { command, parsed }
  unless i.wantsHelp do checkOperands command parsed.operands
  return i

end SymbolAtlas.CommandLine
