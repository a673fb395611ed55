/-
# SymbolAtlas.Text.Path -- slash-separated paths as lists of elements

All operations are lexical.  `clean` is the normal form: no empty or `.`
element, and `..` only at the front of a path that is not rooted.  `relative?`
gives the path that leads from one directory to another, and `within?` answers
only if that path never leaves the first.
-/
set_option autoImplicit false

namespace SymbolAtlas.Text.Path

/-- The texts between the slashes. -/
def elements (path : String) : List String :=
  (path.toList.splitOn '/').map String.ofList

/-- Elements joined by slashes. -/
def ofElements (parts : List String) : String := "/".intercalate parts

/-- Whether the path starts at the root. -/
def isRooted (path : String) : Bool := path.toList.head? = some '/'

/-- Whether `text` starts with `lead`. -/
def startsWith (text lead : String) : Bool := lead.toList.isPrefixOf text.toList

/-- Whether `text` ends with `tail`. -/
def endsWith (text tail : String) : Bool := tail.toList.isSuffixOf text.toList

/-- `text` without a leading `lead`, or unchanged. -/
def trimLead (text lead : String) : String :=
  if startsWith text lead then String.ofList (text.toList.drop lead.length) else text

/-- `text` without a trailing `tail`, or unchanged. -/
def trimTail (text tail : String) : String :=
  if endsWith text tail then String.ofList (text.toList.take (text.length - tail.length)) else text

/-- One step of normalisation; `stack` holds the elements so far, last first. -/
def step (rooted : Bool) (stack : List String) (part : String) : List String :=
  if part = "" ∨ part = "." then stack
  else if part = ".." then
    match stack with
    | [] => if rooted then [] else [".."]
    | top :: rest => if top = ".." then ".." :: stack else rest
  else part :: stack

/-- The elements of the normal form. -/
def cleanElements (path : String) : List String :=
  ((elements path).foldl (step (isRooted path)) []).reverse

/-- The shortest path that names the same place. -/
def clean (path : String) : String :=
  let parts := cleanElements path
  if isRooted path then "/" ++ ofElements parts
  else if parts = [] then "." else ofElements parts

/-- Join paths, skipping empty ones; no path at all gives the empty text. -/
def join (paths : List String) : String :=
  match paths.filter (· ≠ "") with
  | [] => ""
  | some_paths => clean (ofElements some_paths)

/-- The directory of a path, in normal form. -/
def directory (path : String) : String :=
  let parts := (elements path).dropLast
  if parts = [] then "." else clean (ofElements parts ++ "/")

/-- The last element of a path; trailing slashes do not count. -/
def base (path : String) : String :=
  if path = "" then "."
  else ((elements path).reverse.find? (· ≠ "")).getD "/"

/-- The text from the last dot of the last element on, or nothing. -/
def extension (path : String) : String :=
  let last := ((elements path).getLast?).getD ""
  match last.toList.splitOn '.' with
  | [] | [_] => ""
  | parts => "." ++ String.ofList (parts.getLast?.getD [])

/-- Drop the elements two lists have in common at the front. -/
def dropCommon : List String → List String → List String × List String
  | a :: as, b :: bs => if a = b then dropCommon as bs else (a :: as, b :: bs)
  | as, bs => (as, bs)

/-- The path that leads from directory `origin` to `target`.  There is none if
only one of them is rooted, or if `origin` lies above a place without a name. -/
def relative? (origin target : String) : Option String :=
  let origin := clean origin
  let target := clean target
  if target = origin then some "."
  else if isRooted origin ≠ isRooted target then none
  else
    let strip (path : String) := (elements path).filter (· ≠ "")
    let up := if origin = "." then [] else strip origin
    match dropCommon up (strip target) with
    | (".." :: _, _) => none
    | (rest, down) => some (ofElements (rest.map (fun _ => "..") ++ down))

/-- Whether a relative path leads out of the directory it starts from. -/
def leaves (relative : String) : Bool := relative = ".." || startsWith relative "../"

/-- The path from `origin` to `target`, if `target` is `origin` or lies below it. -/
def within? (origin target : String) : Option String :=
  (relative? origin target).filter (fun relative => !leaves relative)

/-- Whether `target` is `origin` or lies below it. -/
def isWithin (origin target : String) : Bool := (within? origin target).isSome

/-- A path in normal form that starts at the root: a relative one starts at `cwd`. -/
def absolute (cwd path : String) : String :=
  if isRooted path then clean path else join [cwd, path]

end SymbolAtlas.Text.Path
