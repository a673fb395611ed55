/-
# SymbolAtlas.FileTree -- a tree of files, directories and links

A tree is a finite map from clean rooted paths to entries.  `resolve` follows
symbolic links, each relative target from the directory of its link, and gives up
after forty of them.  All other operations are stated on resolved paths.
-/
import SymbolAtlas.Table
import SymbolAtlas.Text.Path

set_option autoImplicit false

namespace SymbolAtlas

open Text

/-- What stands at a path. -/
inductive Entry where
  | directory
  /-- A regular file; `modified` counts seconds. -/
  | file (content : ByteArray) (modified : Int)
  | link (target : String)
deriving Inhabited

/-- Why a path cannot be used. -/
inductive FileError where
  | notFound
  | notDirectory
  | isDirectory
  | alreadyExists
  | tooManyLinks
  | noSpace
deriving DecidableEq, Repr

/-- The reason as the system words it. -/
def FileError.reason : FileError → String
  | notFound => "no such file or directory"
  | notDirectory => "not a directory"
  | isDirectory => "is a directory"
  | alreadyExists => "file exists"
  | tooManyLinks => "too many levels of symbolic links"
  | noSpace => "no space left on device"

/-- Entries by clean rooted path.  The root is always a directory. -/
structure FileTree where
  entries : Table String Entry := .empty
  /-- Where relative paths start. -/
  workingDirectory : String := "/"
deriving Inhabited

namespace FileTree

/-- The path of the elements of a stack, last first. -/
def pathOf (stack : List String) : String := "/" ++ Path.ofElements stack.reverse

/-- The device that has room for nothing. -/
def fullDevice : String := "/dev/full"

/-- What the system keeps at a clean rooted path, whatever is in the tree. -/
def system? (path : String) : Option Entry :=
  if path = "/" ∨ path = "/dev" then some .directory
  else if path = fullDevice then some (.file .empty 0)
  else none

/-- What stands at a clean rooted path. -/
def entry? (t : FileTree) (path : String) : Option Entry :=
  (system? path).or (t.entries.get? path)

/-- The elements of a path that say something. -/
def steps (path : String) : List String :=
  (Path.elements path).filter fun e => e ≠ "" ∧ e ≠ "."

/-- Where a walk ends, or what it has to follow. -/
inductive Walk where
  | arrived (stack : List String)
  | failed (reason : FileError)
  /-- A link in the directory `stack`, with what is to be walked behind it. -/
  | link (target : String) (stack rest : List String)

/-- Walk down `todo` from the directory `stack` to the next link; the last element is one only
if `follow` says so. -/
def walk (t : FileTree) (follow : Bool) (stack : List String) : List String → Walk
  | [] => .arrived stack
  | ".." :: rest => walk t follow (stack.drop 1) rest
  | e :: rest =>
      match t.entry? (pathOf (e :: stack)) with
      | none => .failed .notFound
      | some .directory => walk t follow (e :: stack) rest
      | some (.file ..) => if rest = [] then .arrived (e :: stack) else .failed .notDirectory
      | some (.link target) =>
          if rest = [] ∧ !follow then .arrived (e :: stack) else .link target stack rest

/-- Walk down `todo` from the directory `stack`, following as many links. -/
def walkDown (t : FileTree) (follow : Bool) :
    Nat → List String → List String → Except FileError (List String)
  | links, stack, todo =>
      match t.walk follow stack todo, links with
      | .arrived stack, _ => .ok stack
      | .failed reason, _ => .error reason
      | .link .., 0 => .error .tooManyLinks
      | .link target stack rest, links + 1 =>
          walkDown t follow links (if Path.isRooted target then [] else stack)
            (steps target ++ rest)

/-- The path that a path leads to, links at its end followed or not.  The empty path
leads nowhere. -/
def resolveWith (t : FileTree) (follow : Bool) (path : String) : Except FileError String :=
  if path = "" then .error .notFound
  else
    let path := if Path.isRooted path then path else t.workingDirectory ++ "/" ++ path
    (walkDown t follow 40 [] (steps path)).map pathOf

/-- The path without links that a path leads to. -/
def resolve (t : FileTree) (path : String) : Except FileError String := t.resolveWith true path

/-- The same, but a link at the end stays one. -/
def resolveParent (t : FileTree) (path : String) : Except FileError String :=
  t.resolveWith false path

/-- The entry that a path leads to, through links. -/
def stat (t : FileTree) (path : String) : Except FileError Entry := do
  let path ← t.resolve path
  match t.entry? path with
  | some e => return e
  | none => throw .notFound

/-- The entry at a path, a link being one. -/
def lstat (t : FileTree) (path : String) : Except FileError Entry := do
  let path ← t.resolveParent path
  match t.entry? path with
  | some e => return e
  | none => throw .notFound

/-- Whether what stands at a path has room for nothing. -/
def isFull (t : FileTree) (path : String) : Bool := (t.resolve path).toOption = some fullDevice

/-- Whether something can be reached at a path. -/
def «exists» (t : FileTree) (path : String) : Bool := (t.stat path).isOk

/-- The content of a file. -/
def read (t : FileTree) (path : String) : Except FileError ByteArray := do
  match ← t.stat path with
  | .file content _ => return content
  | _ => throw .isDirectory

/-- The content of a file as a list of bytes. -/
def readBytes? (t : FileTree) (path : String) : Option (List UInt8) :=
  match t.read path with
  | .ok content => some content.toList
  | .error _ => none

/-- The names in a directory with their entries, in ascending order. -/
def children (t : FileTree) (path : String) : List (String × Entry) :=
  let lead := if path = "/" then "/" else path ++ "/"
  let below := t.entries.entries.filterMap fun (p, e) =>
    if Path.startsWith p lead then
      let name := Path.trimLead p lead
      if name = "" ∨ name.toList.contains '/' then none else some (name, e)
    else none
  below.mergeSort fun a b => a.1 ≤ b.1

/-! ## Changes -/

/-- Make the directory `e` in the directory `real`, unless there is one; its path
without links. -/
def makeDirectory (t : FileTree) (real : List String) (e : String) :
    Except FileError (List String × FileTree) :=
  let here := pathOf (e :: real)
  match t.stat here with
  | .ok .directory => .ok (steps ((t.resolve here).toOption.getD here) |>.reverse, t)
  | .ok _ => .error .notDirectory
  | .error reason =>
      match t.lstat here with
      | .ok _ => .error .alreadyExists
      | .error .notFound =>
          .ok (e :: real, { t with entries := t.entries.insert here .directory })
      | .error _ => .error reason

/-- Make a directory and those above it.  Fails at the first part of the path that is
taken by something else. -/
def makeDirectories (t : FileTree) (path : String) : Except (String × FileError) FileTree :=
  let rec go (t : FileTree) (real shown : List String) : List String →
      Except (String × FileError) FileTree
    | [] => .ok t
    | ".." :: rest => go t (real.drop 1) (shown ++ [".."]) rest
    | e :: rest =>
        let shown := shown ++ [e]
        match t.makeDirectory real e with
        | .ok (real, t) => go t real shown rest
        | .error reason =>
            let lead := if Path.isRooted path then "/" else ""
            .error (lead ++ Path.ofElements shown, reason)
  let start := if Path.isRooted path then [] else (steps t.workingDirectory).reverse
  go t start [] (steps path)

/-- The place where a new entry of that path stands. -/
def place (t : FileTree) (path : String) : Except FileError String := do
  let path := Path.absolute t.workingDirectory path
  let parent ← t.resolve (Path.directory path)
  match t.entry? parent with
  | some .directory => return Path.join [parent, Path.base path]
  | some _ => throw .notDirectory
  | none => throw .notFound

/-- Write a file, through a link if one stands there. -/
def writeFile (t : FileTree) (path : String) (content : ByteArray) (modified : Int) :
    Except FileError FileTree := do
  let path ← match t.resolve path with
    | .ok p => pure p
    | .error _ => t.place path
  match t.entry? path with
  | some .directory => throw .isDirectory
  | _ =>
      if path = fullDevice then
        if content.isEmpty then return t else throw .noSpace
      return { t with entries := t.entries.insert path (.file content modified) }

/-- Put an entry at a path, making the directories above it. -/
def put (t : FileTree) (path : String) (e : Entry) : FileTree :=
  let path := Path.absolute t.workingDirectory path
  match t.makeDirectories (Path.directory path) with
  | .error _ => t
  | .ok t =>
      match e with
      | .directory => (t.makeDirectories path).toOption.getD t
      | .file content modified => (t.writeFile path content modified).toOption.getD t
      | .link _ =>
          match t.place path with
          | .ok p => if t.entries.contains p then t else { t with entries := t.entries.insert p e }
          | .error _ => t

/-- Set the time of the last change of a file. -/
def touch (t : FileTree) (path : String) (modified : Int) : Except FileError FileTree := do
  let path ← t.resolve path
  match t.entry? path with
  | some (.file content _) =>
      return { t with entries := t.entries.insert path (.file content modified) }
  | some _ => return t
  | none => throw .notFound

/-- Remove what stands at a path, and everything below it. -/
def remove (t : FileTree) (path : String) : Except FileError FileTree := do
  let path ← t.resolveParent path
  return { t with entries := t.entries.filter fun (p, _) =>
    p ≠ path ∧ !Path.startsWith p (path ++ "/") }

end FileTree
end SymbolAtlas
