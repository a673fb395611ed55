/-
# SymbolAtlas.Discovery -- the source files of a project

A project's sources are the regular files below its root with the extension of the
language.  Directories that the tools of the language ignore, directories of other
modules and everything that a pattern excludes are left out.  Links are not followed.
What a pattern matches a library decides.
-/
import SymbolAtlas.Cancellation
import SymbolAtlas.FileTree
import SymbolAtlas.Text.Blank
import SymbolAtlas.Text.Lines

set_option autoImplicit false

namespace SymbolAtlas

/-- What patterns match, as a library decides it. -/
class Globs where
  /-- Whether a pattern matches a path. -/
  matchesPath (pattern path : String) : Bool
  /-- Whether a pattern matches a name. -/
  matchesName (pattern name : String) : Bool

namespace Discovery

open Text

/-- The name of the file with further patterns. -/
def ignoreFileName : String := ".xrefignore"

/-- The name of the file that makes a directory a module. -/
def moduleFileName : String := "go.mod"

/-- A source file. -/
structure SourceFile where
  path : String
  /-- The path from the root of the project. -/
  relative : String
  size : Nat
  /-- The time of the last change in nanoseconds. -/
  modified : Int
deriving DecidableEq, Repr, Inhabited

/-- What is to be found. -/
structure Options where
  /-- The file with further patterns, if it is not the one at the root. -/
  ignoreFile : String := ""
  excludes : List String := []
  tests : Bool := false
deriving Inhabited

/-! ## Patterns -/

variable [Globs]

/-- Whether a pattern excludes a path.  A pattern for all that lies below a directory
excludes the directory, and a pattern without a slash counts at any depth. -/
def excludes (pattern path : String) (isDirectory : Bool) : Bool :=
  Globs.matchesPath pattern path ||
    (isDirectory && Path.endsWith pattern "/**" &&
      Globs.matchesPath (Path.trimTail pattern "/**") path) ||
    (!pattern.toList.contains '/' && Globs.matchesName pattern (Path.base path))

/-- Whether one of some patterns excludes a path. -/
def isExcluded (patterns : List String) (path : String) (isDirectory : Bool) : Bool :=
  patterns.any fun pattern => excludes pattern path isDirectory

/-- Directories that are never entered. -/
def ignoredNames : List String := ["node_modules", "testdata"]

/-- Whether a directory is left out. -/
def skipsDirectory (patterns : List String) (name path : String) : Bool :=
  ignoredNames.contains name || Path.startsWith name "_" || Path.startsWith name "." ||
    isExcluded patterns path true

/-- The longest line that an ignore file may have. -/
def ignoreLineLimit : Nat := 65536

/-- The patterns of an ignore file: one a line, without blanks around it and a slash at
its end; lines that start with a number sign are comments. -/
def ignorePatterns (content : List UInt8) : List String :=
  match Lines.readAll? ignoreLineLimit content with
  | none => []
  | some lines =>
      let texts := lines.map fun line => Blank.trim (Utf8.decode line)
      (texts.filter fun line => line ≠ "" && !Path.startsWith line "#").map
        fun line => Path.trimTail line "/"

/-- All patterns of a project at `root`. -/
def patternsOf (tree : FileTree) (root : String) (o : Options) : List String :=
  let ignoreFile :=
    if o.ignoreFile = "" then Path.join [root, ignoreFileName] else o.ignoreFile
  o.excludes ++ ((tree.readBytes? ignoreFile).map ignorePatterns).getD []

/-! ## Files -/

/-- Whether a file of that path is a source file. -/
def isSource (patterns : List String) (tests : Bool) (path relative : String) : Bool :=
  Path.extension path = ".go" && (tests || !Path.endsWith path "_test.go") &&
    !isExcluded patterns relative false

/-- Whether the directory at a path is a module of its own. -/
def isModule (tree : FileTree) (path : String) : Bool :=
  tree.exists (Path.join [path, moduleFileName])

/-- The path of an entry of a directory, seen from the root. -/
def below (relative name : String) : String :=
  if relative = "." then name else relative ++ "/" ++ name

/-- The source files at and below an entry.  `real` is its place in the tree, `path`
the path that leads there; `depth` bounds the directories. -/
def sourcesAt (tree : FileTree) (patterns : List String) (tests : Bool) :
    Nat → Entry → String → String → String → List SourceFile
  | _, .link _, _, _, _ => []
  | _, .file content modified, _, path, relative =>
      if isSource patterns tests path relative then
        [{ path, relative, size := content.size, modified := modified * 1000000000 }]
      else []
  | 0, .directory, _, _, _ => []
  | depth + 1, .directory, real, path, relative =>
      (tree.children real).flatMap fun (name, entry) =>
        let path := Path.join [path, name]
        let relative := below relative name
        match entry with
        | .directory =>
            if skipsDirectory patterns name relative || isModule tree path then []
            else sourcesAt tree patterns tests depth entry (Path.join [real, name]) path relative
        | _ => sourcesAt tree patterns tests depth entry (Path.join [real, name]) path relative

/-- The source files of the project at `root`, by relative path.  Where nothing stands
there are none. -/
def find (tree : FileTree) (root : String) (o : Options) : List SourceFile :=
  let root := Path.absolute tree.workingDirectory root
  let patterns := patternsOf tree root o
  match tree.resolveParent root, tree.lstat root with
  | .ok real, .ok entry =>
      (sourcesAt tree patterns o.tests (tree.entries.size + 1) entry real root ".").mergeSort
        fun a b => a.relative ≤ b.relative
  | _, _ => []

/-! ## Cancellation -/

/-- Where the search for source files looks whether it is canceled. -/
inductive Look where
  | start
  /-- When the search comes to a path. -/
  | entry (path : String)
deriving DecidableEq, Repr

/-- The paths that the search comes to at and below an entry, whether or not there is a source
file. -/
def visitsAt (tree : FileTree) (patterns : List String) :
    Nat → Entry → String → String → String → List String
  | depth + 1, .directory, real, path, relative =>
      path :: (tree.children real).flatMap fun (name, entry) =>
        let path := Path.join [path, name]
        let relative := below relative name
        match entry with
        | .directory =>
            if skipsDirectory patterns name relative || isModule tree path then [path]
            else visitsAt tree patterns depth entry (Path.join [real, name]) path relative
        | _ => [path]
  | _, _, _, path, _ => [path]

/-- All looks of a search that is not canceled. -/
def looks (tree : FileTree) (root : String) (o : Options) : List Look :=
  let root := Path.absolute tree.workingDirectory root
  let visits := match tree.resolveParent root, tree.lstat root with
    | .ok real, .ok entry =>
        visitsAt tree (patternsOf tree root o) (tree.entries.size + 1) entry real root "."
    | _, _ => [root]
  .start :: visits.map .entry

/-- Search for source files; a search that is canceled finds nothing. -/
def search (canceled : Cancellation Look) (tree : FileTree) (root : String) (o : Options) :
    Option (List SourceFile) :=
  if (looks tree root o).any canceled.seen then none else some (find tree root o)

end Discovery
end SymbolAtlas
