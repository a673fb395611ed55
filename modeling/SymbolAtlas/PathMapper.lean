/-
# SymbolAtlas.PathMapper -- from files to package paths

A project's files belong to its module, except what lies under `vendor`, where
the path is the package.  Files of the source directory may be addressed as if
they stood in the output directory.  Outside the project, files of the language's
own library and of the module cache have a package; nothing else does.
-/
import SymbolAtlas.FileTree
import SymbolAtlas.Moniker
import SymbolAtlas.PackageClause

set_option autoImplicit false

namespace SymbolAtlas

open Text

/-- How a library reads the names of modules. -/
class ModuleNames where
  /-- The module path of a module file, empty if it has none. -/
  declared : List UInt8 → String
  /-- The module path that is written into a directory of the module cache. -/
  unescapePath? : String → Option String
  /-- The version that is written into a directory of the module cache. -/
  unescapeVersion? : String → Option String

/-- Where the parts of a mapping are found. -/
structure MapperOptions where
  sourceDir : String := ""
  outputDir : String := ""
  goroot : String := ""
  moduleCache : String := ""
  /-- The version of the project. -/
  version : String := ""
  /-- The version that the standard library is reported with. -/
  libraryVersion : String := ""
deriving Inhabited

/-- Maps the files around one project. -/
structure PathMapper where
  root : String
  module : String
  options : MapperOptions

namespace PathMapper

/-- A relative directory in normal form; the empty one stays empty. -/
def cleanDirectory (path : String) : String := if path = "" then "" else Path.clean path

variable [ModuleNames]

/-- The mapper of a project.  Without a usable module file the module is called
like its directory. -/
def ofTree (tree : FileTree) (root : String) (options : MapperOptions) : PathMapper :=
  let root := Path.clean root
  let declared := ((tree.readBytes? (Path.join [root, "go.mod"])).map ModuleNames.declared).getD ""
  { root
    module := if declared = "" then Path.base root else declared
    options := { options with
      sourceDir := cleanDirectory options.sourceDir
      outputDir := cleanDirectory options.outputDir } }

/-- The package of the project's own files. -/
def package (m : PathMapper) : PackageInfo :=
  { name := m.module, version := m.options.version, manager := defaultScheme }

/-- A project directory as it is addressed: below the source directory it moves to
the output directory. -/
def readdress (m : PathMapper) (directory : String) : String :=
  let source := m.options.sourceDir
  if source = "" then directory
  else if source = "." then Path.join [m.options.outputDir, directory]
  else if directory = source then m.options.outputDir
  else if Path.startsWith directory (source ++ "/") then
    Path.join [m.options.outputDir, Path.trimLead directory (source ++ "/")]
  else directory

/-- Whether a test file belongs to the package of tests beside its own. -/
def isExternalTest (tree : FileTree) (file : String) : Bool :=
  Path.endsWith file "_test.go" &&
    ((((tree.readBytes? file).bind PackageClause.read?).map fun clause =>
      Path.endsWith clause.name "_test").getD false)

/-- The location of a file in a project directory. -/
def inProject (m : PathMapper) (tree : FileTree) (file directory : String) : Option Location :=
  if directory = "vendor" ∨ Path.startsWith directory "vendor/" then
    let path := Path.trimLead (Path.trimLead directory "vendor") "/"
    if path = "" then none
    else some { path, external := true, package := { name := path, manager := defaultScheme } }
  else
    let directory := m.readdress directory
    let path := if directory = "." then m.module else Path.join [m.module, directory]
    let path := if isExternalTest tree file then path ++ "_test" else path
    some { path, package := m.package }

/-- The location of a directory of the standard library. -/
def inLibrary (m : PathMapper) (directory : String) : Location :=
  { path := Path.trimLead directory "vendor/"
    external := true
    defaultLibrary := true
    package := { name := "std", version := m.options.libraryVersion, manager := defaultScheme } }

/-- The location of a directory of the module cache, which starts with the escaped
module path, an at sign and the escaped version. -/
def inCache (directory : String) : Option Location :=
  match directory.toList.span (· ≠ '@') with
  | (_, []) | ([], _) => none
  | (escaped, _ :: rest) =>
      match ModuleNames.unescapePath? (String.ofList escaped) with
      | none => none
      | some module =>
          let (version, sub) := rest.span (· ≠ '/')
          let version := String.ofList version
          let sub := String.ofList (sub.drop 1)
          some {
            path := if sub = "" then module else Path.join [module, sub]
            external := true
            package := {
              name := module
              version := (ModuleNames.unescapeVersion? version).getD version
              manager := defaultScheme } }

/-- The location of a file. -/
def locate (m : PathMapper) (tree : FileTree) : Locator := fun file =>
  let file := Path.clean file
  let directory := Path.directory file
  match Path.within? m.root directory with
  | some inside => m.inProject tree file inside
  | none =>
      let library :=
        if m.options.goroot = "" then none
        else (Path.within? (Path.join [m.options.goroot, "src"]) directory).filter (· ≠ ".")
      match library with
      | some inside => some (m.inLibrary inside)
      | none =>
          if m.options.moduleCache = "" then none
          else (Path.within? m.options.moduleCache directory).bind inCache

end PathMapper
end SymbolAtlas
