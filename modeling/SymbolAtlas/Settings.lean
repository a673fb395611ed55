/-
# SymbolAtlas.Settings -- the settings of a project

A project may say in a file at its root what is indexed and how monikers are
formed.  `Settings.read` never fails: a file that cannot be read as settings counts
as none.  `fingerprint` writes the effective settings down; two settings index a
project alike exactly if their fingerprints are equal.  The form of the file is that of
a library.
-/
import SymbolAtlas.FileTree
import SymbolAtlas.Moniker

set_option autoImplicit false

namespace SymbolAtlas

/-- What a project sets. -/
structure Settings where
  excludePaths : List String := []
  tests : Option Bool := none
  buildTags : List String := []
  hover : Option Bool := none
  scheme : Option String := none
  sourceDir : String := ""
  outputDir : String := ""
deriving DecidableEq, Repr, Inhabited

/-- How a library reads and writes settings. -/
class SettingsFormat where
  /-- The settings that a content holds, nothing if it is malformed. -/
  decode? : List UInt8 → Option Settings
  encode : Settings → String

namespace Settings

/-- The name of the file of settings. -/
def fileName : String := ".xrefconfig"

/-- The files, besides sources, that change what an index holds. -/
def files : List String := ["go.mod", fileName]

/-- Patterns that are always excluded. -/
def defaultExcludes : List String := ["testdata/**", "vendor/**"]

/-! ## Effective values -/

/-- Whether tests are indexed. -/
def indexesTests (s : Settings) : Bool := s.tests.getD false

/-- Whether hovers are emitted. -/
def emitsHover (s : Settings) : Bool := s.hover.getD true

/-- The scheme of monikers. -/
def monikerScheme (s : Settings) : String := (s.scheme.filter (· ≠ "")).getD defaultScheme

/-- All excluded patterns. -/
def allExcludes (s : Settings) : List String := defaultExcludes ++ s.excludePaths

/-- The settings with every default filled in. -/
def effective (s : Settings) : Settings :=
  { s with
    excludePaths := s.allExcludes
    tests := some s.indexesTests
    hover := some s.emitsHover
    scheme := some s.monikerScheme }

variable [SettingsFormat]

/-- The effective settings as a text. -/
def fingerprint (s : Settings) : String := SettingsFormat.encode s.effective

/-! ## Reading -/

/-- The settings of a content; malformed ones are those of an empty file. -/
def ofBytes (bytes : List UInt8) : Settings := (SettingsFormat.decode? bytes).getD {}

/-- The settings of a project. -/
def read (tree : FileTree) (root : String) : Settings :=
  ((tree.readBytes? (Text.Path.join [root, fileName])).map ofBytes).getD {}

end Settings
end SymbolAtlas
