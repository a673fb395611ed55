/-
# SymbolAtlas.Repository.Digests -- what shows that a repository changed

Every source file counts with its content, the module file too, and the settings with
their effective values.  A project is unchanged if it was indexed from exactly these
digests.
-/
import SymbolAtlas.Discovery
import SymbolAtlas.Repository.Basic
import SymbolAtlas.Store.Basic

set_option autoImplicit false

namespace SymbolAtlas

open Text

/-- How a library digests content. -/
class Digester where
  digest : ByteArray → String

/-- Digests by relative path. -/
abbrev Digests := Table String String

/-- A file that stands in the way of a digest. -/
structure UnreadableFile where
  /-- What was tried. -/
  action : String
  path : String
  reason : FileError
deriving DecidableEq, Repr

/-- The error in words. -/
def UnreadableFile.message (u : UnreadableFile) : String :=
  u.action ++ " " ++ u.path ++ ": " ++ u.reason.reason

namespace Repository

variable [Globs] [Digester] [SettingsFormat]

/-- What counts as a source file. -/
def discovery (r : Repository) : Discovery.Options :=
  { excludes := r.settings.allExcludes, tests := r.settings.indexesTests }

/-- The source files of a repository. -/
def sources (r : Repository) (files : FileTree) : List Discovery.SourceFile :=
  Discovery.find files r.root r.discovery

/-- The digest of a file. -/
def digestAt (files : FileTree) (path : String) : Except UnreadableFile String :=
  match files.read path with
  | .ok content => .ok (Digester.digest content)
  | .error .isDirectory => .error { action := "read", path, reason := .isDirectory }
  | .error reason => .error { action := "open", path, reason }

/-- The digests of source files. -/
def sourceDigests (files : FileTree) (sources : List Discovery.SourceFile) :
    Except UnreadableFile Digests := do
  let digests ← sources.mapM fun f => do
    return (f.relative, ← digestAt files f.path)
  return .ofList digests

/-- Add the digests of what shapes monikers besides the sources.  A module file that does
not exist has none. -/
def addSettings (r : Repository) (files : FileTree) (digests : Digests) :
    Except UnreadableFile Digests := do
  let digests ← match digestAt files (Path.join [r.root, Discovery.moduleFileName]) with
    | .ok digest => pure (digests.insert Discovery.moduleFileName digest)
    | .error { reason := .notFound, .. } => pure digests
    | .error unreadable => throw unreadable
  return digests.insert Settings.fileName (Digester.digest r.settings.fingerprint.toUTF8)

/-- Whether the project was indexed before from exactly these digests.  A path without a digest
counts as one whose digest is empty. -/
def isUnchanged (r : Repository) (store : Store) (digests : Digests) : Bool :=
  match store.project r.project, store.fileHashes r.project with
  | .ok _, .ok stored =>
      !stored.isEmpty && stored.length = digests.size &&
        digests.entries.all fun (path, digest) => (Table.find? stored path).getD "" = digest
  | _, _ => false

end Repository
end SymbolAtlas
