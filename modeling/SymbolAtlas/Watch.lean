/-
# SymbolAtlas.Watch -- projects that are indexed again when they change

A watcher looks at each project at its own pace.  The first look takes a snapshot;
when a later one differs the project is indexed again, and the new snapshot counts
only if that succeeded.  Failures slow the pace down, up to once a minute.

Times are milliseconds.
-/
import SymbolAtlas.Discovery
import SymbolAtlas.Settings
import SymbolAtlas.Store.Basic

set_option autoImplicit false

namespace SymbolAtlas.Watch

open Text

/-- What shows that a file changed. -/
structure Stamp where
  modified : Int := 0
  size : Int := 0
deriving DecidableEq, Repr, Inhabited

/-- The stamps of all files that an index depends on. -/
structure Snapshot where
  sources : Table String Stamp := .empty
  settings : Table String Stamp := .empty
deriving Inhabited

/-- What differs between two snapshots. -/
structure Changes where
  added : List String := []
  removed : List String := []
  modified : List String := []
  settings : List String := []
deriving DecidableEq, Repr, Inhabited

/-- Whether nothing differs. -/
def Changes.isEmpty (c : Changes) : Bool :=
  c.added.isEmpty && c.removed.isEmpty && c.modified.isEmpty && c.settings.isEmpty

namespace Snapshot

/-- What differs from an older snapshot.  Settings that come, go or change are one
group. -/
def changesSince (old new : Snapshot) : Changes :=
  { added := new.sources.keys.filter fun path => !old.sources.contains path
    removed := old.sources.keys.filter fun path => !new.sources.contains path
    modified := (new.sources.entries.filter fun (path, stamp) =>
      (old.sources.get? path).any (· ≠ stamp)).map (·.1)
    settings := Settings.files.filter fun name =>
      old.settings.get? name ≠ new.settings.get? name }

/-- The stamp of a file of settings: nothing if it is not there, a failure if the way to
it is blocked.  Directories have no size. -/
def settingStamp? (tree : FileTree) (path : String) : Option (Option Stamp) :=
  match tree.stat path with
  | .ok (.file content modified) => some (some ⟨modified * 1000000000, content.size⟩)
  | .ok _ => some (some {})
  | .error .notFound => some none
  | .error _ => none

/-- The snapshot of the project at `root`. -/
def capture? [Globs] [SettingsFormat] (tree : FileTree) (root : String) : Option Snapshot := do
  let settings := Settings.read tree root
  let sources := Discovery.find tree root
    { excludes := settings.allExcludes, tests := settings.indexesTests }
  let stamps ← Settings.files.mapM fun name =>
    (settingStamp? tree (Path.join [root, name])).map fun stamp => stamp.map fun s => (name, s)
  return {
    sources := .ofList (sources.map fun f => (f.relative, ⟨f.modified, f.size⟩))
    settings := .ofList (stamps.filterMap id) }

end Snapshot

/-! ## Pace -/

/-- The longest time between two looks. -/
def maxInterval : Int := 60000

/-- The time between two looks at a project with that many files: a second, and one
more for every 500 files.  It is counted in nanoseconds, in a word of 64 bits. -/
def pollInterval (files : Int) : Int :=
  let nanoseconds := (1000000000 * (1 + files.tdiv 500)).bmod (Nat.pow 2 64)
  (min nanoseconds (1000000 * maxInterval)).tdiv 1000000

/-- Twice the time for each failure after the first, until it is a minute. -/
def doubled : Nat → Int → Int
  | 0, d => d
  | n + 1, d => if d < maxInterval then doubled n (2 * d) else d

/-- The time to the next look after that many failures in a row. -/
def backoff (failures files : Nat) : Int :=
  min (doubled (failures - 1) (pollInterval files)) maxInterval

/-! ## Projects -/

/-- What a watcher knows about a project. -/
structure Watched where
  last : Option Snapshot := none
  /-- Not before this time. -/
  nextPoll : Option Int := none
  failures : Nat := 0
deriving Inhabited

/-- Whether it is time to look at a project. -/
def Watched.isDue (w : Watched) (now : Int) : Bool :=
  match w.nextPoll with
  | some t => t ≤ now
  | none => true

/-- Wait after a failure. -/
def Watched.fail (w : Watched) (now : Int) (files : Nat) : Watched :=
  let failures := w.failures + 1
  { w with failures, nextPoll := some (now + backoff failures files) }

/-- Index a project, on the state `σ` of the rest of the world: whether it succeeded. -/
abbrev IndexAction (σ : Type) := Store.Project → StateM σ Bool

/-- Look at one project.  `capture` gives its snapshot, nothing if that fails. -/
def poll {σ : Type} (rootExists : Bool) (snapshot : Option Snapshot) (now : Int)
    (index : StateM σ Bool) (w : Watched) : StateM σ Watched := do
  if !rootExists then return { w with nextPoll := some (now + maxInterval) }
  match snapshot with
  | none => return w.fail now ((w.last.map (·.sources.size)).getD 0)
  | some new =>
      let next := some (now + pollInterval new.sources.size)
      match w.last with
      | none => return { w with last := some new, nextPoll := next }
      | some old =>
          if (old.changesSince new).isEmpty then return { w with nextPoll := next }
          else if ← index then return { last := some new, nextPoll := next, failures := 0 }
          else return w.fail now new.sources.size

/-- A watcher of all projects of a store. -/
structure Watcher where
  projects : Table String Watched := .empty
deriving Inhabited

/-- Look at every project that is due, in the order given, and forget those that are
gone.  A snapshot during which the look is canceled fails. -/
def Watcher.pollAll {σ : Type} [Globs] [SettingsFormat] (tree : FileTree)
    (canceled : Cancellation Store.Project) (now : Int) (index : IndexAction σ)
    (projects : List Store.Project) (w : Watcher) : StateM σ Watcher := do
  let step (w : Watcher) (p : Store.Project) : StateM σ Watcher := do
    let state := (w.projects.get? p.name).getD {}
    if !state.isDue now then return w
    let snapshot := if canceled.seen p then none else Snapshot.capture? tree p.rootPath
    let state ← poll (tree.exists p.rootPath) snapshot now (index p) state
    return { projects := w.projects.insert p.name state }
  let w ← projects.foldlM step w
  let names := projects.map (·.name)
  return { projects := w.projects.filter fun entry => names.contains entry.1 }

end SymbolAtlas.Watch
