/-
# SymbolAtlas.Yaml.Settings -- settings as YAML

A file of settings is a mapping of two mappings, of which the known fields count.  A field
may be given through aliases and merges, and null stands for a field that is not given.
-/
import SymbolAtlas.Settings
import SymbolAtlas.Yaml.Printer

set_option autoImplicit false

namespace SymbolAtlas.Yaml

/-! ## Reading -/

/-! Every reader fails on a part of the wrong shape, and answers `some none` on null. -/

/-- The node that a node stands for.  A chain of aliases is not longer than the document,
unless it is a cycle. -/
def follow (d : Document) : Nat → Node → Option Node
  | _, .scalar s => some (.scalar s)
  | _, .sequence items => some (.sequence items)
  | _, .mapping entries => some (.mapping entries)
  | 0, .aliasOf .. => none
  | fuel + 1, .aliasOf _ target => d.anchored[target]?.bind (follow d fuel)

/-- The node that a node stands for. -/
def target? (d : Document) (n : Node) : Option Node := follow d d.size n

/-- A text. -/
def readText (d : Document) (n : Node) : Option (Option String) :=
  match target? d n with
  | some (.scalar s) =>
      s.meaning?.map fun
        | .null => none
        | .text value => some value
        | _ => some s.text
  | _ => none

/-- A truth value; words for yes and no count as well. -/
def readFlag (d : Document) (n : Node) : Option (Option Bool) :=
  match target? d n with
  | some (.scalar s) =>
      match s.meaning? with
      | some .null => some none
      | some (.flag value) => some (some value)
      | some (.text word) =>
          if yesWords.contains word then some (some true)
          else if noWords.contains word then some (some false)
          else none
      | _ => none
  | _ => none

/-- A list of texts, null items left out. -/
def readTexts (d : Document) (n : Node) : Option (Option (List String)) :=
  match target? d n with
  | some (.sequence items) => (items.mapM (readText d)).map fun texts => some (texts.filterMap id)
  | some (.scalar s) => if s.meaning? = some .null then some none else none
  | _ => none

/-- What tells two keys of one mapping apart. -/
inductive KeyMark where
  | scalar (text : String)
  | aliasOf (name : String)
  | sequence
  | mapping
deriving DecidableEq

/-- The mark of a key. -/
def markOf : Node → KeyMark
  | .scalar s => .scalar s.text
  | .aliasOf name _ => .aliasOf name
  | .sequence _ => .sequence
  | .mapping _ => .mapping

/-- Whether all elements of a list differ. -/
def allDistinct {α : Type} [DecidableEq α] : List α → Bool
  | [] => true
  | a :: rest => !rest.contains a && allDistinct rest

/-- A mapping by the names of its keys. -/
abbrev Fields := List (String × Node)

/-- The mappings that a merge names. -/
def mergeSources? (d : Document) (n : Node) : Option (List Node) :=
  let mapping? (n : Node) : Option Node :=
    match n with
    | .aliasOf _ target => (d.anchored[target]?).filter fun
        | .mapping _ => true
        | _ => false
    | .mapping _ => some n
    | _ => none
  match n with
  | .sequence items => items.mapM mapping?
  | _ => (mapping? n).map ([·])

/-- Add the fields of a mapping to `fields`, its own first, then those that it merges.
With `names`, the names that are given already, those are left out, and the first field of a name
counts. -/
def collect (d : Document) : Nat → Node → Option (List String) → Fields →
    Option (Fields × List String)
  | fuel + 1, .mapping entries, names, fields => do
      if !allDistinct (entries.map fun e => markOf e.1) then none
      let isMerge (e : Node × Node) : Bool :=
        match e.1 with
        | .scalar s => s.isMerge
        | _ => false
      let own ← (entries.filter fun e => !isMerge e).mapM fun e =>
        (readText d e.1).map fun name => name.map fun name => (name, e.2)
      let own := own.filterMap id
      let (fields, names) := own.foldl (fun (acc : Fields × Option (List String)) field =>
        match acc.2 with
        | none => (acc.1 ++ [field], none)
        | some names =>
            if names.contains field.1 then acc else (acc.1 ++ [field], some (field.1 :: names)))
        (fields, names)
      match entries.find? isMerge with
      | none => return (fields, names.getD [])
      | some (_, merged) =>
          let sources ← mergeSources? d merged
          let names := names.getD (own.map (·.1))
          sources.foldlM (fun acc source => collect d fuel source (some acc.2) acc.1)
            (fields, names)
  | _, _, _, _ => none

/-- The fields of a record; nothing if it is null.  A known field must not be given twice. -/
def readFields (d : Document) (known : List String) (n : Node) : Option (Option Fields) :=
  match target? d n with
  | some (.scalar s) => if s.meaning? = some .null then some none else none
  | some (.mapping entries) => do
      let (fields, _) ← collect d (d.size + 1) (.mapping entries) none []
      let given := (fields.map (·.1)).filter known.contains
      if allDistinct given then some (some fields) else none
  | _ => none

/-- Read the field `name`, if the record has it. -/
def field {α : Type} (fields : Option Fields) (name : String)
    (read : Node → Option (Option α)) : Option (Option α) :=
  match (fields.getD []).lookup name with
  | none => some none
  | some n => read n

/-- The settings of a document. -/
def ofDocument? (d : Document) : Option Settings := do
  let top ← readFields d ["index", "monikers"] d.root
  let index ← field top "index" (readFields d ["exclude_paths", "tests", "build_tags", "hover"])
  let monikers ← field top "monikers" (readFields d ["scheme", "source_dir", "output_dir"])
  return {
    excludePaths := (← field index "exclude_paths" (readTexts d)).getD []
    tests := ← field index "tests" (readFlag d)
    buildTags := (← field index "build_tags" (readTexts d)).getD []
    hover := ← field index "hover" (readFlag d)
    scheme := ← field monikers "scheme" (readText d)
    sourceDir := (← field monikers "source_dir" (readText d)).getD ""
    outputDir := (← field monikers "output_dir" (readText d)).getD "" }

/-- The settings of a content, nothing if it is malformed.  An empty document sets nothing. -/
def decodeSettings? (bytes : List UInt8) : Option Settings :=
  match Document.read? bytes with
  | some (some d) => ofDocument? d
  | some none => some {}
  | none => none

/-! ## Writing -/

/-- An optional flag. -/
def flagValue (value : Option Bool) : Value := (value.map .flag).getD .null

/-- Settings as a text. -/
def encodeSettings (s : Settings) : String :=
  renderFields 0 [
    ("index", .record [
      ("exclude_paths", .texts s.excludePaths),
      ("tests", flagValue s.tests),
      ("build_tags", .texts s.buildTags),
      ("hover", flagValue s.hover)]),
    ("monikers", .record [
      ("scheme", (s.scheme.map .text).getD .null),
      ("source_dir", .text s.sourceDir),
      ("output_dir", .text s.outputDir)])]

end SymbolAtlas.Yaml
