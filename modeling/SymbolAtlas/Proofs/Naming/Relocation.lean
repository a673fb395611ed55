/-
# SymbolAtlas.Proofs.Naming.Relocation -- one path for what is written and what is emitted

A project may be written in one directory and emitted to another one.  Files in the first are
located as if they stood in the second, so that a file has one path in both trees.  On the names of
a directory this replaces a prefix (`relocate`, `readdress_inside`), also where the prefix is met
once more: an output directory inside the source directory is moved into itself.  So a file has one
path in both trees exactly if its directory in the output tree lies in neither the source tree nor
the vendor directory (`shares_iff`), and where the whole project is the source, no file of another
output directory has (`emitted_astray`).
-/
import SymbolAtlas.Proofs.Naming.Locations
import SymbolAtlas.Proofs.Text.Nesting

set_option autoImplicit false

namespace SymbolAtlas

open Text Text.Path

namespace PathMapper

/-- A file of a tree, which is no test: the directory that it has in the tree, and its name. -/
structure TreeFile where
  directory : String
  name : String
  inward : Inward directory
  isName : IsName name
  isNoTest : Path.endsWith name "_test.go" = false

namespace Checkout

/-- The mapper of a project. -/
def mapper [ModuleNames] (c : Checkout) : PathMapper := ofTree c.tree c.root c.options

/-- A file in the source tree. -/
def written (c : Checkout) (f : TreeFile) : String :=
  Path.join [c.root, c.options.sourceDir, f.directory, f.name]

/-- The file in the output tree. -/
def emitted (c : Checkout) (f : TreeFile) : String :=
  Path.join [c.root, c.options.outputDir, f.directory, f.name]

/-- A file is located in both trees, and has one path there. -/
def Shares [ModuleNames] (c : Checkout) (f : TreeFile) : Prop :=
  ∃ own twin : Location, c.locate (c.written f) = some own ∧ c.locate (c.emitted f) = some twin ∧
    own.path = twin.path

end Checkout

/-! ## Replacing the source directory -/

/-- Names that begin with those of the source directory begin with those of the output directory
instead. -/
def relocate (source output names : List String) : List String :=
  if source <+: names then output ++ names.drop source.length else names

variable {source output names : List String}

@[simp]
theorem relocate_append : relocate source output (source ++ names) = output ++ names := by
  rw [relocate, if_pos (List.prefix_append _ _), List.drop_left]

theorem relocate_self : relocate names output names = output := by
  rw [relocate, if_pos List.prefix_rfl, List.drop_length, List.append_nil]

theorem relocate_nil : relocate [] output names = output ++ names := if_pos List.nil_prefix

theorem isName_of_mem_relocate (h : ∀ name ∈ output, IsName name)
    (h' : ∀ name ∈ names, IsName name) : ∀ name ∈ relocate source output names, IsName name := by
  unfold relocate
  split
  · exact List.forall_mem_append.2 ⟨h, fun name member => h' name (List.mem_of_mem_drop member)⟩
  · exact h'

/-- Names stay what they are only if nothing is replaced, or if it is replaced by itself. -/
theorem relocate_eq_self_iff (different : source ≠ output) :
    relocate source output (output ++ names) = output ++ names ↔ ¬ source <+: output ++ names := by
  constructor
  · rintro same ⟨rest, shape⟩
    rw [← shape, relocate_append] at same
    exact different (List.append_cancel_right same).symm
  · exact fun apart => if_neg apart

variable {m : PathMapper} {tree : FileTree} {file : String}
  {isName : ∀ name ∈ source, IsName name} {isName' : ∀ name ∈ output, IsName name}
  {proper : ∀ name ∈ names, IsName name}

/-- **A directory is readdressed by its names.** -/
theorem readdress_inside (reads : m.options.sourceDir = (Place.inside source isName).text)
    (emits : m.options.outputDir = (Place.inside output isName').text) :
    m.readdress (Place.inside names proper).text =
      (Place.inside (relocate source output names)
        (isName_of_mem_relocate isName' proper)).text := by
  rw [readdress]
  simp only [reads, emits, Place.descends_inside.nonempty, if_false]
  by_cases whole : source = []
  · subst whole
    rw [if_pos (Place.text_inside_eq_dot_iff.2 rfl), Place.join_inside, Place.text_inside_inj,
      relocate_nil]
  · rw [if_neg (mt Place.text_inside_eq_dot_iff.1 whole)]
    split
    · rename_i same
      obtain rfl := Place.text_inside_inj.1 same
      rw [Place.text_inside_inj, relocate_self]
    · rename_i other
      split
      · rename_i inner
        obtain ⟨rest, some_, rfl⟩ := (Place.startsWith_inside_iff whole).1 inner
        have rest' : ∀ name ∈ rest, IsName name := fun name member =>
          proper name (List.mem_append_right _ member)
        have trimmed : Path.trimLead (Place.inside (source ++ rest) proper).text
            ((Place.inside source isName).text ++ "/") = (Place.inside rest rest').text := by
          rw [Place.text_inside (by simp [some_]), Place.text_inside whole, Place.text_inside some_,
            ofElements_append whole some_, trimLead_append]
        rw [trimmed, Place.join_inside, Place.text_inside_inj, relocate_append]
      · rename_i outer
        have apart : ¬ source <+: names := fun contained =>
          ((Place.contains_iff_startsWith whole).1 (Place.contains_inside_iff.2 contained)).elim
            other outer
        rw [Place.text_inside_inj, relocate, if_neg apart]

/-! ## Directories of a project -/

/-- The path of a directory of the project. -/
def pathBelow (m : PathMapper) (directory : String) : String :=
  if directory = "." then m.module else Path.join [m.module, directory]

/-- The names of a directory are read off its path. -/
theorem cleanElements_pathBelow :
    cleanElements (m.pathBelow (Place.inside names proper).text) =
      cleanElements m.module ++ names := by
  obtain ⟨module, leads⟩ := exists_place m.module
  rw [pathBelow, ← leads.parts]
  split
  · rename_i here
    obtain rfl := Place.text_inside_eq_dot_iff.1 here
    rw [← leads.parts, List.append_nil]
  · rw [join_below leads (by simp) (by simpa using Place.descends_inside) proper
      (by rw [List.flatMap_singleton, Place.steps_text_inside]),
      ← (Place.leadsTo_text (module.below names proper)).parts, Place.parts_below]

theorem isName_vendor : IsName "vendor" := ⟨by decide, by decide, by decide, by decide⟩

theorem contains_vendor_iff :
    Contains "vendor" (Place.inside names proper).text ↔ ["vendor"] <+: names := by
  rw [← isName_vendor.text_inside, Place.contains_inside_iff, isName_vendor.text_inside]

/-- A directory lies in the vendor directory if its first name says so. -/
theorem inVendor_iff : (Place.inside names proper).text = "vendor" ∨
    Path.startsWith (Place.inside names proper).text "vendor/" = true ↔ ["vendor"] <+: names := by
  have contained : Contains (Place.inside ["vendor"] (by simpa using isName_vendor)).text
      (Place.inside names proper).text ↔ _ := Place.contains_iff_startsWith (List.cons_ne_nil _ _)
  rw [isName_vendor.text_inside, contains_vendor_iff] at contained
  exact contained.symm

theorem text_eq_vendor_iff : (Place.inside names proper).text = "vendor" ↔ names = ["vendor"] := by
  rw [← isName_vendor.text_inside, Place.text_inside_inj, isName_vendor.text_inside]

/-- A file outside the vendor directory belongs to the project. -/
theorem inProject_own {directory : String} (isNoTest : isExternalTest tree file = false)
    (own : ¬ (directory = "vendor" ∨ Path.startsWith directory "vendor/" = true)) :
    m.inProject tree file directory =
      some { path := m.pathBelow (m.readdress directory), package := m.package } := by
  rw [inProject, if_neg own]
  simp only [isNoTest]
  rfl

/-- A file in the vendor directory has the rest of its directory as its path. -/
theorem inProject_vendor {proper : ∀ name ∈ ["vendor"] ++ names, IsName name} :
    m.inProject tree file (Place.inside (["vendor"] ++ names) proper).text =
      if names = [] then none
      else some
        { path := ofElements names
          external := true
          package := { name := ofElements names, manager := defaultScheme } } := by
  split
  · rename_i none
    subst none
    have rest : Path.trimLead (Path.trimLead "vendor" "vendor") "/" = "" := by decide
    rw [text_eq_vendor_iff.2 (List.append_nil _), inProject, if_pos (.inl rfl)]
    simp only [rest, if_true]
  · rename_i some_
    have inner : ∀ name ∈ names, IsName name := fun name member =>
      proper name (List.mem_append_right _ member)
    have nonempty : ofElements names ≠ "" := by
      have descends : Descends (Place.inside names inner).text := Place.descends_inside
      rw [Place.text_inside some_] at descends
      exact descends.nonempty
    rw [Place.text_inside (by simp), ofElements_append (List.cons_ne_nil _ _) some_]
    exact inProject_vendored nonempty

/-- **What a location in the project tells of its directory.**  It belongs to the project, and its
path is that of the readdressed directory; or it is vendored, and its path is the rest. -/
theorem inProject_cases (reads : m.options.sourceDir = (Place.inside source isName).text)
    (emits : m.options.outputDir = (Place.inside output isName').text)
    (isNoTest : isExternalTest tree file = false) {location : Location}
    (found : m.inProject tree file (Place.inside names proper).text = some location) :
    (¬ ["vendor"] <+: names ∧
        cleanElements location.path = cleanElements m.module ++ relocate source output names) ∨
      ∃ rest, names = "vendor" :: rest ∧ cleanElements location.path = rest := by
  by_cases vendored : ["vendor"] <+: names
  · obtain ⟨rest, rfl⟩ := vendored
    refine .inr ⟨rest, rfl, ?_⟩
    rw [inProject_vendor] at found
    split at found
    · cases found
    · rename_i some_
      obtain rfl := Option.some.inj found
      have inner : ∀ name ∈ rest, IsName name := fun name member =>
        proper name (List.mem_cons_of_mem _ member)
      have text : (Place.inside rest inner).text = ofElements rest := Place.text_inside some_
      rw [← text, Place.cleanElements_inside]
  · rw [inProject_own isNoTest (mt inVendor_iff.1 vendored), readdress_inside reads emits] at found
    obtain rfl := Option.some.inj found
    exact .inl ⟨vendored, cleanElements_pathBelow⟩

/-! ## The two trees -/

theorem cleanDirectory_inside :
    cleanDirectory (Place.inside names proper).text = (Place.inside names proper).text := by
  rw [cleanDirectory, if_neg Place.descends_inside.nonempty, (Place.leadsTo_text _).clean]

/-- A file of a tree is located by the names of the tree and of its directory. -/
theorem locate_joined [ModuleNames] (c : Checkout) {f : TreeFile} {start : List String}
    (isName : ∀ name ∈ start, IsName name)
    (shape : f.directory = (Place.inside names proper).text) :
    ∃ file, isExternalTest c.tree file = false ∧
      c.locate (Path.join [c.root, (Place.inside start isName).text, f.directory, f.name]) =
        c.mapper.inProject c.tree file
          (Place.inside (start ++ names) (List.forall_mem_append.2 ⟨isName, proper⟩)).text := by
  obtain ⟨root, leads⟩ := exists_place c.root
  have down : ∀ path ∈ [(Place.inside start isName).text, f.directory], Descends path := by
    simpa [shape] using ⟨Place.descends_inside, Place.descends_inside⟩
  have read : [(Place.inside start isName).text, f.directory].flatMap FileTree.steps =
      start ++ names := by
    rw [List.flatMap_cons, List.flatMap_singleton, shape, Place.steps_text_inside,
      Place.steps_text_inside]
  have held := holds_join leads _ down (List.forall_mem_append.2 ⟨isName, proper⟩) read f.isName
  exact ⟨_, not_isExternalTest held f.isNoTest, locate_below_root leads.cleaned held⟩

theorem eq_nil_of_vendor (own : ¬ ["vendor"] <+: source) (h : ["vendor"] <+: source ++ names) :
    source = [] := by
  cases source with
  | nil => rfl
  | cons first rest =>
      obtain ⟨more, shape⟩ := h
      obtain ⟨rfl, -⟩ := List.cons.inj shape
      exact absurd ⟨rest, rfl⟩ own

/-- Only what lies in the vendor directory itself has no location. -/
theorem exists_location_iff (proper : ∀ name ∈ names, IsName name)
    (isNoTest : isExternalTest tree file = false) :
    (∃ location, m.inProject tree file (Place.inside names proper).text = some location) ↔
      names ≠ ["vendor"] := by
  by_cases vendored : ["vendor"] <+: names
  · obtain ⟨rest, rfl⟩ := vendored
    rw [inProject_vendor]
    by_cases none : rest = [] <;> simp [none]
  · exact iff_of_true ⟨_, inProject_own isNoTest (mt inVendor_iff.1 vendored)⟩ fun same =>
      vendored (same ▸ List.prefix_rfl)

/-- Two trees apart give one path only to what is readdressed to where it already stands.  A
vendored file is no exception: its path is shorter than its directory, and that of a file of the
project is not. -/
theorem apart_of_path_eq (reads : m.options.sourceDir = (Place.inside source isName).text)
    (emits : m.options.outputDir = (Place.inside output isName').text)
    (own : ¬ ["vendor"] <+: source) (own' : ¬ ["vendor"] <+: output) (different : source ≠ output)
    {file' : String} (isNoTest : isExternalTest tree file = false)
    (isNoTest' : isExternalTest tree file' = false)
    {first : ∀ name ∈ source ++ names, IsName name} {second : ∀ name ∈ output ++ names, IsName name}
    {location twin : Location}
    (found : m.inProject tree file (Place.inside _ first).text = some location)
    (found' : m.inProject tree file' (Place.inside _ second).text = some twin)
    (path : location.path = twin.path) :
    ¬ ["vendor"] <+: output ++ names ∧ ¬ source <+: output ++ names := by
  have longer : ∀ all rest : List String, all ++ "vendor" :: rest ≠ rest := by
    intro all rest same
    have lengths := congrArg List.length same
    rw [List.length_append, List.length_cons] at lengths
    omega
  rcases inProject_cases reads emits isNoTest found with ⟨-, named⟩ | ⟨rest, shape, named⟩ <;>
  rcases inProject_cases reads emits isNoTest' found' with
    ⟨away, named'⟩ | ⟨rest', shape', named'⟩ <;>
  rw [path, named'] at named
  · rw [relocate_append] at named
    exact ⟨away, (relocate_eq_self_iff different).1 (List.append_cancel_left named)⟩
  · rw [relocate_append, shape'] at named
    exact absurd named.symm (longer _ _)
  · obtain rfl := eq_nil_of_vendor own ⟨rest, shape.symm⟩
    rw [List.nil_append] at shape
    rw [relocate_nil, shape, ← List.append_assoc, ← List.append_assoc] at named
    exact absurd named (longer _ _)
  · have whole := eq_nil_of_vendor own ⟨rest, shape.symm⟩
    exact absurd (whole.trans (eq_nil_of_vendor own' ⟨rest', shape'.symm⟩).symm) different

/-- **Which files have one path in both trees**, by the names of the directories. -/
theorem shares_iff_names [ModuleNames] {c : Checkout} {f : TreeFile}
    (reads : c.options.sourceDir = (Place.inside source isName).text)
    (emits : c.options.outputDir = (Place.inside output isName').text)
    (shape : f.directory = (Place.inside names proper).text)
    (own : ¬ ["vendor"] <+: source) (own' : ¬ ["vendor"] <+: output) :
    c.Shares f ↔ (source = output ∧ source ++ names ≠ ["vendor"]) ∨
      (¬ ["vendor"] <+: output ++ names ∧ ¬ source <+: output ++ names) := by
  obtain ⟨file, isNoTest, located⟩ := locate_joined c isName shape
  obtain ⟨file', isNoTest', located'⟩ := locate_joined c isName' shape
  rw [← reads] at located
  rw [← emits] at located'
  have reads' : c.mapper.options.sourceDir =
      (Place.inside source isName).text := (congrArg _ reads).trans cleanDirectory_inside
  have emits' : c.mapper.options.outputDir =
      (Place.inside output isName').text := (congrArg _ emits).trans cleanDirectory_inside
  by_cases same : source = output
  · subst same
    have one : c.emitted f = c.written f := by
      rw [Checkout.emitted, Checkout.written, reads, emits]
    have all : ∀ name ∈ source ++ names, IsName name := List.forall_mem_append.2 ⟨isName, proper⟩
    rw [or_iff_left fun apart => apart.2 (List.prefix_append _ _), and_iff_right rfl,
      ← exists_location_iff (m := c.mapper) all isNoTest, ← located,
      Checkout.Shares, one]
    exact ⟨fun ⟨location, _, found, _⟩ => ⟨location, found⟩,
      fun ⟨location, found⟩ => ⟨location, location, found, found, rfl⟩⟩
  · rw [Checkout.Shares, Checkout.written, Checkout.emitted, located, located',
      or_iff_right fun both => same both.1]
    constructor
    · rintro ⟨location, twin, found, found', path⟩
      exact apart_of_path_eq reads' emits' own own' same isNoTest isNoTest' found found' path
    · intro apart
      have away : ¬ ["vendor"] <+: source ++ names := fun vendored =>
        apart.2 (by rw [eq_nil_of_vendor own vendored]; exact List.nil_prefix)
      refine ⟨_, _, inProject_own isNoTest (mt inVendor_iff.1 away),
        inProject_own isNoTest' (mt inVendor_iff.1 apart.1), ?_⟩
      simp only [readdress_inside reads' emits', relocate_append,
        (relocate_eq_self_iff same).2 apart.2]

/-- A file of a directory inside a tree. -/
def TreeFile.ofNames (names : List String) (proper : ∀ name ∈ names, IsName name) : TreeFile where
  directory := (Place.inside names proper).text
  name := "a.go"
  inward := Place.inward_inside
  isName := ⟨by decide, by decide, by decide, by decide⟩
  isNoTest := by decide

/-- **Which trees give one path to all their files**, by the names of the directories. -/
theorem forall_shares_iff_names [ModuleNames] {c : Checkout}
    (reads : c.options.sourceDir = (Place.inside source isName).text)
    (emits : c.options.outputDir = (Place.inside output isName').text)
    (own : ¬ ["vendor"] <+: source) (own' : ¬ ["vendor"] <+: output) :
    (∀ f : TreeFile, c.Shares f) ↔
      (source = output ∧ source ≠ []) ∨ (¬ source <+: output ∧ ¬ output <+: source) := by
  have shares : ∀ (names : List String) (proper : ∀ name ∈ names, IsName name),
      c.Shares (.ofNames names proper) ↔ (source = output ∧ source ++ names ≠ ["vendor"]) ∨
        (¬ ["vendor"] <+: output ++ names ∧ ¬ source <+: output ++ names) := fun names proper =>
    shares_iff_names reads emits rfl own own'
  constructor
  · intro all
    by_cases same : source = output
    · refine .inl ⟨same, ?_⟩
      rintro rfl
      rcases (shares ["vendor"] (by simpa using isName_vendor)).1 (all _) with
        ⟨-, other⟩ | ⟨-, apart⟩
      · exact other rfl
      · exact apart List.nil_prefix
    · have apart : ∀ names : List String, (∀ name ∈ names, IsName name) →
          ¬ source <+: output ++ names := fun names proper =>
        (((shares names proper).1 (all _)).resolve_left fun both => same both.1).2
      refine .inr ⟨fun inside => ?_, ?_⟩
      · refine apart [] (by simp) ?_
        rwa [List.append_nil]
      · rintro ⟨rest, rfl⟩
        exact apart rest (fun name member => isName name (List.mem_append_right _ member))
          List.prefix_rfl
  · intro trees f
    obtain ⟨names, proper, shape⟩ := f.inward.exists_names
    refine (shares_iff_names reads emits shape own own').2 (trees.imp ?_ ?_)
    · rintro ⟨same, some_⟩
      refine ⟨same, fun vendor => ?_⟩
      rw [eq_nil_of_vendor own ⟨[], by rw [List.append_nil, vendor]⟩] at some_
      exact some_ rfl
    · rintro ⟨outside, outside'⟩
      refine ⟨fun vendored => ?_, fun inside => ?_⟩
      · rw [eq_nil_of_vendor own' vendored] at outside'
        exact outside' List.nil_prefix
      · rcases List.prefix_or_prefix_of_prefix inside (List.prefix_append output names) with
          above | below
        · exact outside above
        · exact outside' below

/-- **Which files have one path in both trees**, whatever a module file declares.  If the trees are
one, it is every file that does not lie in the vendor directory itself.  Else it is every file whose
directory in the output tree lies in neither the source tree nor the vendor directory.  So all files
have if the trees are one directory inside the project, or if neither contains the other; and only
then. -/
theorem shares_iff [ModuleNames] (c : Checkout) (source : Inward c.options.sourceDir)
    (output : Inward c.options.outputDir) (own : ¬ Contains "vendor" c.options.sourceDir)
    (own' : ¬ Contains "vendor" c.options.outputDir) :
    (∀ f : TreeFile, c.Shares f ↔
      (c.options.sourceDir = c.options.outputDir ∧
        Path.join [c.options.sourceDir, f.directory] ≠ "vendor") ∨
      (¬ Contains "vendor" (Path.join [c.options.outputDir, f.directory]) ∧
        ¬ Contains c.options.sourceDir (Path.join [c.options.outputDir, f.directory]))) ∧
    ((∀ f : TreeFile, c.Shares f) ↔
      (c.options.sourceDir = c.options.outputDir ∧ c.options.sourceDir ≠ ".") ∨
      (¬ Contains c.options.sourceDir c.options.outputDir ∧
        ¬ Contains c.options.outputDir c.options.sourceDir)) := by
  obtain ⟨source, isName, reads⟩ := source.exists_names
  obtain ⟨output, isName', emits⟩ := output.exists_names
  rw [reads, contains_vendor_iff] at own
  rw [emits, contains_vendor_iff] at own'
  refine ⟨fun f => ?_, ?_⟩
  · obtain ⟨names, proper, shape⟩ := f.inward.exists_names
    rw [shares_iff_names reads emits shape own own']
    simp only [reads, emits, shape, Place.join_inside, contains_vendor_iff, text_eq_vendor_iff,
      Place.text_inside_inj, Place.contains_inside_iff, ne_eq]
  · rw [forall_shares_iff_names reads emits own own']
    simp only [reads, emits, Place.text_inside_inj, Place.text_inside_eq_dot_iff,
      Place.contains_inside_iff, ne_eq]

/-! Trees apart, and an output tree inside its source. -/

/-- A project with its source and output directories. -/
def emitting (source output : String) : Checkout :=
  { declaring "/repo" "example.com/app" with
    options := { sourceDir := source, outputDir := output } }

/-- A file of a package. -/
def api : TreeFile where
  directory := "api"
  name := "a.go"
  inward := ⟨by decide, by decide, by decide⟩
  isName := ⟨by decide, by decide, by decide, by decide⟩
  isNoTest := by decide

theorem shares_iff_apart :
    Inward "src" ∧ Inward "pkg" ∧ ¬ Contains "vendor" "src" ∧ ¬ Contains "vendor" "pkg" ∧
      ∀ f : TreeFile, (emitting "src" "pkg").Shares f := by
  have source : Inward "src" := ⟨by decide, by decide, by decide⟩
  have output : Inward "pkg" := ⟨by decide, by decide, by decide⟩
  have own : ¬ Contains "vendor" "src" := by decide +kernel
  have own' : ¬ Contains "vendor" "pkg" := by decide +kernel
  exact ⟨source, output, own, own', (shares_iff (emitting "src" "pkg") source output own own').2.2
    (.inr (by decide +kernel))⟩

/-- **An output tree in the source tree is moved into itself.**  If the whole project is the source,
a file of another output directory is not located where it stands, but once more below it. -/
theorem emitted_astray :
    Inward "." ∧ Inward "out" ∧ ¬ Contains "vendor" "." ∧ ¬ Contains "vendor" "out" ∧
      (emitting "." "out").written api = "/repo/api/a.go" ∧
      (emitting "." "out").emitted api = "/repo/out/api/a.go" ∧
      (∃ own twin : Location,
        (emitting "." "out").locate "/repo/api/a.go" = some own ∧
        own.path = "example.com/app/out/api" ∧
        (emitting "." "out").locate "/repo/out/api/a.go" = some twin ∧
        twin.path = "example.com/app/out/out/api") ∧
      ¬ (emitting "." "out").Shares api := by
  have written : (emitting "." "out").written api = "/repo/api/a.go" := by decide +kernel
  have emitted : (emitting "." "out").emitted api = "/repo/out/api/a.go" := by decide +kernel
  have declares : (emitting "." "out").Declares "example.com/app" := by
    decide +kernel
  have module : (emitting "." "out").mapper.module = "example.com/app" :=
    module_ofTree declares (by decide)
  have here : (emitting "." "out").locate "/repo/api/a.go" = _ :=
    (locate_within_root (by decide +kernel)
      (show Path.within? _ _ = some "api" by decide +kernel)).trans
      (inProject_own (by decide +kernel) (by decide))
  have there : (emitting "." "out").locate "/repo/out/api/a.go" = _ :=
    (locate_within_root (by decide +kernel)
      (show Path.within? _ _ = some "out/api" by decide +kernel)).trans
      (inProject_own (by decide +kernel) (by decide))
  have moved : (emitting "." "out").mapper.pathBelow
      ((emitting "." "out").mapper.readdress "api") = "example.com/app/out/api" := by
    rw [pathBelow, module]
    decide +kernel
  have moved' : (emitting "." "out").mapper.pathBelow
      ((emitting "." "out").mapper.readdress "out/api") = "example.com/app/out/out/api" := by
    rw [pathBelow, module]
    decide +kernel
  refine ⟨⟨by decide, by decide, by decide⟩, ⟨by decide, by decide, by decide⟩, by decide +kernel,
    by decide +kernel, written, emitted, ⟨_, _, here, moved, there, moved'⟩, ?_⟩
  rintro ⟨own, twin, found, found', path⟩
  rw [written, here] at found
  rw [emitted, there] at found'
  obtain rfl := Option.some.inj found
  obtain rfl := Option.some.inj found'
  exact absurd (moved.symm.trans (path.trans moved')) (by decide)

end PathMapper
end SymbolAtlas
