/-
# SymbolAtlas.Proofs.Naming.Locations -- one package has one path

A file of a package is met in three places: in the project that the package belongs to, in the
module cache, and in the vendor directory of another project.  Each place is read in its own
way: the project adds its directory to the module, the cache splits its directory at the at sign
and reads the escaped names back, the vendor directory is dropped.  All three arrive at the path
of the package (`locate_inProject`, `locate_inCache`, `locate_vendored`), so a symbol has one
identifier wherever it is met (`located_alike`).

How the names of the cache are written is not said: any `Escaping` will do that is lawful for
the library which reads them back (`Escaping.Lawful`).

The cache is asked last.  A package of the cache that also lies in the project, or in the
standard library that a toolchain keeps in the cache, is located there (`located_astray`).
-/
import Mathlib
import SymbolAtlas.Proofs.Module.Escaping

set_option autoImplicit false

namespace SymbolAtlas

open Text Text.Path

variable {e : Escaping}

/-- A file of a package: the module at a version, the directory of the package in the module
and the name of the file. -/
structure PackageFile (e : Escaping) where
  module : String
  version : String
  directory : String
  name : String
  isModule : e.IsPath module
  isVersion : e.IsVersion version
  relative : Path.isRooted directory = false
  clean : Path.clean directory = directory
  stays : Path.leaves directory = false
  own : directory ≠ "vendor" ∧ Path.startsWith directory "vendor/" = false
  isName : IsName name
  isNoTest : Path.endsWith name "_test.go" = false

namespace PackageFile

/-- The file in its own project. -/
def inProject (f : PackageFile e) (root : String) : String := Path.join [root, f.directory, f.name]

/-- The file in a module cache. -/
def inCache (f : PackageFile e) (cache : String) : String :=
  Path.join [cache, e.directory f.module f.version, f.directory, f.name]

/-- The file in a project that keeps its own copy. -/
def vendored (f : PackageFile e) (root : String) : String :=
  Path.join [root, "vendor", f.module, f.directory, f.name]

/-- The path of the package. -/
def path (f : PackageFile e) : String :=
  if f.directory = "." then f.module else Path.join [f.module, f.directory]

end PackageFile

namespace PathMapper

/-- A project on a file system and how its files are to be mapped. -/
structure Checkout where
  tree : FileTree
  root : String
  options : MapperOptions

section Locations

variable [ModuleNames]

namespace Checkout

/-- The location of a file as the project sees it. -/
def locate (c : Checkout) : Locator := (ofTree c.tree c.root c.options).locate c.tree

/-- The module file of the project says that it is `module`. -/
def Declares (c : Checkout) (module : String) : Prop :=
  (c.tree.readBytes? (Path.join [Path.clean c.root, "go.mod"])).map ModuleNames.declared =
  some module

/-- Neither the project nor its standard library holds a directory. -/
def IsApart (c : Checkout) (directory : String) : Prop :=
  Path.isWithin c.root directory = false ∧
    (c.options.goroot = "" ∨ Path.isWithin (Path.join [c.options.goroot, "src"]) directory = false)

instance (c : Checkout) (directory : String) : Decidable (c.IsApart directory) :=
  inferInstanceAs (Decidable (_ ∧ _))

instance (c : Checkout) (module : String) : Decidable (c.Declares module) :=
  inferInstanceAs (Decidable (_ = _))

end Checkout

end Locations

end PathMapper

/-! ## The path of a package -/

namespace PackageFile

variable (f : PackageFile e)

/-- The directory of a package is a list of names. -/
theorem exists_names :
    ∃ names proper, f.directory = (Place.inside names proper).text ∧
      (f.directory = "." ↔ names = []) := by
  obtain ⟨names, proper, shape⟩ := exists_inside f.relative f.clean f.stays
  refine ⟨names, proper, shape, fun dot => ?_, fun none => ?_⟩
  · have parts := (Place.leadsTo_text (Place.inside names proper)).parts
    rw [← shape, dot] at parts
    exact parts.trans (by decide)
  · subst none
    exact shape

variable [ModuleNames]

theorem moduleNames (lawful : e.Lawful) : ∀ part ∈ elements f.module, IsName part :=
  lawful.names f.module f.isModule

theorem module_eq (lawful : e.Lawful) :
    f.module = (Place.inside (elements f.module) (f.moduleNames lawful)).text := by
  rw [Place.text_inside (elements_ne_nil _), ofElements_elements]

theorem module_ne_empty (lawful : e.Lawful) : f.module ≠ "" := fun none => by
  have names := f.moduleNames lawful "" (by rw [none]; decide)
  exact names.nonempty rfl

/-- The path of a package is that of its module and the names of its directory. -/
theorem path_eq (lawful : e.Lawful) {names : List String} {proper : ∀ name ∈ names, IsName name}
    (shape : f.directory = (Place.inside names proper).text)
    (dot : f.directory = "." ↔ names = []) :
    f.path = ofElements (elements f.module ++ names) := by
  rw [path]
  split
  · rename_i here
    rw [dot.1 here, List.append_nil, ofElements_elements]
  · have module :
        LeadsTo f.module (Place.inside (elements f.module) (f.moduleNames lawful)) := by
      have leads := Place.leadsTo_text (Place.inside (elements f.module) (f.moduleNames lawful))
      rwa [← f.module_eq lawful] at leads
    obtain ⟨descends, read⟩ := descends_of_inside shape
    rw [join_below module (by simp) (by simpa using descends) proper
      (by rw [List.flatMap_singleton, read])]
    exact Place.text_inside (List.append_ne_nil_of_left_ne_nil (elements_ne_nil _) _)

end PackageFile

namespace PathMapper

variable {m : PathMapper} {tree : FileTree} {file name : String} {p : Place}

/-! ## What a mapper does with one directory -/

/-- A file of a package is no test, whatever the directory it stands in. -/
theorem not_isExternalTest (h : p.Holds name file)
    (isNoTest : Path.endsWith name "_test.go" = false) : isExternalTest tree file = false := by
  rw [isExternalTest, h.ends "_test.go" (by decide), isNoTest]
  rfl

theorem readdress_of_direct (h : m.options.sourceDir = "") (directory : String) :
    m.readdress directory = directory := by
  rw [readdress]
  simp [h]

/-- What lies in the vendor directory is located by the rest of its path. -/
theorem inProject_vendored {path : String} (some_ : path ≠ "") :
    m.inProject tree file ("vendor/" ++ path) = some
      { path, external := true, package := { name := path, manager := defaultScheme } } := by
  have inside : Path.startsWith ("vendor/" ++ path) "vendor/" = true :=
    startsWith_iff.2 ⟨path, rfl⟩
  have rest : Path.trimLead (Path.trimLead ("vendor/" ++ path) "vendor") "/" = path := by
    have shape : "vendor/" ++ path = "vendor" ++ ("/" ++ path) := by
      rw [← String.append_assoc]
      rfl
    rw [shape, trimLead_append, trimLead_append]
  rw [inProject, if_pos (.inr inside)]
  simp only [rest, if_neg some_]

/-- The characters before the first `c`. -/
theorem span_ne {c : Char} {first : List Char} (absent : c ∉ first) (rest : List Char)
    (starts : rest = [] ∨ rest.head? = some c) :
    (first ++ rest).span (· ≠ c) = (first, rest) := by
  have before : ∀ other ∈ first, decide (other ≠ c) = true := by
    intro other member
    simpa using fun same : other = c => absent (same ▸ member)
  rw [List.span_eq_takeWhile_dropWhile, List.takeWhile_append_of_pos before,
    List.dropWhile_append_of_pos before]
  rcases starts with rfl | head
  · simp
  · obtain ⟨more, rfl⟩ := List.head?_eq_some_iff.1 head
    simp

section Lawful

variable [ModuleNames]

/-! ## The project -/

/-- The root is asked first. -/
theorem locate_within_root {inside : String} (clean : Path.clean file = file)
    (within : Path.within? m.root (Path.directory file) = some inside) :
    m.locate tree file = m.inProject tree file inside := by
  unfold locate
  simp only [clean, within]

/-- A file below the root is located in the project. -/
theorem locate_below_root {root : Place} (h : LeadsTo m.root root) {names : List String}
    {proper : ∀ name ∈ names, IsName name} (held : (root.below names proper).Holds name file) :
    m.locate tree file = m.inProject tree file (Place.inside names proper).text :=
  locate_within_root held.clean (by rw [held.directory, within?_below h])

/-- The standard library is asked second. -/
theorem locate_within_library {inside : String} (clean : Path.clean file = file)
    (outside : Path.within? m.root (Path.directory file) = none) (some_ : m.options.goroot ≠ "")
    (within :
      Path.within? (Path.join [m.options.goroot, "src"]) (Path.directory file) = some inside)
    (below : inside ≠ ".") : m.locate tree file = some (m.inLibrary inside) := by
  unfold locate
  simp only [clean, outside, if_neg some_, within]
  rw [Option.filter_some, if_pos (by simpa using below)]

/-- What is not below the root nor in the standard library is looked for in the cache. -/
theorem locate_below_cache {cache : Place} (h : LeadsTo m.options.moduleCache cache)
    {names : List String} {proper : ∀ name ∈ names, IsName name}
    (held : (cache.below names proper).Holds name file)
    (caches : m.options.moduleCache ≠ "")
    (outside : Path.isWithin m.root (Path.directory file) = false)
    (foreign : m.options.goroot = "" ∨
      Path.isWithin (Path.join [m.options.goroot, "src"]) (Path.directory file) = false) :
    m.locate tree file = PathMapper.inCache (Place.inside names proper).text := by
  have away : Path.within? m.root (Path.directory file) = none := by
    simpa [Path.isWithin] using outside
  have library : (if m.options.goroot = "" then none
      else (Path.within? (Path.join [m.options.goroot, "src"]) (Path.directory file)).filter
        (· ≠ ".")) = none := by
    split
    · rfl
    · rename_i some_
      have foreign := foreign.resolve_left some_
      rw [Path.isWithin, Option.isSome_eq_false_iff, Option.isNone_iff_eq_none] at foreign
      rw [foreign]
      rfl
  unfold locate
  simp only [held.clean, away, library]
  rw [if_neg caches, held.directory, within?_below h]
  rfl

/-! ## The project that declares a module -/

theorem module_ofTree {c : Checkout} {module : String} (declares : c.Declares module)
    (some_ : module ≠ "") : (ofTree c.tree c.root c.options).module = module := by
  unfold ofTree
  simp only [show _ = some module from declares, Option.getD_some, if_neg some_]

/-- **A package in its own project has its path.** -/
theorem locate_inProject (lawful : e.Lawful) (f : PackageFile e) {c : Checkout}
    (declares : c.Declares f.module)
    (direct : c.options.sourceDir = "") :
    c.locate (f.inProject c.root) = some
      { path := f.path
        package :=
          { name := f.module, version := c.options.version, manager := defaultScheme } } := by
  obtain ⟨root, leads⟩ := exists_place c.root
  obtain ⟨names, proper, shape, dot⟩ := f.exists_names
  obtain ⟨descends, read⟩ := descends_of_inside shape
  have held : (root.below names proper).Holds f.name (f.inProject c.root) :=
    holds_join leads [f.directory] (by simpa using descends) proper
      (by rw [List.flatMap_singleton, read]) f.isName
  have module := module_ofTree declares (f.module_ne_empty lawful)
  have addressed : (ofTree c.tree c.root c.options).readdress f.directory = f.directory := by
    refine readdress_of_direct ?_ _
    show cleanDirectory c.options.sourceDir = ""
    rw [direct]
    rfl
  rw [Checkout.locate, locate_below_root leads.cleaned held, ← shape, inProject,
    if_neg (not_or.2 ⟨f.own.1, by simp [f.own.2]⟩)]
  simp only [addressed, not_isExternalTest held f.isNoTest, module, package]
  rfl

/-! ## The project that vendors a module -/

/-- **A package in a vendor directory has its path.** -/
theorem locate_vendored (lawful : e.Lawful) (f : PackageFile e) (c : Checkout) :
    c.locate (f.vendored c.root) = some
      { path := f.path
        external := true
        package := { name := f.path, manager := defaultScheme } } := by
  obtain ⟨root, leads⟩ := exists_place c.root
  obtain ⟨names, proper, shape, dot⟩ := f.exists_names
  have vendor : IsName "vendor" := ⟨by decide, by decide, by decide, by decide⟩
  have within : ∀ name ∈ elements f.module ++ names, IsName name :=
    List.forall_mem_append.2 ⟨f.moduleNames lawful, proper⟩
  obtain ⟨descends, read⟩ := descends_of_inside shape
  obtain ⟨descends', read'⟩ := descends_of_inside (f.module_eq lawful)
  have down : ∀ path ∈ ["vendor", f.module, f.directory], Descends path := by
    simpa using ⟨vendor.descends, descends', descends⟩
  have read : ["vendor", f.module, f.directory].flatMap FileTree.steps =
      "vendor" :: (elements f.module ++ names) := by
    rw [List.flatMap_cons, List.flatMap_cons, List.flatMap_singleton, vendor.steps, read', read]
    rfl
  have held : (root.below _ (List.forall_mem_cons.2 ⟨vendor, within⟩)).Holds f.name
      (f.vendored c.root) := holds_join leads _ down _ read f.isName
  have some_ : elements f.module ++ names ≠ [] :=
    List.append_ne_nil_of_left_ne_nil (elements_ne_nil _) _
  have path : f.path = ofElements (elements f.module ++ names) := f.path_eq lawful shape dot
  have nonempty : f.path ≠ "" := by
    have shape : f.path = (Place.inside _ within).text := by rw [path, Place.text_inside some_]
    exact (descends_of_inside shape).1.nonempty
  have prefixed : (Place.inside _ (List.forall_mem_cons.2 ⟨vendor, within⟩)).text =
      "vendor/" ++ f.path := by
    rw [Place.text_inside (by simp), ofElements_cons some_, ← path]
    rfl
  rw [Checkout.locate, locate_below_root leads.cleaned held]
  exact (congrArg _ prefixed).trans (inProject_vendored nonempty)

/-! ## The project that uses a module from the cache -/

/-- A directory of the cache is read back: the module before the at sign, the version up to
the next slash, and the rest. -/
theorem inCache_eq (lawful : e.Lawful) {module version : String} (isPath : e.IsPath module)
    (isVersion : e.IsVersion version) {rest sub : List Char}
    (cut : rest.span (· ≠ '/') = ((e.version version).toList, sub)) :
    inCache (e.path module ++ "@" ++ String.ofList rest) = some
      { path :=
          if String.ofList (sub.drop 1) = "" then module
          else Path.join [module, String.ofList (sub.drop 1)]
        external := true
        package := { name := module, version, manager := defaultScheme } } := by
  have text : (e.path module ++ "@" ++ String.ofList rest).toList =
      (e.path module).toList ++ '@' :: rest := by
    simp
  have nonempty : (e.path module).toList ≠ [] := fun empty => by
    have names := lawful.written module isPath ""
      (by rw [String.toList_eq_nil_iff.1 empty]; decide)
    exact names.nonempty rfl
  obtain ⟨first, more, shape⟩ := List.exists_cons_of_ne_nil nonempty
  rw [inCache, text, span_ne (lawful.unsigned module isPath) _ (.inr rfl), shape]
  simp only [cut]
  rw [← shape, String.ofList_toList, lawful.unescapePath module isPath, String.ofList_toList,
    lawful.unescapeVersion version isVersion]
  rfl

/-- The directory of a package in the cache is located by the path of the package. -/
theorem inCache_directory (lawful : e.Lawful) (f : PackageFile e) {first names : List String}
    (some_ : first ≠ []) {proper : ∀ name ∈ names, IsName name}
    (shape : f.directory = (Place.inside names proper).text) (dot : f.directory = "." ↔ names = [])
    (kept : e.directory f.module f.version = ofElements first) :
    inCache (ofElements (first ++ names)) = some
      { path := f.path
        external := true
        package := { name := f.module, version := f.version, manager := defaultScheme } } := by
  have version := lawful.whole f.version f.isVersion
  by_cases none : names = []
  · have text : ofElements (first ++ names) =
        e.path f.module ++ "@" ++ String.ofList (e.version f.version).toList := by
      rw [none, List.append_nil, ← kept, String.ofList_toList]
      rfl
    have cut := span_ne version [] (.inl rfl)
    rw [List.append_nil] at cut
    rw [text, inCache_eq lawful f.isModule f.isVersion cut, PackageFile.path, if_pos (dot.2 none)]
    rfl
  · have text : ofElements (first ++ names) = e.path f.module ++ "@" ++
        String.ofList ((e.version f.version).toList ++ '/' :: f.directory.toList) := by
      have directory : f.directory = ofElements names := by rw [shape, Place.text_inside none]
      rw [ofElements_append some_ none, ← kept, ← directory]
      refine String.toList_injective ?_
      simp [Escaping.directory]
    have away : f.directory ≠ "." := fun here => none (dot.1 here)
    have some' : f.directory ≠ "" := (descends_of_inside shape).1.nonempty
    rw [text, inCache_eq lawful f.isModule f.isVersion (span_ne version _ (.inr rfl)),
      PackageFile.path, if_neg away, List.drop_one, List.tail_cons, String.ofList_toList,
      if_neg some']

/-- A package in the cache lies below it, and is located by its path there. -/
theorem holds_inCache (lawful : e.Lawful) (f : PackageFile e) {cache : String} {p : Place}
    (leads : LeadsTo cache p) :
    ∃ names proper, (p.below names proper).Holds f.name (f.inCache cache) ∧
      inCache (Place.inside names proper).text = some
        { path := f.path
          external := true
          package := { name := f.module, version := f.version, manager := defaultScheme } } := by
  obtain ⟨names, proper, shape, dot⟩ := f.exists_names
  obtain ⟨first, some_, proper', kept⟩ := lawful.directory_inside f.isModule f.isVersion
  have shape' : e.directory f.module f.version = (Place.inside first proper').text := by
    rw [kept, Place.text_inside some_]
  obtain ⟨descends, read⟩ := descends_of_inside shape
  obtain ⟨descends', read'⟩ := descends_of_inside shape'
  have down : ∀ path ∈ [e.directory f.module f.version, f.directory], Descends path := by
    simpa using ⟨descends', descends⟩
  have read : [e.directory f.module f.version, f.directory].flatMap FileTree.steps =
      first ++ names := by
    rw [List.flatMap_cons, List.flatMap_singleton, read', read]
  have held := holds_join leads [e.directory f.module f.version, f.directory] down
    (List.forall_mem_append.2 ⟨proper', proper⟩) read f.isName
  refine ⟨first ++ names, _, held, ?_⟩
  rw [Place.text_inside (List.append_ne_nil_of_left_ne_nil some_ _)]
  exact inCache_directory lawful f some_ shape dot kept

/-- **A package in the module cache has its path.** -/
theorem locate_inCache (lawful : e.Lawful) (f : PackageFile e) {c : Checkout}
    (caches : c.options.moduleCache ≠ "")
    (apart : c.IsApart (Path.directory (f.inCache c.options.moduleCache))) :
    c.locate (f.inCache c.options.moduleCache) = some
      { path := f.path
        external := true
        package := { name := f.module, version := f.version, manager := defaultScheme } } := by
  obtain ⟨cache, leads⟩ := exists_place c.options.moduleCache
  obtain ⟨names, proper, held, located⟩ := holds_inCache lawful f leads
  have outside : Path.isWithin (Path.clean c.root)
      (Path.directory (f.inCache c.options.moduleCache)) = false := by
    rw [Path.isWithin, within?_clean]
    exact apart.1
  have asked : c.locate (f.inCache c.options.moduleCache) =
      inCache (Place.inside names proper).text :=
    locate_below_cache (m := ofTree c.tree c.root c.options) leads held caches outside apart.2
  exact asked.trans located

/-- What the project and its standard library do not hold of a cache that lies in neither and
holds neither. -/
theorem isApart_of_disjoint (lawful : e.Lawful) (f : PackageFile e) {c : Checkout} {cache : String}
    (rooted : Path.isRooted cache = true) (apart : c.IsApart cache)
    (root : Path.isWithin cache c.root = false)
    (library : Path.isWithin cache (Path.join [c.options.goroot, "src"]) = false) :
    c.IsApart (Path.directory (f.inCache cache)) := by
  obtain ⟨p, leads⟩ := exists_place cache
  obtain ⟨names, proper, held, -⟩ := holds_inCache lawful f leads
  have start : p.rooted = true := leads.rooted.trans rooted
  rw [held.directory]
  exact ⟨isWithin_below_of_apart leads start apart.1 root,
    apart.2.imp_right fun outside => isWithin_below_of_apart leads start outside library⟩

/-- **One package has one path.**  However module paths and versions are written into the module
cache, if the library reads them back (`Escaping.Lawful`): a file of a package has the same path
in the project that declares its module, in the module cache of another project and in the vendor
directory of a third, if the other project and its standard library do not hold the directory in
the cache.  Only the first has the package as its own, and what the package exports has one
identifier. -/
theorem located_alike (lawful : e.Lawful) (f : PackageFile e) (home guest keeper : Checkout)
    (declares : home.Declares f.module) (direct : home.options.sourceDir = "")
    (caches : guest.options.moduleCache ≠ "")
    (apart : guest.IsApart (Path.directory (f.inCache guest.options.moduleCache))) :
    ∃ own cached vendored : Location,
      home.locate (f.inProject home.root) = some own ∧
      guest.locate (f.inCache guest.options.moduleCache) = some cached ∧
      keeper.locate (f.vendored keeper.root) = some vendored ∧
      own.path = cached.path ∧ own.path = vendored.path ∧
      own.external = false ∧ cached.external = true ∧ vendored.external = true ∧
      ∀ segments,
        Moniker.identifierOf own.path segments = Moniker.identifierOf cached.path segments ∧
        Moniker.identifierOf own.path segments = Moniker.identifierOf vendored.path segments :=
  ⟨_, _, _, locate_inProject lawful f declares direct, locate_inCache lawful f caches apart,
    locate_vendored lawful f keeper, rfl, rfl, rfl, rfl, rfl, fun _ => ⟨rfl, rfl⟩⟩

end Lawful

/-! A module whose path has an upper-case letter, in three projects. -/

/-- A file of a package with an upper-case letter in its path. -/
def decoder : PackageFile Module.escaping where
  module := "example.com/Toml"
  version := "v1.3.2"
  directory := "internal"
  name := "tz.go"
  isModule := show Module.isModulePath _ = true by decide +kernel
  isVersion := ⟨by decide +kernel, by decide +kernel⟩
  relative := by decide +kernel
  clean := by decide +kernel
  stays := by decide +kernel
  own := by decide +kernel
  isName := ⟨by decide, by decide, by decide, by decide⟩
  isNoTest := by decide

/-- A project with nothing but a module file. -/
def declaring (root module : String) : Checkout where
  tree :=
    { entries := (Table.empty.insert root .directory).insert (root ++ "/go.mod")
        (.file ("module " ++ module ++ "\n").toUTF8 0) }
  root
  options := {}

/-- A project with a module cache and a standard library. -/
def importing (root goroot : String) : Checkout where
  tree := {}
  root
  options := { goroot, moduleCache := "/cache" }

theorem located_alike_decoder :
    Module.escaping.Lawful ∧
    (declaring "/toml" decoder.module).Declares decoder.module ∧
    (importing "/app" "/go").IsApart (Path.directory (decoder.inCache "/cache")) ∧
    ∃ own cached vendored : Location,
      (declaring "/toml" decoder.module).locate (decoder.inProject "/toml") = some own ∧
      (importing "/app" "/go").locate (decoder.inCache "/cache") = some cached ∧
      (importing "/other" "/go").locate (decoder.vendored "/other") = some vendored ∧
      own.path = cached.path ∧ own.path = vendored.path ∧
      own.external = false ∧ cached.external = true ∧ vendored.external = true ∧
      ∀ segments,
        Moniker.identifierOf own.path segments = Moniker.identifierOf cached.path segments ∧
        Moniker.identifierOf own.path segments = Moniker.identifierOf vendored.path segments := by
  have declares : (declaring "/toml" decoder.module).Declares decoder.module := by
    decide +kernel
  have apart : (importing "/app" "/go").IsApart (Path.directory (decoder.inCache "/cache")) :=
    isApart_of_disjoint Module.lawful_escaping decoder (by decide) (by decide +kernel)
      (by decide +kernel) (by decide +kernel)
  exact ⟨Module.lawful_escaping, declares, apart,
    located_alike Module.lawful_escaping decoder (declaring "/toml" decoder.module)
      (importing "/app" "/go") (importing "/other" "/go") declares rfl (by decide) apart⟩

/-! ## What the cache shares with others -/

/-- A file of the standard library that comes with a toolchain, which is a module like any
other. -/
def printer : PackageFile Module.escaping where
  module := "go.dev/sdk"
  version := "v1.25.0"
  directory := "src/fmt"
  name := "print.go"
  isModule := show Module.isModulePath _ = true by decide +kernel
  isVersion := ⟨by decide +kernel, by decide +kernel⟩
  relative := by decide +kernel
  clean := by decide +kernel
  stays := by decide +kernel
  own := by decide +kernel
  isName := ⟨by decide, by decide, by decide, by decide⟩
  isNoTest := by decide

theorem inCache_decoder : decoder.inCache "/cache" =
    "/cache/example.com/!toml@v1.3.2/internal/tz.go" := by
  decide +kernel

theorem inCache_printer : printer.inCache "/cache" =
    "/cache/go.dev/sdk@v1.25.0/src/fmt/print.go" := by
  decide +kernel

/-- However lawful the library is, it is not enough that the cache itself lies outside the project
and the standard library. A toolchain in the cache is the standard library of those who use it, and
there its package has another path; and a project that lies in the cache has its packages as its
own. -/
theorem located_astray :
    Module.escaping.Lawful ∧
    (∃ (guest : Checkout) (own cached : Location), guest.options.moduleCache = "/cache" ∧
      guest.IsApart "/cache" ∧
      (declaring "/toolchain" printer.module).Declares printer.module ∧
      (declaring "/toolchain" printer.module).locate (printer.inProject "/toolchain") = some own ∧
      guest.locate (printer.inCache "/cache") = some cached ∧ own.path ≠ cached.path) ∧
    ∃ (guest : Checkout) (cached : Location), guest.options.moduleCache = "/cache" ∧
      guest.IsApart "/cache" ∧
      guest.locate (decoder.inCache "/cache") = some cached ∧ cached.external = false := by
  have declares : (declaring "/toolchain" printer.module).Declares printer.module := by
    decide +kernel
  let guest := importing "/app" "/cache/go.dev/sdk@v1.25.0"
  have shared : guest.locate (printer.inCache "/cache") =
      some (inLibrary (ofTree guest.tree guest.root guest.options) "fmt") := by
    rw [inCache_printer]
    exact locate_within_library (by decide +kernel) (by decide +kernel) (by decide +kernel)
      (by decide +kernel) (by decide)
  let inside := importing "/cache/example.com/!toml@v1.3.2" "/go"
  have own : inside.locate (decoder.inCache "/cache") =
      (ofTree inside.tree inside.root inside.options).inProject inside.tree
        (decoder.inCache "/cache") "internal" := by
    rw [inCache_decoder]
    exact locate_within_root (by decide +kernel) (by decide +kernel)
  refine ⟨Module.lawful_escaping, ⟨guest, _, _, rfl, by decide +kernel, declares,
    locate_inProject Module.lawful_escaping printer declares rfl, shared, by decide +kernel⟩,
    inside, _, rfl, by decide +kernel, own.trans rfl, rfl⟩

end PathMapper
end SymbolAtlas
