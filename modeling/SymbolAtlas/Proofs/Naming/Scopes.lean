/-
# SymbolAtlas.Proofs.Naming.Scopes -- which nodes get a global name

Whether a node gets a global name is decided by the containers around it, whatever a namer was
asked before.  It gets one exactly if a `Route` leads from it to a file: everything on the way
is a group, a package clause or a declaration with a name, and at the end is a file that can be
located.  The name is then that of the file's package, with one descriptor for each declaration
on the way, the outermost first.

What a namer remembers need not be what it will answer: a block is remembered as nothing, and
as a number once it is asked for.  Neither is global, and that is all that the nodes inside
depend on (`Fits`).
-/
import SymbolAtlas.Proofs.Naming.Forest

set_option autoImplicit false

namespace SymbolAtlas

open Namer (Call suffix? numbered)

/-! ## Names along a chain -/

/-- Whether a node adds a descriptor to the name of its container. -/
def Node.declares (node : Node) : Bool := (suffix? node.kind).isSome

/-- Whether a descriptor names a declaration, with or without a number. -/
def Descriptor.Names (d : Descriptor) (node : Node) : Prop :=
  suffix? node.kind = some d.suffix ∧ ∃ seen, d.name = numbered node seen

/-- From a place outwards, all nodes but the last pass a name on or declare one, and the last
one is a file that is located here. -/
structure Route (locate : Locator) (nodes inner : List Node) (location : Location) : Prop where
  ends : ∃ file, nodes = inner ++ [file] ∧ file.kind = .file ∧ locate file.file = some location
  leads : ∀ node ∈ inner, node.Passes ∨ node.declares ∧ node.name ≠ ""

/-- A global name that the nodes from a place outwards can give, whatever numbers the
declarations among them get. -/
inductive Spells (n₀ : Namer) : List Node → SymbolName → Prop
  | file {node : Node} {location : Location} (kind : node.kind = .file)
      (located : n₀.locate node.file = some location) :
      Spells n₀ [node] (.globalName n₀.scheme location.package [⟨location.path, .package⟩])
  | passed {node : Node} {rest : List Node} {name : SymbolName} (passes : node.Passes)
      (container : Spells n₀ rest name) : Spells n₀ (node :: rest) name
  | declared {node : Node} {rest : List Node} {scheme : String} {package : PackageInfo}
      {ds : List Descriptor} {suffix : Suffix} (seen : Nat)
      (kind : suffix? node.kind = some suffix) (named : node.name ≠ "")
      (container : Spells n₀ rest (.globalName scheme package ds)) :
      Spells n₀ (node :: rest) (.globalName scheme package (ds ++ [⟨numbered node seen, suffix⟩]))

/-- A name that can be given has the package of the file at the end, and one descriptor for
each declaration on the way. -/
theorem Spells.exists_route {n₀ : Namer} {nodes : List Node} {name : SymbolName}
    (h : Spells n₀ nodes name) :
    ∃ inner location ds, Route n₀.locate nodes inner location ∧
      name = .globalName n₀.scheme location.package (⟨location.path, .package⟩ :: ds) ∧
      List.Forall₂ (fun node d => Descriptor.Names d node)
        (inner.filter Node.declares).reverse ds := by
  induction h with
  | @file node location kind located =>
      exact ⟨[], location, [], ⟨⟨node, rfl, kind, located⟩, by simp⟩, rfl, .nil⟩
  | @passed node _ _ passes _ ih =>
      obtain ⟨inner, location, ds, ⟨⟨file, rfl, ends⟩, leads⟩, rfl, names⟩ := ih
      refine ⟨node :: inner, location, ds, ⟨⟨file, rfl, ends⟩, ?_⟩, rfl, ?_⟩
      · exact List.forall_mem_cons.2 ⟨.inl passes, leads⟩
      · rw [List.filter_cons_of_neg]
        · exact names
        · simp [Node.declares, Node.suffix?_of_passes passes]
  | @declared node _ _ _ _ suffix seen kind named _ ih =>
      obtain ⟨inner, location, ds, ⟨⟨file, rfl, ends⟩, leads⟩, same, names⟩ := ih
      obtain ⟨rfl, rfl, rfl⟩ := SymbolName.globalName.inj same
      have declares : node.declares = true := by simp [Node.declares, kind]
      refine ⟨node :: inner, location, ds ++ [⟨numbered node seen, suffix⟩],
        ⟨⟨file, rfl, ends⟩, ?_⟩, rfl, ?_⟩
      · exact List.forall_mem_cons.2 ⟨.inr ⟨declares, named⟩, leads⟩
      · rw [List.filter_cons_of_pos declares, List.reverse_cons]
        exact List.rel_append names (.cons ⟨kind, seen, rfl⟩ .nil)

/-- Where a route leads to a file, a name can be given. -/
theorem Route.exists_spells (n₀ : Namer) {nodes inner : List Node} {location : Location}
    (h : Route n₀.locate nodes inner location) :
    ∃ package ds, Spells n₀ nodes (.globalName n₀.scheme package ds) := by
  obtain ⟨⟨file, rfl, kind, located⟩, leads⟩ := h
  induction inner with
  | nil => exact ⟨_, _, .file kind located⟩
  | cons node inner ih =>
      obtain ⟨here, others⟩ := List.forall_mem_cons.1 leads
      obtain ⟨package, ds, container⟩ := ih others
      rcases here with passes | ⟨declares, named⟩
      · exact ⟨package, ds, .passed passes container⟩
      · obtain ⟨suffix, kind⟩ := Option.isSome_iff_exists.1 declares
        exact ⟨package, _, .declared 0 kind named container⟩

/-- There is one route at most. -/
theorem Route.unique {locate : Locator} {nodes inner inner' : List Node}
    {location location' : Location} (h : Route locate nodes inner location)
    (h' : Route locate nodes inner' location') : inner = inner' ∧ location = location' := by
  obtain ⟨file, rfl, -, located⟩ := h.ends
  obtain ⟨file', same, -, located'⟩ := h'.ends
  obtain ⟨rfl, last⟩ := List.append_inj' same rfl
  obtain rfl := (List.cons.inj last).1
  exact ⟨rfl, Option.some.inj (located.symm.trans located')⟩

/-! ## What a namer remembers -/

/-- Something that a chain of nodes is resolved to is global exactly if a name can be given, and
then it is such a name. -/
structure Fits (n₀ : Namer) (nodes : List Node) (r : Resolved) : Prop where
  sound : ∀ name, globalOf r = some name → Spells n₀ nodes name
  complete : ∀ name, Spells n₀ nodes name → (globalOf r).isSome

section Fits

variable {F : Forest} {n₀ n n' : Namer}

theorem fits_nil {r : Resolved} (notGlobal : globalOf r = none) : Fits n₀ [] r :=
  ⟨fun _ global => absurd (notGlobal.symm.trans global) (by simp), fun _ spells => nomatch spells⟩

/-- A file is named as the locator says. -/
theorem fits_ofFile {node : Node} (kind : node.kind = .file) :
    Fits n₀ [node] (n₀.ofFile node.file) := by
  refine ⟨fun name global => ?_, fun name spells => ?_⟩
  · rw [Namer.globalOf_ofFile] at global
    obtain ⟨location, located, rfl⟩ := Option.map_eq_some_iff.1 global
    exact .file kind located
  · cases spells with
    | file _ located =>
        rw [Namer.globalOf_ofFile, Namer.ofFile, located]
        rfl
    | passed passes => exact absurd passes (by simp [Node.Passes, kind])
    | declared _ sort => exact absurd sort (by simp [kind, suffix?])

/-- What has no name of its own takes that of its container. -/
theorem Fits.passed {node : Node} {rest : List Node} {r : Resolved} (h : Fits n₀ rest r)
    (passes : node.Passes) : Fits n₀ (node :: rest) r := by
  refine ⟨fun name global => .passed passes (h.sound name global), fun name spells => ?_⟩
  cases spells with
  | file kind => exact absurd passes (by simp [Node.Passes, kind])
  | passed _ container => exact h.complete name container
  | declared _ kind => exact absurd kind (by simp [Node.suffix?_of_passes passes])

/-- A number is no more global than nothing is. -/
theorem Fits.numbered {nodes : List Node} (h : Fits n₀ nodes none) (k : Int) :
    Fits n₀ nodes (some (.localName k)) :=
  ⟨fun _ global => (nomatch global), h.complete⟩

/-- Nothing that is neither a file, nor passes a name on, nor declares one is global. -/
theorem fits_local {node : Node} {rest : List Node} {r : Resolved} (notGlobal : globalOf r = none)
    (kind : suffix? node.kind = none) (sort : node.kind ∉ [.file, .package, .group]) :
    Fits n₀ (node :: rest) r := by
  refine ⟨fun name global => absurd (notGlobal.symm.trans global) (by simp), fun name spells => ?_⟩
  cases spells with
  | file kind => exact absurd kind (fun same => sort (by simp [same]))
  | passed passes => exact absurd passes (by rintro (same | same) <;> exact sort (by simp [same]))
  | declared _ kind' => exact absurd (kind.symm.trans kind') (by simp)

/-- A declaration takes the name of its container and one descriptor more. -/
theorem Fits.below {node : Node} {rest : List Node} {container : Resolved} {suffix : Suffix}
    (h : Fits n₀ rest container) (kind : suffix? node.kind = some suffix) (n : Namer) :
    Fits n₀ (node :: rest) (some (n.below container node suffix).1) := by
  rcases n.below_cases container node suffix with
    ⟨lost, same⟩ | ⟨scheme, package, ds, rfl, named, same⟩
  · rw [same]
    refine ⟨fun _ global => (nomatch global), fun name spells => ?_⟩
    cases spells with
    | file sort => exact absurd kind (by simp [sort, suffix?])
    | passed passes => exact absurd kind (by simp [Node.suffix?_of_passes passes])
    | declared _ _ named spelled =>
        have global := h.complete _ spelled
        rw [lost.resolve_right named] at global
        cases global
  · rw [same]
    refine ⟨fun name global => ?_, fun _ _ => rfl⟩
    obtain rfl := Option.some.inj global
    exact .declared _ kind named (h.sound _ rfl)

/-- **Resolving comes to what fits**, whatever was resolved before. -/
theorem Forest.Resolves.fits {start : Option NodeId} {r : Resolved} (h : F.Resolves start n r n')
    (upholds : n.Upholds F (Fits n₀) n₀) {ids : List NodeId} (chain : F.Chain start ids) :
    n'.Upholds F (Fits n₀) n₀ ∧ Fits n₀ (ids.map F.node) r := by
  induction h generalizing ids with
  | nothing =>
      cases chain
      exact ⟨upholds, fits_nil rfl⟩
  | known here => exact ⟨upholds, upholds.memo _ _ _ here chain⟩
  | @file id n new kind =>
      have fits : Fits n₀ (ids.map F.node) (n.ofFile (F.node id).file) := by
        cases chain with
        | cons rest =>
            rw [F.above_of_other (by simp [kind, suffix?]) (by simp [Node.Passes, kind])] at rest
            cases rest
            rw [upholds.ofFile_eq]
            exact fits_ofFile kind
      exact ⟨upholds.remember chain fits, fits⟩
  | passed new passes _ ih =>
      cases chain with
      | cons rest =>
          obtain ⟨first, fits⟩ := ih upholds rest
          have own := fits.passed passes
          exact ⟨first.remember (.cons rest) own, own⟩
  | @scope id n new kind =>
      have fits : Fits n₀ (ids.map F.node) none := by
        cases chain
        exact fits_local rfl (F.suffix?_of_scope kind) (F.kind_of_scope kind)
      exact ⟨upholds.remember chain fits, fits⟩
  | @alone id n new kind other =>
      have fits : Fits n₀ (ids.map F.node) (some n.newLocal.1) := by
        cases chain
        exact fits_local rfl kind fun sort => other (List.mem_of_mem_take (i := 3) sort)
      exact ⟨upholds.newLocal.remember chain fits, fits⟩
  | @declared id n n' container suffix new kind _ ih =>
      cases chain with
      | cons rest =>
          obtain ⟨first, fits⟩ := ih upholds rest
          have own := fits.below kind n'
          refine ⟨Namer.Upholds.remember ?_ (.cons rest) own, own⟩
          rcases n'.below_cases container (F.node id) suffix with
            ⟨-, same⟩ | ⟨_, _, _, -, -, same⟩ <;> rw [same]
          · exact first.newLocal
          · exact first.counted _ _

theorem Forest.Answers.fits {call : Call} {name : SymbolName} (h : F.Answers call n name n')
    (upholds : n.Upholds F (Fits n₀) n₀) {ids : List NodeId} (chain : F.Chain call.node ids) :
    n'.Upholds F (Fits n₀) n₀ ∧ Fits n₀ (ids.map F.node) (some name) := by
  cases h with
  | unbound node =>
      rw [node] at chain
      cases chain
      exact ⟨upholds.newLocal, fits_nil rfl⟩
  | resolved node first =>
      rw [node] at chain
      exact first.fits upholds chain
  | unresolved node first =>
      rw [node] at chain
      obtain ⟨later, fits⟩ := first.fits upholds chain
      exact ⟨later.newLocal.remember chain (fits.numbered _), fits.numbered _⟩

end Fits

namespace Namer

variable {μ : Type} {o : Oracle μ} {F : Forest}

/-- **A node gets a global name exactly if a route leads from it to a file.**  Take any calls to
one namer, for nodes whose containers come to an end.  The name of a node is global exactly if
there is a route, and then it has the package of the file and one descriptor for each
declaration on the way, outermost first. -/
theorem global_iff_route (shows : o.Shows F) (scheme : String) (locate : Locator)
    {calls : List Call} (grounded : F.Grounded calls) (m : μ) {id : NodeId} {ids : List NodeId}
    (chain : F.Chain (some id) ids) {name : SymbolName}
    (answered : (.name (some id), name) ∈
      calls.zip (answerAll o calls (start scheme locate) m).1.1) :
    (name.isLocal = false ↔ ∃ inner location, Route locate (ids.map F.node) inner location) ∧
      ∀ inner location, Route locate (ids.map F.node) inner location → ∃ ds,
        name = .globalName (if scheme = "" then defaultScheme else scheme) location.package
          (⟨location.path, .package⟩ :: ds) ∧
        List.Forall₂ (fun node d => Descriptor.Names d node)
          (inner.filter Node.declares).reverse ds := by
  have runs := shows.runs_answerAll grounded (start scheme locate) m
  have fit : Fits (start scheme locate) (ids.map F.node) (some name) :=
    runs.right (fun n => n.Upholds F (Fits (start scheme locate)) (start scheme locate)) _ grounded
      (fun upholds answers chain => answers.fits upholds chain) (upholds_start rfl) _ answered
      ids chain
  have spelled : name.isLocal = false → Spells (start scheme locate) (ids.map F.node) name := by
    intro global
    refine fit.sound name ?_
    cases name with
    | globalName => rfl
    | localName => cases global
  have global : ∀ inner location, Route locate (ids.map F.node) inner location →
      name.isLocal = false := by
    intro inner location route
    obtain ⟨package, ds, spells⟩ := Route.exists_spells (start scheme locate) route
    have found := fit.complete _ spells
    cases name with
    | globalName => rfl
    | localName => cases found
  refine ⟨⟨fun isGlobal => ?_, fun ⟨inner, location, route⟩ => global inner location route⟩, ?_⟩
  · obtain ⟨inner, location, _, route, -⟩ := (spelled isGlobal).exists_route
    exact ⟨inner, location, route⟩
  · intro inner location route
    obtain ⟨inner', location', ds, route', same, names⟩ :=
      (spelled (global inner location route)).exists_route
    obtain ⟨rfl, rfl⟩ := route.unique route'
    exact ⟨ds, same, names⟩

/-- A method of a type, in a group below a package clause, with a variable in its body. -/
def inClause : Sketch :=
  let (file, s) := Sketch.addFile {} "a.go"
  let (clause, s) := s.addChild file .package "p"
  let (wrapper, s) := s.addChild clause .group ""
  let (type, s) := s.declare wrapper .typeDecl "T"
  let (method, s) := s.declare type .method "run"
  let (body, s) := s.addChild method .block ""
  let (_, s) := s.declare body .variable "n"
  s

/-- The variable, a fresh name, and the method. -/
def inClauseCalls : List Call := [.name (some ⟨8⟩), .fresh, .name (some ⟨5⟩)]

/-- The name of the method. -/
def inClauseName : SymbolName :=
  .globalName "gomod" {} [⟨"p", .package⟩, ⟨"T", .type⟩, ⟨"run", .method⟩]

/-- The method has a route to its file, and the variable has none. -/
theorem global_iff_route_inClause :
    inClause.oracle.Shows inClause.forest ∧ inClause.forest.Grounded inClauseCalls ∧
      (∃ inner location, Route (fun _ => some { path := "p" })
        ([⟨5⟩, ⟨3⟩, ⟨2⟩, ⟨1⟩, ⟨0⟩].map inClause.node) inner location) ∧
      ¬ ∃ inner location, Route (fun _ => some { path := "p" })
        ([⟨8⟩, ⟨7⟩].map inClause.node) inner location := by
  have method : inClause.forest.Chain (some ⟨5⟩) [⟨5⟩, ⟨3⟩, ⟨2⟩, ⟨1⟩, ⟨0⟩] :=
    .cons (.cons (.cons (.cons (.cons .nil))))
  have inBody : inClause.forest.Chain (some ⟨8⟩) [⟨8⟩, ⟨7⟩] := .cons (.cons .nil)
  have grounded : inClause.forest.Grounded inClauseCalls := by
    simp only [Forest.Grounded, inClauseCalls, List.forall_mem_cons, Call.node]
    exact ⟨⟨_, inBody⟩, ⟨_, .nil⟩, ⟨_, method⟩, by simp⟩
  have named : (Call.name (some ⟨5⟩), inClauseName) ∈ inClauseCalls.zip (answerAll inClause.oracle
      inClauseCalls (start "" fun _ => some { path := "p" }) []).1.1 := by
    decide +kernel
  have inside : (Call.name (some ⟨8⟩), .localName 0) ∈ inClauseCalls.zip (answerAll inClause.oracle
      inClauseCalls (start "" fun _ => some { path := "p" }) []).1.1 := by
    decide +kernel
  refine ⟨inClause.shows, grounded, ?_, fun route => ?_⟩
  · exact (global_iff_route inClause.shows "" _ grounded [] method named).1.1 rfl
  · exact absurd ((global_iff_route inClause.shows "" _ grounded [] inBody inside).1.2 route)
      (by decide)

end Namer

end SymbolAtlas
