/-
# SymbolAtlas.Proofs.Session.Reordering -- the order of the files

The order of the files decides who meets a symbol first: from which use its node is made, when
its definitions are recorded and when it is published, in which order the namer is asked, and
which local symbols are frozen by then.  What a session says of a program does not depend on
any of that.

The proof never compares two sessions.  What each of them says has been described by the
program and the set of the places that it visits: the nodes (`has_iff_needs`), what a node says
of its symbol (`portrayed_run`), the monikers of a global one (`monikers_run`) and where it
occurs (`occurs_run`).  Files in another order have the same places.

That declarations of one name have different containers is not enough, because a namer knows
containers by their texts.  Where two files lie in packages that are written alike, the first of
two functions of one name keeps it, and which one is first is up to the order of the files
(`namesakes_swapped`).  Where the names of files can be read off their texts, it is enough
(`Portrait.Apart.of_legible`).
-/
import SymbolAtlas.Proofs.Naming.Unnumbered
import SymbolAtlas.Proofs.Session.Labels
import SymbolAtlas.Proofs.Session.Uses
import SymbolAtlas.Proofs.Sketch.Likeness

set_option autoImplicit false

namespace SymbolAtlas

open SymbolAtlas.Graph (Element Role)
open Session (Site)

/-! ## The same program in another order -/

/-- The same program with these files to index. -/
def Oracle.reordered {μ : Type} (o : Oracle μ) (files : List Tree) : Oracle μ := { o with files }

section Oracle

variable {μ π : Type} {o : Oracle μ} {start m m' : μ} {P : Portrait π} {r : Recall μ π}
  {files : List Tree}

theorem Oracle.Quiet.of_reordered (h : (o.reordered files).Quiet m m') : o.Quiet m m' := by
  cases h with
  | owner id => exact .owner id m
  | symbolAt id => exact .symbolAt id m
  | declarationsOf sym => exact .declarationsOf sym m
  | compositeMembers sym use => exact .compositeMembers sym use m
  | containerOf sym => exact .containerOf sym m
  | baseMembers container name => exact .baseMembers container name m
  | exportPath sym => exact .exportPath sym m
  | exportAlias id => exact .exportAlias id m
  | hoverText id => exact .hoverText id m

theorem Oracle.Asked.of_reordered (h : (o.reordered files).Asked m m') : o.Asked m m' := by
  cases h with
  | quiet h => exact .quiet h.of_reordered
  | resolveAlias sym => exact .resolveAlias sym m

theorem Oracle.Later.of_reordered (h : (o.reordered files).Later m m') : o.Later m m' :=
  Relation.ReflTransGen.mono (fun _ _ h => Oracle.Asked.of_reordered h) _ _ h

theorem Oracle.Shown.of_reordered (same : files ⊆ o.files) {id : NodeId}
    (h : (o.reordered files).Shown start m id) : o.Shown start m id := by
  induction h with
  | visited indexed inside => exact .visited (same indexed) inside
  | declared later answer => exact .declared (Oracle.Later.of_reordered later) answer
  | name _ named ih => exact .name ih named
  | parent _ up ih => exact .parent ih up
  | asked _ question ih => exact .asked ih question.of_reordered

theorem Oracle.Anchored.reordered (h : o.Anchored start) (same : files ⊆ o.files) :
    (o.reordered files).Anchored start where
  tree file indexed := h.tree file (same indexed)
  stays shown asked := h.stays (shown.of_reordered same) asked.of_reordered
  name_file shown named := h.name_file (shown.of_reordered same) named

theorem Oracle.Portrays.reordered (h : o.Portrays start P r) (same : files ⊆ o.files) :
    (o.reordered files).Portrays start P r where
  reads_asked asked := h.reads_asked asked.of_reordered
  reads_inj := h.reads_inj
  knows_asked asked := h.knows_asked asked.of_reordered
  tree file indexed := h.tree file (same indexed)
  face := h.face
  parent := h.parent
  nameNode := h.nameNode
  owner := h.owner
  symbolAt := h.symbolAt
  exportAlias := h.exportAlias
  symbol := h.symbol
  declarationsOf := h.declarationsOf
  resolveAlias := h.resolveAlias
  compositeMembers := h.compositeMembers
  containerOf := h.containerOf
  baseMembers := h.baseMembers
  exportPath := h.exportPath
  exportPath_stays declared later asked :=
    h.exportPath_stays declared (Oracle.Later.of_reordered later) asked.of_reordered
  depth := h.depth

/-- Files in another order have the same places. -/
theorem Recall.visited_reordered (permuted : files.Perm o.files) :
    r.Visited (o.reordered files) start = r.Visited o start := by
  funext x
  refine propext ⟨?_, ?_⟩
  · rintro ⟨file, indexed, rest⟩
    exact ⟨file, permuted.mem_iff.1 indexed, rest⟩
  · rintro ⟨file, indexed, rest⟩
    exact ⟨file, permuted.mem_iff.2 indexed, rest⟩

end Oracle

theorem Portrait.occurs_congr {π : Type} {P : Portrait π} {visited : π → Prop}
    {paths paths' : List String} (same : ∀ path, path ∈ paths ↔ path ∈ paths') {key : String}
    {site : Site} {role : Role} :
    P.Occurs visited paths key site role ↔ P.Occurs visited paths' key site role := by
  unfold Portrait.Occurs
  rw [same]

namespace Session

variable {μ ω π : Type}

/-- The same session over these files. -/
def Context.reordered (c : Context μ ω) (files : List Tree) : Context μ ω :=
  { c with oracle := c.oracle.reordered files }

/-! ## What a session says -/

/-- A session says what the program says, if it visits these places, which are those of the files
at `paths`; `n₀` names the files and `locate` finds them. -/
structure State.Tells (view : ω → List Element) (P : Portrait π) (n₀ : Namer) (locate : Locator)
    (visited : π → Prop) (paths : List String) (s : State μ ω) : Prop where
  keys : ∀ key, s.Has key ↔ Portrait.Needs P visited key
  outline : s.symbols.All fun key n => n.variant.map Variant.outline = some (P.outline key)
  isLocal : s.symbols.All fun key n => n.isLocal = (P.titleOf n₀ key).isNone
  identifier : s.symbols.All fun key n => ∀ name, P.titleOf n₀ key = some name →
    n.identifier = name.render
  monikers : s.symbols.All fun key n => n.isLocal = false → ∀ text,
    (∃ given ∈ n.monikers, given.identifier = text) ↔ P.Labels n₀ locate visited key text
  occurrences : s.symbols.All fun key n => (P.outline key).isAtUse = false → ∀ site role,
    s.Occurs view n site role ↔ P.Occurs visited paths key site role

/-- **A completed run says what the program says.** -/
theorem tells_run {c : Context μ ω} {view : ω → List Element} {P : Portrait π} {r : Recall μ π}
    {memory : μ} {output : ω} (records : c.sink.Records view) (empty : view output = [])
    (anchored : c.oracle.Anchored memory) (portrays : c.oracle.Portrays memory P r)
    (apart : P.Apart c.namer SymbolName.render) (distinct : (c.oracle.files.map (·.root.file)).Nodup)
    {canceled : Cancellation Nat} {stats : Stats} {s : State μ ω}
    (completed : Yields (run c canceled) (.start c memory output) (stats, none) s) :
    s.Tells view P c.namer c.locate (r.Visited c.oracle memory)
      (c.oracle.files.map (·.root.file)) := by
  have portrayed := portrayed_run anchored portrays apart completed
  exact {
    keys := has_iff_needs anchored portrays apart distinct completed
    outline := portrayed.imp fun _ _ _ portrayed => portrayed.outline
    isLocal := portrayed.imp fun _ _ _ portrayed => portrayed.isLocal
    identifier := portrayed.imp fun _ _ _ portrayed => portrayed.identifier
    monikers := fun key n node global text =>
      monikers_run anchored portrays apart distinct completed node global text
    occurrences := fun key n node addressed site role =>
      occurs_run records empty anchored portrays apart distinct completed node addressed site role }

/-! ## What two sessions agree on -/

/-- Two sessions give the same symbols nodes, tell the global ones alike and find those that are
addressed through their declarations at the same sites. -/
structure State.Agrees (view : ω → List Element) (s s' : State μ ω) : Prop where
  keys : ∀ key, s.Has key ↔ s'.Has key
  outline : ∀ key n n', s.symbols.get? key = some n → s'.symbols.get? key = some n' →
    n.variant.map Variant.outline = n'.variant.map Variant.outline
  isLocal : ∀ key n n', s.symbols.get? key = some n → s'.symbols.get? key = some n' →
    n.isLocal = n'.isLocal
  identifier : ∀ key n n', s.symbols.get? key = some n → s'.symbols.get? key = some n' →
    n.isLocal = false → n.identifier = n'.identifier
  monikers : ∀ key n n', s.symbols.get? key = some n → s'.symbols.get? key = some n' →
    n.isLocal = false → ∀ text,
      (∃ given ∈ n.monikers, given.identifier = text) ↔
        ∃ given ∈ n'.monikers, given.identifier = text
  /-- A standard symbol, an alias and a method are addressed through their declarations. -/
  occurrences : ∀ key n n' v, s.symbols.get? key = some n → s'.symbols.get? key = some n' →
    n.variant = some v → v.isAtUse = false → ∀ site role,
      s.Occurs view n site role ↔ s'.Occurs view n' site role

/-- Sessions that say what one program says agree. -/
theorem State.Tells.agrees {view : ω → List Element} {P : Portrait π} {n₀ : Namer}
    {locate : Locator} {visited : π → Prop} {paths paths' : List String} {s s' : State μ ω}
    (h : s.Tells view P n₀ locate visited paths) (h' : s'.Tells view P n₀ locate visited paths')
    (same : ∀ path, path ∈ paths ↔ path ∈ paths') : s.Agrees view s' where
  keys key := (h.keys key).trans (h'.keys key).symm
  outline key n n' node node' := (h.outline key n node).trans (h'.outline key n' node').symm
  isLocal key n n' node node' := (h.isLocal key n node).trans (h'.isLocal key n' node').symm
  identifier key n n' node node' global := by
    have named : n.isLocal = (P.titleOf n₀ key).isNone := h.isLocal key n node
    rw [global] at named
    obtain ⟨name, title⟩ := Option.isSome_iff_exists.1 (Option.isNone_eq_false_iff.1 named.symm)
    exact (h.identifier key n node name title).trans (h'.identifier key n' node' name title).symm
  monikers key n n' node node' global text := by
    have global' := (h.isLocal key n node).trans (h'.isLocal key n' node').symm
    exact (h.monikers key n node global text).trans
      (h'.monikers key n' node' (global' ▸ global) text).symm
  occurrences key n n' v node node' variant addressed site role := by
    have outline : n.variant.map Variant.outline = some (P.outline key) := h.outline key n node
    rw [variant] at outline
    have own : (P.outline key).isAtUse = false := by
      rw [← Option.some.inj outline]
      exact v.isAtUse_outline.trans addressed
    exact (h.occurrences key n node own site role).trans ((Portrait.occurs_congr same).trans
      (h'.occurrences key n' node' own site role).symm)

theorem whole_layered : layered.Whole where
  handle := by decide +kernel
  keys := by decide +kernel
  bound := by decide +kernel
  based := by decide +kernel
  target := by decide +kernel
  container := by decide +kernel
  parent := by decide +kernel
  owner := by decide +kernel
  named := by decide +kernel

theorem apart_layered : (layered.likeness whole_layered).Apart (Context.ofSketch layered).namer
    SymbolName.render :=
  Sketch.apart_likeness (by decide +kernel) (by decide +kernel)

/-- The session over `layered` with its files in the other order. -/
def backward : Context Sketch.AliasLog Unit :=
  (Context.ofSketch layered).reordered layered.oracle.files.reverse

theorem completed_backward :
    (outcome (run backward.recorded false) (.start backward.recorded [] ((), #[]))).1.toOption =
      some ({ documents := 3, symbols := 5, definitions := 4, references := 4, skipped := 1 },
        none) := by
  decide +kernel

/-- What a session over a sketch tells of a symbol. -/
def toldOf (c : Context Sketch.AliasLog Unit) (key : String) :
    Option (Bool × String × Array String) :=
  ((outcome (run c.recorded false) (.start c.recorded [] ((), #[]))).2.symbols.get? key).map
    fun n => (n.isLocal, n.identifier, n.monikers.map (·.identifier))

theorem told_method : toldOf (Context.ofSketch layered) "T.f" =
    some (false, "gomod . . . p/f().", #[]) := by
  decide +kernel

/-- A local symbol is published only where it is still open. -/
example : (toldOf (Context.ofSketch layered) "x", toldOf backward "x") =
    (some (true, "local 1", #["p:B"]), some (true, "local 0", #[])) := by
  decide +kernel

/-! ### Two packages that are written alike -/

/-- Two files, each of which declares a function of one name. -/
def namesakes : Sketch :=
  let (first, s) := Sketch.addFile {} "a.go"
  let (second, s) := s.addFile "b.go"
  let (mine, s) := s.addSymbol "a.f" "f" {}
  let (yours, s) := s.addSymbol "b.f" "f" {}
  let (_, s) := s.define first .function "f" mine
  let (_, s) := s.define second .function "f" yours
  s

theorem whole_namesakes : namesakes.Whole where
  handle := by decide +kernel
  keys := by decide +kernel
  bound := by decide +kernel
  based := by decide +kernel
  target := by decide +kernel
  container := by decide +kernel
  parent := by decide +kernel
  owner := by decide +kernel
  named := by decide +kernel

/-- A session over them.  The package of one file has no version, and that of the other one has the
version that is written for none. -/
def versioned : Context Sketch.AliasLog Unit :=
  { Context.ofSketch namesakes with locate := Namer.versions }

/-- The same session over the files in the other order. -/
def versionedBackward : Context Sketch.AliasLog Unit :=
  versioned.reordered versioned.oracle.files.reverse

theorem completed_versioned :
    (outcome (run versioned.recorded false) (.start versioned.recorded [] ((), #[]))).1.toOption =
        some ({ documents := 2, symbols := 2, definitions := 2 }, none) ∧
      (outcome (run versionedBackward.recorded false)
        (.start versionedBackward.recorded [] ((), #[]))).1.toOption =
        some ({ documents := 2, symbols := 2, definitions := 2 }, none) := by
  decide +kernel

theorem told_versioned : toldOf versioned "a.f" = some (false, "gomod . . . p/f().", #[]) ∧
    toldOf versionedBackward "a.f" = some (false, "gomod . . . p/f1().", #[]) := by
  decide +kernel

theorem anchored_versioned : versioned.oracle.Anchored [] :=
  Sketch.anchored (s := namesakes) [] (by decide +kernel) (by decide +kernel)

theorem apart_namesakes : (namesakes.likeness whole_namesakes).Apart versioned.namer
    (fun container => container) :=
  Sketch.apart_likeness (s := namesakes) (by decide +kernel) (by decide +kernel)

end Session
end SymbolAtlas
