/-
# SymbolAtlas.Proofs.Checked.References -- which uses become references

A type checker records what each identifier of a file declares and what it uses.  A completed
run shows a use as a reference to what is used, at the place of the identifier, exactly if the
identifier declares nothing (`run_refers`): what an identifier declares comes first, so the name
of an embedded field, which declares the field and uses its type, is no reference to the type.

The checker's promises that this rests on are those of its interface: an identifier stands
where the entity stands that it declares, and nowhere where an entity stands that it uses
(`LoadedFile.Regular`).  Three kinds of files do not keep them all.  Where a field is declared
twice, the second name declares nothing, but that of an embedded field uses its type and counts as
a definition of it.  Names that the parser makes up after an error may share their start with
others.  And what stands behind a directive for lines is reported at other lines, or in another
file.
-/
import SymbolAtlas.Proofs.Checked.Keys
import SymbolAtlas.Proofs.Checked.Loaded
import SymbolAtlas.Proofs.Session.Uses
import SymbolAtlas.Proofs.Session.Vouching
import SymbolAtlas.Proofs.Text.Positions

set_option autoImplicit false

namespace SymbolAtlas.Checked

open Session (SymbolNode Site Yields)

/-! ## What the checker promises -/

/-- The identifiers of a file; the name of an embedded field is there twice. -/
def LoadedFile.identifiers (f : LoadedFile) : List Identifier :=
  f.parsed.mentions.filterMap Mention.identifier?

/-- An entity is declared in a file at an offset. -/
def LoadedFile.Declares (b : Base) (f : LoadedFile) (e : EntityId) (offset : Nat) : Prop :=
  (b.declaredAt? (b.facts.entity e)).map (fun place => (place.file, place.offset)) =
    some (f.path, offset)

instance (b : Base) (f : LoadedFile) (e : EntityId) (offset : Nat) :
    Decidable (f.Declares b e offset) :=
  inferInstanceAs (Decidable (_ = _))

theorem LoadedFile.declares_iff {b : Base} {f : LoadedFile} {e : EntityId} {offset : Nat} :
    f.Declares b e offset ↔ ∃ place, b.declaredAt? (b.facts.entity e) = some place ∧
      place.file = f.path ∧ place.offset = offset := by
  unfold LoadedFile.Declares
  simp only [Option.map_eq_some_iff, Prod.mk.injEq]

/-- What holds of everything that was found. -/
structure Base.Regular (b : Base) : Prop where
  /-- Declared entities are not instantiated. -/
  origin : ∀ e, b.facts.origin (b.facts.origin e) = b.facts.origin e
  legible : ∀ e, b.Legible (b.facts.entity e)
  /-- The language has no variables of its own. -/
  predeclared : ∀ e origin, (b.facts.entity e).isUniverse = true →
    (b.facts.entity e).kind ≠ .variable origin false

/-- What holds of all entities, and of one that is missing, holds under every number. -/
theorem Facts.entity_all {P : Entity → Prop} (f : Facts) (default_ : P {})
    (all : ∀ e ∈ f.entities.toList, P e) (id : EntityId) : P (f.entity id) := by
  unfold Facts.entity
  cases found : f.entities[id]? with
  | none => exact default_
  | some e => exact all e (Array.mem_toList_iff.2 (Array.mem_of_getElem? found))

/-- What holds of a parsed file and of what the checker recorded for its identifiers. -/
structure LoadedFile.Regular (b : Base) (f : LoadedFile) : Prop where
  readable : f.source ≠ .unreadable
  /-- What is mentioned begins a code point. -/
  begins : ∀ x ∈ f.parsed.mentions, f.source.Begins x.extent.start
  /-- Different identifiers have different marks and different starts, which excludes names that the
  parser made up. -/
  marks : ∀ i ∈ f.identifiers, ∀ j ∈ f.identifiers, i.mark = j.mark → i = j
  starts : ∀ x ∈ f.parsed.mentions, ∀ y ∈ f.parsed.mentions,
    x.extent.start = y.extent.start → x.identifier? = y.identifier?
  /-- A name that declares nothing uses nothing, which excludes an embedded field whose name was
  declared before. -/
  names : ∀ i, .name i ∈ f.parsed.mentions → i.definition = none → i.use = none
  /-- What stands in the file is reported there, and not where a directive says. -/
  own : ∀ offset, b.reportedFile f.path offset = f.path
  /-- The places in the file are those of its text, which no directive changes. -/
  places : ∀ e place, b.declaredAt? (b.facts.entity e) = some place → place.file = f.path →
    (place.line, place.column) = f.source.lineColumn place.offset ∧
      f.source.Begins place.offset
  /-- An identifier stands where what it declares is declared. -/
  declares : ∀ i ∈ f.identifiers, ∀ d ∈ i.definition,
    f.Declares b (b.facts.origin d) i.extent.start
  /-- No identifier stands where what it uses is declared. -/
  uses : ∀ i ∈ f.identifiers, ∀ e ∈ i.use, ¬ f.Declares b (b.facts.origin e) i.extent.start

variable {b : Base} {f : LoadedFile} {m : Memory} {i : Identifier} {e x : EntityId}
  {clause clause' : Option Nat}

/-! ## Places -/

theorem Base.lined_source (b : Base) (path : String) : (b.source path).Lined := by
  unfold Base.source
  cases b.files.readBytes? path with
  | none => exact .inl rfl
  | some bytes => exact .inr rfl

/-- Where the second of two entities is declared, the first one is, as far as keys tell. -/
def Base.Joins (b : Base) (e e' : Entity) : Prop :=
  ∀ place, b.declaredAt? e' = some place → ∃ place', b.declaredAt? e = some place' ∧
    place'.file = place.file ∧ place'.line = place.line ∧ place'.column = place.column

theorem Base.Joins.trans {e e' e'' : Entity} (first : b.Joins e e') (second : b.Joins e' e'') :
    b.Joins e e'' := by
  intro place declared
  obtain ⟨place', declared', file, line, column⟩ := second place declared
  obtain ⟨place'', declared'', file', line', column'⟩ := first place' declared'
  exact ⟨place'', declared'', file'.trans file, line'.trans line, column'.trans column⟩

/-- Entities with one key are declared at one place. -/
theorem Base.Regular.joins (h : b.Regular)
    (same : b.entityKey (b.facts.entity e) clause = b.entityKey (b.facts.entity x) clause') :
    b.Joins (b.facts.entity e) (b.facts.entity x) := by
  intro place declared
  unfold Base.declaredAt? Entity.isUniverse at *
  cases alike_of_entityKey (h.legible e) (h.legible x) same with
  | predeclared first second name =>
      rw [second, Option.isNone_none, if_pos rfl] at declared
      rw [first, Option.isNone_none, if_pos rfl, name]
      exact ⟨place, declared, rfl, rfl, rfl⟩
  | declared first second tag path name where_ clause =>
      rw [second, Option.isNone_some, if_neg Bool.false_ne_true] at declared
      rw [first, Option.isNone_some, if_neg Bool.false_ne_true]
      obtain rfl := Option.some.inj declared
      exact ⟨_, rfl, where_⟩

/-- **Nothing that has the place of what is used** is declared where the identifier stands. -/
theorem LoadedFile.Regular.not_declares (h : f.Regular b) (lined : f.source.Lined)
    (member : i ∈ f.identifiers) (used : i.use = some e)
    (joins : b.Joins (b.facts.entity (b.facts.origin e)) (b.facts.entity x)) :
    ¬ f.Declares b x i.extent.start := by
  intro here
  obtain ⟨place, declared, file, start⟩ := LoadedFile.declares_iff.1 here
  obtain ⟨place', declared', file', line, column⟩ := joins place declared
  have file' := file'.trans file
  obtain ⟨text, -⟩ := h.places _ place declared file
  obtain ⟨text', -⟩ := h.places _ place' declared' file'
  have same : f.source.lineColumn place'.offset = f.source.lineColumn place.offset := by
    rw [← text, ← text', line, column]
  exact h.uses i member e used (LoadedFile.declares_iff.2
    ⟨place', declared', file', (lined.lineColumn_inj same).trans start⟩)

/-- What is marked where an identifier stands is declared there. -/
theorem LoadedFile.Regular.declares_of_marks (h : f.Regular b) (source : f.source = b.source f.path)
    (begins : f.source.Begins i.extent.start) {place : Place} {path : String}
    {start : Text.Position} (declared : b.declaredAt? (b.facts.entity x) = some place)
    (located : b.Locates place path start) (file : path = f.path)
    (here : start = (f.span i.extent).start) : f.Declares b x i.extent.start := by
  have lined : f.source.Lined := source ▸ b.lined_source f.path
  have own : place.file = f.path := by
    cases located with
    | reported same => rw [← same, file, h.own]
    | own => exact file
  obtain ⟨text, begins'⟩ := h.places x place declared own
  have position : f.source.offsetPosition place.offset = start := by
    cases located with
    | reported => rw [source, file]
    | own =>
        rw [file, ← source, ← lined.columnPosition_lineColumn h.readable, ← text]
  exact LoadedFile.declares_iff.2 ⟨place, declared, own,
    Text.Source.eq_of_offsetPosition lined begins' begins (position.trans here)⟩

/-! ## Symbols -/

/-- A symbol with the key of an entity that no clause declares is not transient. -/
theorem Base.Regular.lasting (h : b.Regular) {s : Symbol} (meant : b.Meant s)
    (key : s.key = b.entityKey (b.facts.entity x) none) : s.flags.transient = false := by
  obtain ⟨meaning, means⟩ := meant
  cases meaning with
  | package id => exact absurd (key.symm.trans means) (entityKey_ne_packageKey b _ _ _)
  | guard declaration members =>
      obtain ⟨package, name, place, own⟩ := means
      exact absurd (key.symm.trans own) (entityKey_ne_guardKey b _ _ _ _ _)
  | entity id =>
      obtain ⟨-, clause, own, flags⟩ := means
      have alike := alike_of_entityKey (h.legible x) (h.legible id) (key.symm.trans own)
      have settled : ∀ inClause, (∀ origin, (b.facts.entity id).kind = .variable origin false →
          inClause = false) → ((b.facts.entity id).flags inClause).transient = false := by
        intro inClause plain
        unfold Entity.flags
        split <;> first | rfl | exact plain _ ‹_›
      rw [flags]
      refine settled _ fun origin kind => ?_
      cases alike with
      | predeclared first second name =>
          exact absurd kind (h.predeclared id origin (by rw [Entity.isUniverse, second]; rfl))
      | declared first second tag path name place same => rw [← same]; rfl

/-- The oracle of a loaded module names symbols that stand for something. -/
theorem Program.Built.vouches {p : Program} {files : List LoadedFile} (h : p.Built files) :
    p.oracle.Vouches p.memory p.base.Meant where
  symbolAt later id := (Program.answers_symbolAt (Program.told_later h.sound later).sound id).2.1
  resolveAlias later s := (Program.answers_resolveAlias (Program.told_later h.sound later).sound s).2
  baseMembers later s name :=
    (Program.answers_baseMembers (Program.told_later h.sound later).sound s name).2

/-! ## Declarations -/

/-- A declaration of what an identifier uses is not marked where the identifier stands. -/
theorem LoadedFile.Regular.apart (h : f.Regular b) (regular : b.Regular)
    (source : f.source = b.source f.path) (member : i ∈ f.identifiers)
    (begins : f.source.Begins i.extent.start) (used : i.use = some e)
    (key : b.entityKey (b.facts.entity (b.facts.origin e)) none =
      b.entityKey (b.facts.entity x) clause)
    (origin : b.facts.origin x = x) {id : NodeId}
    (declares : m.Declares b (b.entityKey (b.facts.entity (b.facts.origin x)) clause') id) :
    ¬ m.Marks id f.path (f.span i.extent).start := by
  rintro ⟨name, -, named, file, start⟩
  obtain ⟨y, clause'', place, path, start', own, declared, located, name', -, named', file',
    start''⟩ := declares
  obtain rfl := Option.some.inj (named.symm.trans named')
  rw [origin] at own
  have lined : f.source.Lined := source ▸ b.lined_source f.path
  have here := h.declares_of_marks source begins declared located (file'.symm.trans file)
    (start''.symm.trans start)
  exact h.not_declares lined member used ((regular.joins key).trans (regular.joins own)) here

/-! ## Identifiers -/

section Identifiers

variable {p : Program} {files : List LoadedFile}

/-- The identifiers of a file are among what it mentions. -/
theorem LoadedFile.exists_mention (member : i ∈ f.identifiers) :
    ∃ x ∈ f.parsed.mentions, x.identifier? = some i ∧ x.extent = i.extent := by
  obtain ⟨x, mentioned, same⟩ := List.mem_filterMap.1 member
  cases x with
  | name => exact ⟨_, mentioned, same, congrArg Identifier.extent (Option.some.inj same)⟩
  | loose => exact ⟨_, mentioned, same, congrArg Identifier.extent (Option.some.inj same)⟩
  | path => cases same

/-- An identifier that uses something and declares nothing stands on its own. -/
theorem LoadedFile.Regular.loose_of_bare (h : f.Regular b) (member : i ∈ f.identifiers)
    (bare : i.definition = none) (used : i.use = some e) :
    .loose i ∈ f.parsed.mentions ∧ Unclaimed f.parsed.mentions [] i := by
  have unnamed : .name i ∉ f.parsed.mentions := fun named => by
    rw [h.names i named bare] at used
    cases used
  constructor
  · obtain ⟨x, mentioned, same⟩ := List.mem_filterMap.1 member
    cases x with
    | name => exact absurd (Option.some.inj same ▸ mentioned) unnamed
    | loose => exact Option.some.inj same ▸ mentioned
    | path => cases same
  · refine ⟨List.not_mem_nil, fun j named same => unnamed ?_⟩
    exact h.marks j (List.mem_filterMap.2 ⟨_, named, rfl⟩) i member same ▸ named

/-- What an identifier denotes that declares nothing and is nobody's name. -/
theorem Program.Built.denotes_of_loose (built : p.Built files) {m : Memory}
    (later : p.oracle.Later p.memory m) {id : NodeId}
    (own : (p.memory.node id).identifier = some i) (loose : ¬ p.memory.Names id)
    (bare : i.definition = none) (used : i.use = some e)
    (lasting : p.memory.cases.get? (p.base.facts.origin e) = none) :
    (p.oracle.symbolAt id m).1.map (·.key) =
      some (p.base.entityKey (p.base.facts.entity (p.base.facts.origin e)) none) := by
  have told := Program.told_later built.sound later
  have has := p.memory.has_of_identifier own
  have plain : (m.node id).symbol = none := by
    cases preset : (m.node id).symbol with
    | none => rfl
    | some s =>
        have names := ((told.sound.nodes id (told.grows.has has)).preset s preset).names
        exact absurd (told.grows.of_names has (built.sound.nodes id has) names) loose
  obtain ⟨-, -, denotes, -⟩ := Program.answers_symbolAt told.sound id
  refine (denotes plain).trans ?_
  rw [told.grows.identifier has, own, told.cases, Option.bind_some, Identifier.entity?, bare, used,
    Option.none_or, Option.map_some, lasting]

/-- An identifier that declares something never denotes what it uses. -/
theorem Program.Built.not_denotes_of_definition (built : p.Built files) (regular : p.base.Regular)
    (plain : f.Regular p.base) (lined : f.source.Lined) (member : i ∈ f.identifiers) {m : Memory}
    (later : p.oracle.Later p.memory m) {id : NodeId}
    (own : (p.memory.node id).identifier = some i) {d : EntityId} (defines : i.definition = some d)
    (used : i.use = some e) {s : Symbol} (denotes : (p.oracle.symbolAt id m).1 = some s) :
    s.key ≠ p.base.entityKey (p.base.facts.entity (p.base.facts.origin e)) none := by
  intro key
  have told := Program.told_later built.sound later
  have has := p.memory.has_of_identifier own
  obtain ⟨-, -, -, first⟩ := Program.answers_symbolAt told.sound id
  have first := first s _ none d denotes key
    (by rw [told.grows.identifier has, own, Option.bind_some, defines])
  exact plain.not_declares lined member used (regular.joins (key.symm.trans first))
    (plain.declares i member d defines)

end Identifiers

/-! ## Runs -/

section Runs

variable {p : Program} {files : List LoadedFile} {ω : Type} {c : Session.Context Memory ω}
  {view : ω → List Graph.Element} {output : ω} {canceled : Cancellation Nat} {stats : Session.Stats}
  {s' : Session.State Memory ω}
  (built : p.Built files) (oracle : c.oracle = p.oracle) (regular : p.base.Regular)
  (plain : f.Regular p.base) (source : f.source = p.base.source f.path)
  (member : i ∈ f.identifiers) (used : i.use = some e)

include built oracle regular plain source member used

/-- The node of an identifier that declares nothing marks no declaration of what it uses. -/
theorem not_marks_of_loose (begins : f.source.Begins i.extent.start) {m : Memory}
    (later : p.oracle.Later p.memory m) {name : Node} (has : p.memory.Has name.id)
    (own : (p.memory.node name.id).node = name)
    (site : Site.ofNode name = ⟨f.path, f.span i.extent⟩) (loose : ¬ p.memory.Names name.id)
    {n : SymbolNode} (answered : n.Answered c.oracle p.memory p.base.Meant m
      (p.base.entityKey (p.base.facts.entity (p.base.facts.origin e)) none)) :
    ¬ n.Marks c m name := by
  have told := Program.told_later built.sound later
  rintro (declared | definition)
  · obtain ⟨id, chosen, marked⟩ := List.mem_map.1 declared
    obtain ⟨m₁, before, told₁, behind⟩ :=
      answered.declarations (regular.lasting answered.named answered.own)
    rw [oracle] at before told₁ behind
    obtain ⟨step, declares⟩ := Program.answers_declarationsOf
      (Program.told_later built.sound before).sound n.symbol
    obtain ⟨-, stands⟩ := declares id (told₁ ▸ chosen)
    obtain ⟨x, y, clause, clause', rfl, key, declares⟩ := stands _ _ answered.own
    have grown := (Program.told_later step.sound behind).grows.declares declares
    refine plain.apart regular source member begins used (answered.own.symm.trans key)
      (regular.origin y) grown ?_
    obtain ⟨-, -, -, -, -, -, -, -, mark, there, named, -⟩ := grown
    have node (id : NodeId) : c.oracle.node id m = (m.node id).node := by rw [oracle]; rfl
    rw [Session.siteIn_of_name ((congrArg Node.nameNode (node id)).trans named), node, site]
      at marked
    exact ⟨mark, there, named, congrArg Site.file marked,
      congrArg (fun place : Site => place.span.start) marked⟩
  · refine loose (told.grows.of_names has (built.sound.nodes _ has) ?_)
    rw [oracle] at definition
    unfold Oracle.isDefinitionSite at definition
    cases up : name.parent with
    | none => simp [up] at definition
    | some above =>
        simp only [up, Bool.and_eq_true, decide_eq_true_eq] at definition
        exact ⟨above, by rw [told.grows.node has, own, up], definition.2.2⟩

variable (records : c.sink.Records view) (empty : view output = [])
  (completed : Yields (Session.run c canceled) (.start c p.memory output) (stats, none) s')
  (selected : f ∈ files)

include records empty completed selected

/-- **A use becomes a reference**, if the identifier declares nothing. -/
theorem occurs_of_bare (bare : i.definition = none)
    (lasting : p.memory.cases.get? (p.base.facts.origin e) = none) :
    ∃ n, s'.symbols.get? (p.base.entityKey (p.base.facts.entity (p.base.facts.origin e)) none) =
      some n ∧ s'.Occurs view n ⟨f.path, f.span i.extent⟩ .reference := by
  obtain ⟨stands, unclaimed⟩ := plain.loose_of_bare member bare used
  obtain ⟨t, indexed, root, outlined⟩ := built.picture_of_file selected
  obtain ⟨n, inside, kind, span, identifier, loose⟩ := outlined.finds i stands unclaimed bare
  obtain ⟨-, has, own, file⟩ := outlined.nodes n inside
  have anchored : c.oracle.Anchored p.memory := oracle ▸ built.anchored
  have distinct : (c.oracle.files.map (·.root.file)).Nodup := oracle ▸ built.nodup_paths
  have charted := Session.charted_run records empty completed anchored
  have answered := Session.answered_run anchored (oracle ▸ built.vouches) completed
  obtain ⟨v, u, course, endings, -, -, rfl, ok⟩ := Session.course_run completed
  have later : p.oracle.Later p.memory (u.concluded c).memory := by
    rw [Session.memory_concluded, ← oracle]
    exact course.steps.later.trans endings.steps.later
  obtain ⟨sound, full⟩ := Session.mem_sightings_schedule distinct course
  obtain ⟨x, seen, path, rfl⟩ := full t (oracle ▸ indexed) n inside kind
  obtain ⟨-, m, before, symbol⟩ := sound x seen
  rw [oracle] at before symbol
  have denotes := built.denotes_of_loose before identifier loose bare used lasting
  rw [← symbol] at denotes
  obtain ⟨entry, recorded, sym, node, found, here, site, home, role⟩ :=
    charted.ranged x seen (by rw [← Option.isSome_map (f := Symbol.key), denotes]; rfl)
  rw [found, Option.map_some] at denotes
  rw [Option.some.inj denotes] at here
  rw [if_neg (not_marks_of_loose built oracle regular plain source member used
    (plain.begins _ stands) later has own (congrArg₂ Site.mk file span) loose (answered _ node
    here))] at role
  have recorded : entry ∈ (u.concluded c).rangesAt view f.path := path.trans root ▸ recorded
  exact ⟨node, here, entry, recorded, home, site.trans span, role⟩

/-- **An identifier that declares something** has no range of what it uses, in any role. -/
theorem bare_of_occurs {n : SymbolNode} (node : s'.symbols.get?
      (p.base.entityKey (p.base.facts.entity (p.base.facts.origin e)) none) = some n)
    {role : Graph.Role} (occurs : s'.Occurs view n ⟨f.path, f.span i.extent⟩ role) :
    i.definition = none := by
  have anchored : c.oracle.Anchored p.memory := oracle ▸ built.anchored
  have distinct : (c.oracle.files.map (·.root.file)).Nodup := oracle ▸ built.nodup_paths
  have lined : f.source.Lined := source ▸ p.base.lined_source f.path
  have charted := Session.charted_run records empty completed anchored
  have visited : f.path ∈ s'.traversal := by
    rw [Session.traversal_run completed, oracle]
    exact built.paths_eq ▸ List.mem_map_of_mem selected
  obtain ⟨v, u, course, endings, -, -, rfl, ok⟩ := Session.course_run completed
  have okU := Session.failure_none_of_concluded ok
  have filed := course.filed records empty (endings.steps.failure_none okU)
  obtain ⟨filedU, -, -⟩ := endings.steps.filed records filed okU
  obtain ⟨entry, recorded, home, span, -⟩ := occurs
  obtain ⟨x, seen, path, sym, n', found, node', span', home', -⟩ :=
    charted.sighted f.path visited entry recorded
  obtain ⟨⟨t, indexed, root, inside, kind⟩, m, before, symbol⟩ :=
    (Session.mem_sightings_schedule distinct course).1 x seen
  rw [oracle] at indexed before symbol
  have key : sym.key = p.base.entityKey (p.base.facts.entity (p.base.facts.origin e)) none := by
    rw [Session.symbols_concluded] at node node'
    exact filedU.accounted.key_unique filedU.ordered node' node (home'.symm.trans home)
  obtain ⟨g, among, root', outlined⟩ := built.picture_of_tree indexed
  obtain rfl : g = f := List.inj_on_of_nodup_map built.distinct among selected
    (root'.symm.trans (root.symm.trans path))
  obtain ⟨y, mentioned, span'', own⟩ := outlined.stands x.name inside kind
  obtain ⟨z, mentioned', identifier, extent⟩ := g.exists_mention member
  have start : y.extent.start = z.extent.start := by
    refine Text.Source.eq_of_offsetPosition lined (plain.begins y mentioned)
      (plain.begins z mentioned') ?_
    rw [extent]
    exact congrArg Text.Span.start (span''.symm.trans (span'.symm.trans span))
  rw [plain.starts y mentioned z mentioned' start, identifier] at own
  cases defines : i.definition with
  | none => rfl
  | some d =>
      exact absurd key (built.not_denotes_of_definition regular plain lined member before own
        defines used (symbol.symm.trans found))

end Runs

/-- A run has a reference to the symbol with a key where an identifier of a file stands. -/
def LoadedFile.Refers {ω : Type} (f : LoadedFile) (view : ω → List Graph.Element)
    (s : Session.State Memory ω) (key : String) (i : Identifier) : Prop :=
  ∃ n, s.symbols.get? key = some n ∧ s.Occurs view n ⟨f.path, f.span i.extent⟩ .reference

/-- **Which uses become references.**  A completed run over a loaded module has a reference to what
an identifier uses, where the identifier stands, exactly if the identifier declares nothing.  The
variables that the clauses of type switches declare are left out.  So are files that do not keep the
promises of the checker (`LoadedFile.Regular`: an embedded field that is declared twice, names that
were made up after an error, a directive for lines) and modules with a bar in a path or a name
(`Base.Regular`). -/
theorem run_refers {keeps : String → Bool} {p : Program} (loaded : Program.load b keeps = .ok p)
    {ω : Type} {c : Session.Context Memory ω} (oracle : c.oracle = p.oracle)
    {view : ω → List Graph.Element} {output : ω} (records : c.sink.Records view)
    (empty : view output = []) {canceled : Cancellation Nat} {stats : Session.Stats}
    {s' : Session.State Memory ω}
    (completed : Yields (Session.run c canceled) (.start c p.memory output) (stats, none) s')
    (regular : b.Regular) (selected : f ∈ b.select keeps) (plain : f.Regular b)
    (member : i ∈ f.identifiers) (used : i.use = some e)
    (lasting : p.memory.cases.get? (b.facts.origin e) = none) :
    f.Refers view s' (symbolFor b e p.memory).1.key i ↔ i.definition = none := by
  obtain ⟨rfl, built⟩ := built_of_load loaded
  have source := source_of_select selected
  rw [LoadedFile.Refers, (answers_symbolFor built.sound e).2.2, lasting]
  constructor
  · rintro ⟨n, node, occurs⟩
    exact bare_of_occurs built oracle regular plain source member used records empty completed
      selected node occurs
  · intro bare
    exact occurs_of_bare built oracle regular plain source member used records empty completed
      selected bare lasting

/-! ## A module with an embedded field -/

/-- An identifier of one letter, and what the checker recorded for it. -/
def letter (name : String) (start : Nat) (definition use : Option EntityId) : Identifier :=
  { mark := start, name, extent := ⟨start, start + 1⟩, definition, use }

/-- The name of an embedded field, which is also a use of its type. -/
def embeddedName : Identifier := letter "T" 35 (some 2) (some 0)

/-- Another use of the type. -/
def variableType : Identifier := letter "T" 45 none (some 0)

/-- A file with an embedded field. -/
def embeddingText : String := "package a\ntype T int\nvar x struct{ T }\nvar y T\n"

/-- The file as it was parsed. -/
def embeddingSyntax : SourceFile where
  extent := ⟨0, 47⟩
  name := letter "a" 8 none none
  declarations := [
    .declarations ⟨10, 20⟩ "" [.type ⟨15, 20⟩ "" (letter "T" 15 (some 0) none) []
      (.identifier { mark := 17, name := "int", extent := ⟨17, 20⟩, use := some 4 })],
    .declarations ⟨21, 38⟩ "" [.value false ⟨25, 38⟩ "" [letter "x" 25 (some 1) none]
      [.structType ⟨27, 38⟩ [.mk ⟨35, 36⟩ "" [] (.identifier embeddedName)]]],
    .declarations ⟨39, 46⟩ "" [.value false ⟨43, 46⟩ "" [letter "y" 43 (some 3) none]
      [.identifier variableType]]]

/-- The module of the file: the type, the variables, the field, and a predeclared type. -/
def embedding : Base where
  root := "/m"
  files.entries := (Table.empty.insert "/m" .directory).insert "/m/a.go"
    (.file embeddingText.toUTF8 0)
  facts.loaded := [
    { id := "a", path := "a", package := some 0, files := [("/m/a.go", embeddingSyntax)] }]
  facts.packages := #[{ path := "a", name := "a", scope := [0, 1, 3] }]
  facts.entities := #[
    { kind := .typeName { type := .named 0 }, name := "T", package := some 0
      place := some ⟨"/m/a.go", 2, 6, 15⟩, isExported := true, isTop := true },
    { kind := .variable none false, name := "x", package := some 0
      place := some ⟨"/m/a.go", 3, 5, 25⟩, isTop := true },
    { kind := .variable none true, name := "T", package := some 0
      place := some ⟨"/m/a.go", 3, 15, 35⟩, isExported := true },
    { kind := .variable none false, name := "y", package := some 0
      place := some ⟨"/m/a.go", 4, 5, 43⟩, isTop := true },
    { kind := .typeName {}, name := "int" }]

/-- The file of the module. -/
def embeddingFile : LoadedFile :=
  ⟨"/m/a.go", "a", 0, embeddingSyntax, embedding.source "/m/a.go"⟩

/-- The loaded module. -/
def embeddingProgram : Program := (Program.load embedding fun _ => true).toOption.getD {}

/-- The module is loaded, and no clause of a type switch declares the type. -/
theorem loads_embedding : (Program.load embedding fun _ => true).toOption.isSome = true ∧
    embeddingProgram.memory.cases.get? (embedding.facts.origin 0) = none := by
  decide +kernel

theorem load_embedding : Program.load embedding (fun _ => true) = .ok embeddingProgram := by
  have loaded := loads_embedding.1
  unfold embeddingProgram
  generalize Program.load embedding (fun _ => true) = result at loaded
  cases result with
  | error => cases loaded
  | ok => rfl

theorem select_embedding : embedding.select (fun _ => true) = [embeddingFile] := by
  have inside : Text.Path.isWithin embedding.root embeddingFile.path = true := by decide
  have files : (embedding.facts.loaded.mergeSort LoadedPackage.isBefore).flatMap embedding.filesOf =
      [embeddingFile] := by
    rw [show embedding.facts.loaded = [_] from rfl, List.mergeSort_singleton]
    rfl
  unfold Base.select
  simp [files, inside, addFresh]

theorem regular_embedding : embedding.Regular where
  origin id := by
    have plain := Facts.entity_all (P := fun e => e.origin? = none) embedding.facts rfl (by decide)
    simp [Facts.origin, plain]
  legible id := by
    obtain ⟨name, package⟩ := Facts.entity_all (P := fun e => '|' ∉ e.name.toList ∧
      ∀ package ∈ e.package, '|' ∉ (embedding.facts.package package).path.toList) embedding.facts
      (by decide) (by decide) id
    exact ⟨name, package⟩
  predeclared id := by
    refine Facts.entity_all (P := fun e => ∀ origin, e.isUniverse = true →
      e.kind ≠ .variable origin false) embedding.facts (by simp) ?_ id
    simp [embedding, Entity.isUniverse]

/-- The text is short and plain. -/
theorem text_embedding : embeddingFile.source.bytes.length = 47 ∧
    ∀ b ∈ embeddingFile.source.bytes, b < 0x80 := by
  decide +kernel

theorem begins_embedding {offset : Nat} (inside : offset ≤ 47) :
    embeddingFile.source.Begins offset := by
  have lined : embeddingFile.source.Lined := embedding.lined_source "/m/a.go"
  exact lined.begins_of_ascii text_embedding.2 (text_embedding.1 ▸ inside)

theorem plain_embedding : embeddingFile.Regular embedding where
  readable same := absurd (same ▸ text_embedding.1) (by decide)
  begins x mentioned := begins_embedding
    ((by decide : ∀ x ∈ embeddingSyntax.mentions, x.extent.start ≤ 47) x mentioned)
  marks := by decide
  starts := by decide
  own _ := rfl
  names i named bare := by
    have declared : ∀ x ∈ embeddingSyntax.mentions, (match x with
        | .name i => i.definition.isSome || i.use.isNone
        | _ => true) = true := by decide
    simpa [bare] using declared _ named
  places id place declared _ := by
    have placed := Facts.entity_all (P := fun e => ∀ place ∈ embedding.declaredAt? e,
      (place.line, place.column) = embeddingFile.source.lineColumn place.offset ∧
        place.offset ≤ 47) embedding.facts (by decide) (by decide +kernel) id
    obtain ⟨text, inside⟩ := placed place declared
    exact ⟨text, begins_embedding inside⟩
  declares := by decide
  uses := by decide

/-- A session over the module. -/
def embeddingContext : Session.Context Memory (Unit × Array Graph.Element) :=
  Session.Context.recorded
    { oracle := embeddingProgram.oracle
      sink := fun _ (_ : Unit) => .ok ()
      options := {}
      locate := fun _ => some { path := "p" } }

/-- The end of the run over the module. -/
def embeddingEnd : Session.State Memory (Unit × Array Graph.Element) :=
  (Session.outcome (Session.run embeddingContext false)
    (.start embeddingContext embeddingProgram.memory ((), #[]))).2

/-- The key of the type. -/
def embeddingKey : String := (symbolFor embedding 0 embeddingProgram.memory).1.key

/-- What the run answers, and that all it has where the name of the field stands are
definitions. -/
theorem answer_embedding :
    (Session.outcome (Session.run embeddingContext false)
        (.start embeddingContext embeddingProgram.memory ((), #[]))).1.toOption =
      some ({ documents := 1, symbols := 6, definitions := 5, references := 2, monikers := 2 },
        none) ∧
    ∀ entry ∈ embeddingEnd.rangesAt (·.2.toList) "/m/a.go",
      entry.2.span = embeddingFile.span embeddedName.extent → entry.2.role = .definition := by
  decide +kernel

theorem completed_embedding :
    Yields (Session.run embeddingContext false)
      (.start embeddingContext embeddingProgram.memory ((), #[]))
      ({ documents := 1, symbols := 6, definitions := 5, references := 2, monikers := 2 }, none)
      embeddingEnd :=
  Session.yields_of_answer answer_embedding.1

/-- The type of the variable is a reference to the type; the name of the field is none. -/
theorem run_refers_embedding :
    embeddingFile.Refers (·.2.toList) embeddingEnd embeddingKey variableType ∧
      ¬ embeddingFile.Refers (·.2.toList) embeddingEnd embeddingKey embeddedName := by
  have refers {i : Identifier} (member : i ∈ embeddingFile.identifiers) (used : i.use = some 0) :=
    run_refers load_embedding (c := embeddingContext) rfl (Session.records_recorded _) rfl
      completed_embedding regular_embedding (select_embedding ▸ List.mem_singleton_self _)
      plain_embedding member used loads_embedding.2
  have bare := refers (i := variableType) (by decide) rfl
  have named := refers (i := embeddedName) (by decide) rfl
  exact ⟨bare.2 rfl, fun lost => absurd (named.1 lost) (by decide)⟩

/-- **The use of an embedded type is lost.**  The checker recorded that the name of the field uses
the type, and the run is completed, but all that it has where the name stands is a definition. -/
theorem embedded_use_lost :
    ∃ stats, Program.load embedding (fun _ => true) = .ok embeddingProgram ∧
      Yields (Session.run embeddingContext false)
        (.start embeddingContext embeddingProgram.memory ((), #[])) (stats, none) embeddingEnd ∧
      embeddingFile ∈ embedding.select (fun _ => true) ∧
      embeddedName ∈ embeddingFile.identifiers ∧ embeddedName.use = some 0 ∧
      embeddingProgram.memory.cases.get? (embedding.facts.origin 0) = none ∧
      ¬ embeddingFile.Refers (·.2.toList) embeddingEnd
        (symbolFor embedding 0 embeddingProgram.memory).1.key embeddedName := by
  refine ⟨_, load_embedding, completed_embedding, select_embedding ▸ List.mem_singleton_self _,
    by decide, rfl, loads_embedding.2, ?_⟩
  rintro ⟨n, node, entry, recorded, home, span, role⟩
  cases role.symm.trans (answer_embedding.2 entry recorded span)

end SymbolAtlas.Checked
