/-
# SymbolAtlas.Proofs.Session.Uses -- where the symbols of a program stand

A symbol that is addressed through its declarations occurs where the files of a run mention it,
as a definition where one of its declarations is marked and as a reference elsewhere; and it
is defined where its other declarations are marked (`Portrait.Occurs`).  The ranges of a
completed run say that and nothing else (`occurs_run`), whoever met the symbol first and whatever
else had its definitions recorded by then.
-/
import SymbolAtlas.Proofs.Session.Accounts
import SymbolAtlas.Proofs.Session.Charted
import SymbolAtlas.Proofs.Session.Outliers

set_option autoImplicit false

namespace SymbolAtlas

open SymbolAtlas.Graph (Id Element Role)
open Session (Site)

/-! ## What a program says -/

namespace Portrait

variable {π : Type} (P : Portrait π)

/-- The site of a place. -/
def site (x : π) : Site := ⟨(P.face x).file, (P.face x).span⟩

/-- The sites at which the declarations of a symbol are marked. -/
def marks (key : String) : List Site := (P.declarations key).map fun x => P.site (P.mark x)

/-- What an identifier is to the symbol that it denotes. -/
inductive Plays (key : String) (x : π) : Role → Prop where
  | definition (marked : P.site x ∈ P.marks key ∨ P.IsDefinitionSite x) : Plays key x .definition
  | reference (marked : ¬ (P.site x ∈ P.marks key ∨ P.IsDefinitionSite x)) :
      Plays key x .reference

variable {P} in
theorem Plays.unique {key : String} {x : π} {role role' : Role} (h : P.Plays key x role)
    (h' : P.Plays key x role') : role = role' := by
  cases h with
  | definition marked =>
      cases h' with
      | definition => rfl
      | reference unmarked => exact absurd marked unmarked
  | reference unmarked =>
      cases h' with
      | definition marked => exact absurd marked unmarked
      | reference => rfl

/-- A symbol occurs at a site in a role, if a run visits these places, which are those of the
files at `paths`. -/
def Occurs (visited : π → Prop) (paths : List String) (key : String) (site : Site) (role : Role) :
    Prop :=
  (∃ x, visited x ∧ P.named x = some key ∧ P.site x = site ∧ P.Plays key x role) ∨
    (site ∈ P.marks key ∧ site.file ∉ paths ∧ role = .definition)

end Portrait

namespace Session

variable {μ ω π : Type} {c : Context μ ω} {memory m : μ} {output : ω} {P : Portrait π}
  {r : Recall μ π} {view : ω → List Element}

/-- A symbol has a range of its own at a site. -/
def State.Occurs (view : ω → List Element) (s : State μ ω) (n : SymbolNode) (site : Site)
    (role : Role) : Prop :=
  ∃ entry ∈ s.rangesAt view site.file, entry.2.resultSet = n.resultSet ∧
    entry.2.span = site.span ∧ entry.2.role = role

/-! ## Marks -/

/-- A declaration is marked where the program marks it. -/
theorem siteIn_of_reads (portrays : c.oracle.Portrays memory P r) {id : NodeId} {x : π}
    (read : r.reads m id = some x) : siteIn c m id = P.site (P.mark x) := by
  have sees := portrays.nameNode read
  unfold Portrait.mark
  have atNode : ∀ {id : NodeId} {x : π}, r.reads m id = some x →
      Site.ofNode (c.oracle.node id m) = P.site x := by
    intro id x read
    have face := portrays.face read
    exact congrArg (fun f : Face => Site.mk f.file f.span) face
  cases named : (c.oracle.node id m).nameNode with
  | none =>
      rw [named] at sees
      rw [siteIn_of_unnamed named, sees.eq_none, Option.getD_none, atNode read]
  | some name =>
      rw [named] at sees
      obtain ⟨y, up, read'⟩ := sees.exists_of_some
      rw [siteIn_of_name named, up, Option.getD_some, atNode read']

theorem map_siteIn_of_reads (portrays : c.oracle.Portrays memory P r) {ids : List NodeId}
    {places : List π} (read : ids.map (r.reads m) = places.map some) :
    ids.map (siteIn c m) = places.map fun x => P.site (P.mark x) := by
  induction ids generalizing places with
  | nil =>
      obtain rfl := List.map_eq_nil_iff.1 read.symm
      rfl
  | cons id ids ih =>
      cases places with
      | nil => cases read
      | cons x places =>
          obtain ⟨first, rest⟩ := List.cons.inj read
          exact congrArg₂ List.cons (siteIn_of_reads portrays first) (ih rest)

/-- The marks of a node are those of its symbol. -/
theorem SymbolNode.Portrayed.marks (portrays : c.oracle.Portrays memory P r) {n₀ : Namer}
    {key : String} {n : SymbolNode} (h : n.Portrayed P r n₀ m key)
    (addressed : (P.outline key).isAtUse = false) :
    n.declarations.map (siteIn c m) = P.marks key :=
  map_siteIn_of_reads portrays (h.declarations addressed)

end Session

section Stands

variable {μ π : Type} {o : Oracle μ} {start m : μ} {P : Portrait π} {r : Recall μ π} {n : Node}
  {x : π}

theorem Recall.Stands.site (h : r.Stands o start n x) (portrays : o.Portrays start P r) :
    Site.ofNode n = P.site x :=
  congrArg (fun f : Face => Site.mk f.file f.span) (h.face portrays)

/-- An identifier names a declaration exactly if the program says so. -/
theorem Recall.Stands.isDefinitionSite_iff (h : r.Stands o start n x)
    (portrays : o.Portrays start P r) (later : o.Later start m) :
    o.isDefinitionSite m n = true ↔ P.IsDefinitionSite x := by
  have read := h.reads m later
  have kind : n.kind = (P.face x).kind := congrArg Face.kind (h.face portrays)
  have up := portrays.parent read
  rw [h.node m later] at up
  unfold Oracle.isDefinitionSite Portrait.IsDefinitionSite
  rw [kind]
  cases parent : n.parent with
  | none =>
      rw [parent] at up
      simp [up.eq_none]
  | some p =>
      rw [parent] at up
      obtain ⟨q, above, read'⟩ := up.exists_of_some
      have sort : (o.node p m).kind = (P.face q).kind := congrArg Face.kind (portrays.face read')
      have name := portrays.nameNode read'
      have same : (o.node p m).nameNode = some n.id ↔ P.nameNode q = some x := by
        constructor
        · intro named
          rw [named] at name
          obtain ⟨y, there, read''⟩ := name.exists_of_some
          rw [there, ← read'', read]
        · intro named
          rw [named] at name
          obtain ⟨id, there, read''⟩ := name.exists_of_place
          rw [there, portrays.reads_inj read'' read]
      simp [above, sort, same]

end Stands

namespace Session

variable {μ ω π : Type} {c : Context μ ω} {memory m : μ} {output : ω} {P : Portrait π}
  {r : Recall μ π} {view : ω → List Element}

/-- **A range shows an identifier** exactly if it says of it what the program says. -/
theorem shows_iff (portrays : c.oracle.Portrays memory P r) {n₀ : Namer} {s : State μ ω}
    {x : Sighting} {y : π} {key : String} {n : SymbolNode}
    (later : c.oracle.Later memory s.memory) (stands : r.Stands c.oracle memory x.name y)
    (node : s.symbols.get? key = some n) (portrayed : n.Portrayed P r n₀ s.memory key)
    (addressed : (P.outline key).isAtUse = false) (denotes : x.symbol.map (·.key) = some key)
    (range : Graph.Range) :
    x.Shows c s range ↔ range.resultSet = n.resultSet ∧ range.span = (P.site y).span ∧
      P.Plays key y range.role := by
  have marks : n.Marks c s.memory x.name ↔ P.site y ∈ P.marks key ∨ P.IsDefinitionSite y := by
    unfold SymbolNode.Marks
    rw [portrayed.marks portrays addressed, stands.site portrays,
      stands.isDefinitionSite_iff portrays later]
  have span : x.name.span = (P.site y).span := congrArg Site.span (stands.site portrays)
  have plays : P.Plays key y range.role ↔
      range.role = if n.Marks c s.memory x.name then .definition else .reference := by
    by_cases marked : n.Marks c s.memory x.name
    · have defines : P.Plays key y .definition := .definition (marks.1 marked)
      rw [if_pos marked]
      exact ⟨fun plays => plays.unique defines, fun same => same ▸ defines⟩
    · have refers : P.Plays key y .reference := .reference (mt marks.2 marked)
      rw [if_neg marked]
      exact ⟨fun plays => plays.unique refers, fun same => same ▸ refers⟩
  rw [plays, ← span]
  obtain ⟨sym, found, own⟩ := Option.map_eq_some_iff.1 denotes
  constructor
  · rintro ⟨sym', n', found', node', here, home, role⟩
    obtain rfl := Option.some.inj (found.symm.trans found')
    rw [own, node] at node'
    obtain rfl := Option.some.inj node'
    exact ⟨home, here, role⟩
  · rintro ⟨home, here, role⟩
    exact ⟨sym, n, found, own ▸ node, here, home, role⟩

/-! ## What is seen -/

/-- What is seen in the course of a run denotes what the oracle answers at some time. -/
theorem Course.denotes {moments : List Moment} {s s' : State μ ω} (course : Course c moments s s')
    {x : Sighting} (member : x ∈ sightings c moments s) :
    ∃ m, c.oracle.Later s.memory m ∧ x.symbol = (c.oracle.symbolAt x.name.id m).1 := by
  induction course with
  | nil => cases member
  | @cons moment rest s t s' performed effect next ih =>
      rcases List.mem_append.1 member with here | there
      · obtain ⟨named, -, rfl⟩ := Option.map_eq_some_iff.1 (Option.mem_toList.1 here)
        exact ⟨s.memory, .refl, rfl⟩
      · have after : (outcome (moment.perform c) s).2 = t := congrArg Prod.snd performed
        obtain ⟨m, later, denotes⟩ := ih (after ▸ there)
        exact ⟨m, effect.steps.later.trans later, denotes⟩

/-- **The identifiers that a run sees** are those of its files, each at some time. -/
theorem mem_sightings_schedule (distinct : (c.oracle.files.map (·.root.file)).Nodup)
    {t : State μ ω}
    (course : Course c (schedule c.oracle.files) ((State.start c memory output).opened c) t) :
    (∀ x ∈ sightings c (schedule c.oracle.files) ((State.start c memory output).opened c),
      (∃ file ∈ c.oracle.files, x.path = file.root.file ∧ x.name ∈ file.nodes ∧
        x.name.kind = .identifier) ∧
      ∃ m, c.oracle.Later memory m ∧ x.symbol = (c.oracle.symbolAt x.name.id m).1) ∧
    ∀ file ∈ c.oracle.files, ∀ n ∈ file.nodes, n.kind = .identifier →
      ∃ x ∈ sightings c (schedule c.oracle.files) ((State.start c memory output).opened c),
        x.path = file.root.file ∧ x.name = n := by
  have names := names_sightings (c := c) distinct ((State.start c memory output).opened c)
  constructor
  · intro x member
    have named : (x.path, x.name) ∈ Tree.identifiers c.oracle.files :=
      names ▸ List.mem_map_of_mem (f := fun x : Sighting => (x.path, x.name)) member
    exact ⟨mem_identifiers.1 named, course.denotes member⟩
  · intro file indexed n inside kind
    have named : (file.root.file, n) ∈ Tree.identifiers c.oracle.files :=
      mem_identifiers.2 ⟨file, indexed, rfl, inside, kind⟩
    rw [← names] at named
    obtain ⟨x, member, same⟩ := List.mem_map.1 named
    exact ⟨x, member, congrArg Prod.fst same, congrArg Prod.snd same⟩

/-- **What a run sees are the places in its files**: each identifier that it sees denotes what the
program says of its place, and each place that mentions a symbol is seen. -/
theorem sees_places (anchored : c.oracle.Anchored memory) (portrays : c.oracle.Portrays memory P r)
    (distinct : (c.oracle.files.map (·.root.file)).Nodup) {t : State μ ω}
    (course : Course c (schedule c.oracle.files) ((State.start c memory output).opened c) t) :
    (∀ x ∈ sightings c (schedule c.oracle.files) ((State.start c memory output).opened c),
      ∃ y, r.Stands c.oracle memory x.name y ∧ r.Visited c.oracle memory y ∧
        x.path = (P.site y).file ∧ x.symbol.map (·.key) = P.named y) ∧
    ∀ y, r.Visited c.oracle memory y → (P.named y).isSome = true →
      ∃ x ∈ sightings c (schedule c.oracle.files) ((State.start c memory output).opened c),
        r.Stands c.oracle memory x.name y ∧ x.path = (P.site y).file ∧
        x.symbol.map (·.key) = P.named y := by
  obtain ⟨sound, full⟩ := mem_sightings_schedule distinct course
  have seen_at {x : Sighting} {y : π} {file : Tree} (stands : r.Stands c.oracle memory x.name y)
      (member : x ∈ sightings c (schedule c.oracle.files) ((State.start c memory output).opened c))
      (indexed : file ∈ c.oracle.files) (path : x.path = file.root.file)
      (inside : x.name ∈ file.nodes) (kind : x.name.kind = .identifier) :
      x.path = (P.site y).file ∧ x.symbol.map (·.key) = P.named y := by
    obtain ⟨-, m, later, denotes⟩ := sound x member
    have name := stands.named portrays later
    rw [symbolNamed, if_pos kind, ← denotes] at name
    have home : x.name.file = (P.site y).file := congrArg Site.file (stands.site portrays)
    exact ⟨path.trans ((anchored.tree file indexed _ inside).2.symm.trans home), name⟩
  constructor
  · intro x member
    obtain ⟨⟨file, indexed, path, inside, kind⟩, -⟩ := sound x member
    obtain ⟨y, stands, visited⟩ := stands_of_inside anchored portrays indexed inside
    exact ⟨y, stands, visited, seen_at stands member indexed path inside kind⟩
  · intro y visited denotes
    obtain ⟨file, indexed, n, inside, stands⟩ := visited.stands anchored portrays
    have kind : n.kind = .identifier := by
      have same : n.kind = (P.face y).kind := congrArg Face.kind (stands.face portrays)
      unfold Portrait.named at denotes
      split at denotes
      · exact same.trans ‹_›
      · cases denotes
    obtain ⟨x, member, path, rfl⟩ := full file indexed n inside kind
    exact ⟨x, member, stands, seen_at stands member indexed path inside kind⟩

/-! ## Runs -/

section Runs

variable (records : c.sink.Records view) (empty : view output = [])
  (anchored : c.oracle.Anchored memory) (portrays : c.oracle.Portrays memory P r)
  (apart : P.Apart c.namer SymbolName.render) (distinct : (c.oracle.files.map (·.root.file)).Nodup)
  {canceled : Cancellation Nat} {stats : Stats} {s' : State μ ω}
  (completed : Yields (run c canceled) (.start c memory output) (stats, none) s')

include records empty anchored portrays apart distinct completed

/-- **In a file that the run visits** a symbol occurs where the file mentions it. -/
theorem occurs_visited {key : String} {n : SymbolNode} (node : s'.symbols.get? key = some n)
    (addressed : (P.outline key).isAtUse = false) {site : Site}
    (visited : site.file ∈ c.oracle.files.map (·.root.file)) (role : Role) :
    s'.Occurs view n site role ↔
      ∃ x, r.Visited c.oracle memory x ∧ P.named x = some key ∧ P.site x = site ∧
        P.Plays key x role := by
  have charted := charted_run records empty completed anchored
  have portrayed := portrayed_run anchored portrays apart completed
  obtain ⟨t, u, course, endings, -, -, ⟨okU, filedU⟩, rfl, ok⟩ :=
    filed_run records empty completed
  obtain ⟨sound, full⟩ := sees_places anchored portrays distinct course
  have later : c.oracle.Later memory (u.concluded c).memory := by
    rw [memory_concluded]
    exact course.steps.later.trans endings.steps.later
  constructor
  · rintro ⟨entry, member, home, span, rfl⟩
    rw [← traversal_run completed] at visited
    obtain ⟨x, seen, path, shows⟩ := charted.sighted site.file visited entry member
    obtain ⟨y, stands, here, file, denotes⟩ := sound x seen
    have own : x.symbol.map (·.key) = some key := by
      obtain ⟨sym, n', found, node', -, home', -⟩ := shows
      rw [symbols_concluded] at node node'
      have same : key = sym.key :=
        filedU.accounted.key_unique filedU.ordered node node' (home.symm.trans home')
      rw [found, Option.map_some, same]
    obtain ⟨-, span', plays⟩ := (shows_iff portrays later stands node (portrayed key n node)
      addressed own entry.2).1 shows
    refine ⟨y, here, denotes.symm.trans own, ?_, plays⟩
    show Site.mk (P.site y).file (P.site y).span = site
    rw [← file, path, ← span', span]
  · rintro ⟨y, here, named, rfl, plays⟩
    obtain ⟨x, seen, stands, file, denotes⟩ := full y here (by rw [named]; rfl)
    have own : x.symbol.map (·.key) = some key := denotes.trans named
    have some_ : x.symbol.isSome = true := by
      rw [← Option.isSome_map (f := Symbol.key), own]
      rfl
    obtain ⟨entry, member, shows⟩ := charted.ranged x seen some_
    obtain ⟨home, span, plays'⟩ := (shows_iff portrays later stands node (portrayed key n node)
      addressed own entry.2).1 shows
    exact ⟨entry, file ▸ member, home, span, plays'.unique plays⟩

/-- **In a file that the run does not visit** a symbol is defined where its declarations are
marked, and that is all. -/
theorem occurs_outlying {key : String} {n : SymbolNode} (node : s'.symbols.get? key = some n)
    (addressed : (P.outline key).isAtUse = false) {site : Site}
    (outside : site.file ∉ c.oracle.files.map (·.root.file)) (role : Role) :
    s'.Occurs view n site role ↔ site ∈ P.marks key ∧ role = .definition := by
  have portrayed := portrayed_run anchored portrays apart completed key n node
  have traversal := traversal_run completed
  obtain ⟨t, u, course, endings, -, ⟨okT, filed⟩, ⟨okU, filedU⟩, rfl, ok⟩ :=
    filed_run records empty completed
  have whole : schedule c.oracle.files = schedule c.oracle.files ++ [] :=
    (List.append_nil _).symm
  obtain ⟨rooted, -⟩ := marked_performed anchored whole course okT
  have attested := endings.attested records filed
    (attested_performed records empty anchored whole course okT) okU
  obtain ⟨defining, apposite⟩ := outlying_performed records empty anchored whole course okT
  have defining := endings.defining records filed defining okU
  have apposite := endings.apposite apposite
  have marks := portrayed.marks portrays addressed
  rw [symbols_concluded] at node
  rw [memory_concluded] at marks
  rw [traversal_concluded] at traversal
  unfold State.Occurs
  rw [rangesAt_concluded records filedU ok, ← marks]
  constructor
  · rintro ⟨⟨id, range⟩, member, home, span, rfl⟩
    have role := defining site.file (traversal ▸ outside) _ member
    unfold State.rangesAt at member
    cases document : u.documents.get? site.file with
    | none =>
        rw [document] at member
        cases member
    | some d =>
        rw [document] at member
        obtain ⟨inside, listed⟩ := Graph.mem_rangesIn.1 member
        have defined : range ∈ Graph.definitionsOf n.resultSet (view u.output) :=
          Graph.mem_definitionsOf.2 ⟨role, home, id, listed⟩
        obtain ⟨site', recorded, span', d', document', inside'⟩ :=
          (attested key n node).site defined
        have path := filedU.sorted.path_unique filedU.ordered document' document
          (inside'.symm.trans inside)
        obtain rfl : site' = site := by
          show Site.mk site'.file site'.span = Site.mk site.file site.span
          rw [path, ← span', span]
        exact ⟨apposite key n node _ recorded (traversal ▸ outside), role⟩
  · rintro ⟨marked, rfl⟩
    obtain ⟨id, chosen, rfl⟩ := List.mem_map.1 marked
    have shown := ((endings.rooted rooted).nodes key n node).shown id chosen
    rw [file_siteIn anchored shown] at outside
    have recorded := recorded_ended anchored distinct course endings okU node chosen (.inl outside)
    obtain ⟨entry, member, span, home, role⟩ := (attested key n node).entry recorded
    exact ⟨entry, member, home, span, role⟩

/-- **Where a completed run shows a symbol** that is addressed through its declarations is where
it occurs in the program. -/
theorem occurs_run {key : String} {n : SymbolNode} (node : s'.symbols.get? key = some n)
    (addressed : (P.outline key).isAtUse = false) (site : Site) (role : Role) :
    s'.Occurs view n site role ↔
      P.Occurs (r.Visited c.oracle memory) (c.oracle.files.map (·.root.file)) key site role := by
  unfold Portrait.Occurs
  by_cases visited : site.file ∈ c.oracle.files.map (·.root.file)
  · rw [occurs_visited records empty anchored portrays apart distinct completed node addressed
      visited]
    simp [visited]
  · rw [occurs_outlying records empty anchored portrays apart distinct completed node addressed
      visited]
    have elsewhere : ¬ ∃ x, r.Visited c.oracle memory x ∧ P.named x = some key ∧
        P.site x = site ∧ P.Plays key x role := by
      rintro ⟨x, here, -, rfl, -⟩
      obtain ⟨file, indexed, n, inside, stands⟩ := here.stands anchored portrays
      have home : n.file = (P.site x).file := congrArg Site.file (stands.site portrays)
      rw [← home, (anchored.tree file indexed n inside).2] at visited
      exact visited (List.mem_map_of_mem indexed)
    rw [or_iff_right elsewhere]
    simp [visited]

end Runs

end Session
end SymbolAtlas
